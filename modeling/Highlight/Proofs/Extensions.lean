import Highlight.Proofs.JavaScript.Filling
import Highlight.Proofs.Json.Reading
import Highlight.Proofs.Tokens
import Highlight.Text.Unicode

/-!
# What strict mode leaves out

Strict mode takes one alternative from the items of JSON, which is comments, and one from those of
scripts, which is elements. An alternative that was never taken may as well be missing: a text in
which a scan shows nothing of the extension is read alike without it. Comments and elements always
show something, so their absence can be told from the tokens. In scripts this is said of one level at
first, by the outline, and then of all the levels of code in it.
-/

namespace Highlight

open Piece (width)

variable {κ σ : Type}

/-- Either an alternative is taken, or it may as well be missing. -/
theorem Construct.firstOf_without {c : Construct κ} (htrail : ∀ s, c.trail s = [])
    (before after : List (Construct κ)) (s : List Char) :
    (∃ ps qs, firstOf (before ++ c :: after) s = some ps ∧ c s = some qs ∧ qs <:+ ps) ∨
      firstOf (before ++ c :: after) s = firstOf (before ++ after) s := by
  induction before with
  | nil =>
    cases hc : c s with
    | some qs =>
      exact .inl ⟨qs, qs, firstOf_cons_eq_some.2 (.inl hc), rfl, List.suffix_refl qs⟩
    | none =>
      refine .inr ?_
      simp only [List.nil_append, firstOf, readFirst, hc, htrail]
      cases readFirst after s <;> rfl
  | cons d before ih =>
    simp only [List.cons_append, firstOf, readFirst] at ih ⊢
    cases d s with
    | some ps => exact .inr rfl
    | none =>
      rcases ih with ⟨ps, qs, hps, hqs, hsuffix⟩ | hsame
      · refine .inl ⟨_, qs, by rw [hps]; rfl, hqs, ?_⟩
        exact hsuffix.trans (List.suffix_append _ _)
      · exact .inr (by rw [hsame])

/-- Where an alternative is allowed and leaves no trace of its own, it may as well not be allowed. -/
theorem Construct.firstOf_not_allowed {c : Construct κ} (htrail : ∀ s, c.trail s = [])
    {shows : Piece κ → Prop} (hshows : ∀ s ps, c s = some ps → ∃ piece ∈ ps, shows piece)
    {before after : List (Construct κ)} {s : List Char}
    (h : ∀ ps, firstOf (before ++ c :: after) s = some ps → ∀ piece ∈ ps, ¬ shows piece) :
    firstOf (before ++ onlyIf false c :: after) s = firstOf (before ++ c :: after) s := by
  have hmissing : firstOf (before ++ onlyIf false c :: after) s = firstOf (before ++ after) s := by
    refine (firstOf_without (fun _ ↦ rfl) before after s).resolve_left ?_
    rintro ⟨ps, qs, -, hread, -⟩
    exact absurd (onlyIf_eq_some.1 hread).1 Bool.false_ne_true
  rcases firstOf_without htrail before after s with ⟨ps, qs, hps, hqs, hsuffix⟩ | hsame
  · obtain ⟨piece, hmem, hpiece⟩ := hshows s qs hqs
    exact absurd hpiece (h ps hps piece (hsuffix.subset hmem))
  · rw [hmissing, hsame]

/-- A loop that comes to nothing that shows reads the same with steps that are the same wherever
nothing shows. -/
theorem run_eq_of_not_shown {step other : σ → List Char → Option (List (Piece κ) × σ)}
    {shows : Piece κ → Prop} (hadvances : StepAdvances step)
    (hsteps : ∀ state s, (∀ ps next, step state s = some (ps, next) →
      ∀ piece ∈ ps, ¬ shows piece) → other state s = step state s)
    {state : σ} {s : List Char} (h : ∀ piece ∈ run step state s, ¬ shows piece) :
    run other state s = run step state s := by
  refine run_induction (motive := fun state s ps ↦
    (∀ piece ∈ ps, ¬ shows piece) → run other state s = ps) ?_ ?_ ?_ state s h
  · rintro state s hends -
    cases s with
    | nil => exact run_nil _ _
    | cons c s =>
      have hnone := hends.resolve_left (List.cons_ne_nil c s)
      have hother := hsteps state (c :: s) (by simp [hnone])
      rw [run_cons, hother, hnone]
  · intro state s ps next hs hstep hwidth
    exact absurd hwidth (Nat.ne_of_gt (hadvances _ _ _ _ hs hstep))
  · intro state s ps next hs hstep hind hshows
    rw [List.forall_mem_append] at hshows
    have hother := hsteps state s fun qs next' hqs ↦ by
      rw [hstep] at hqs
      obtain ⟨rfl, -⟩ := Prod.mk.inj (Option.some.inj hqs)
      exact hshows.1
    rw [run_of_some (hother.trans hstep) hs (Nat.ne_of_gt (hadvances _ _ _ _ hs hstep)),
      hind hshows.2]

/-- A sequence has the pieces of each of its constructs. -/
theorem Construct.exists_of_seq {c : Construct κ} {cs : List (Construct κ)} (hc : c ∈ cs)
    {s : List Char} {ps : List (Piece κ)} (h : seq cs s = some ps) :
    ∃ t qs, c t = some qs ∧ ∀ piece ∈ qs, piece ∈ ps := by
  induction cs generalizing s ps with
  | nil => simp at hc
  | cons d cs ih =>
    obtain ⟨qs, rs, hqs, hrs, rfl⟩ := seq_cons_eq_some.1 h
    rcases List.mem_cons.1 hc with rfl | hc
    · exact ⟨s, qs, hqs, fun piece ↦ List.mem_append_left rs⟩
    · obtain ⟨t, us, hus, hsubset⟩ := ih hc hrs
      exact ⟨t, us, hus, fun piece hmem ↦ List.mem_append_right qs (hsubset piece hmem)⟩

namespace Json

/-- The piece shows the mark of a comment. -/
def MarksComment (piece : Piece Kind) : Prop :=
  ∃ text ≠ [], piece = .token .commentDelimiter text

theorem marksComment_of_framed (closing : Nat) {text : List Char} (h : text ≠ []) :
    ∃ piece ∈ Piece.framed Kind.commentDelimiter .comment 2 closing text, MarksComment piece := by
  have hfront : text.take 2 ≠ [] := by
    rw [← List.length_pos_iff, List.length_take]
    have hpos := List.length_pos_iff.2 h
    omega
  refine ⟨.token .commentDelimiter (text.take 2), ?_, _, hfront, rfl⟩
  simp [Piece.framed, Piece.shown, hfront]

/-- Every comment shows its mark, so it does not go unnoticed. -/
theorem marksComment_of_comment (s : List Char) (ps : List (Piece Kind))
    (h : JavaScript.comment s = some ps) : ∃ piece ∈ ps, MarksComment piece := by
  rcases Construct.firstOf_cons_eq_some.1 h with hline | ⟨-, qs, hqs, rfl⟩
  · have hpos := Comment.advances_line JavaScript.hasRoom_lineCommentLength s ps hline
    simp only [Comment.line] at hline
    split_ifs at hline
    obtain rfl := Option.some.inj hline
    rw [(Comment.covers_linePieces _).2, List.length_pos_iff] at hpos
    exact marksComment_of_framed 0 hpos
  · rcases Construct.firstOf_cons_eq_some.1 hqs with hblock | ⟨-, us, hus, -⟩
    · have hpos := Comment.advances_block s _ hblock
      simp only [Comment.block] at hblock
      split_ifs at hblock
      obtain rfl := Option.some.inj hblock
      rw [(Comment.covers_blockPieces _ _).2, List.length_pos_iff] at hpos
      exact marksComment_of_framed _ hpos
    · exact absurd hus (Option.some_ne_none us).symm

variable [Text.IdentifierClasses]

theorem item_strict {s : List Char}
    (h : ∀ ps, item false s = some ps → ∀ piece ∈ ps, ¬ MarksComment piece) :
    item true s = item false s :=
  @Construct.firstOf_not_allowed _ _ (fun _ ↦ rfl) _ marksComment_of_comment
    [.skipSome (Text.spanLength isSpace)] _ s h

/-- Data without comments is read alike in strict mode. -/
theorem scan_strict {s : List Char} (h : ∀ piece ∈ scan false s, ¬ MarksComment piece) :
    scan true s = scan false s := by
  refine run_eq_of_not_shown ?_ ?_ h
  · intro _ t ps _ _ hturn
    exact advances_item false t ps (Construct.read_of_turn hturn)
  · intro _ t hturn
    rw [item_strict]
    intro ps hps
    exact hturn ps () (by rw [hps]; rfl)

end Json

namespace JavaScript

/-- The piece shows the mark that a tag begins with. -/
def MarksTag (piece : Piece Kind) : Prop :=
  ∃ text, piece = .token .symPunc text ∧ "<".toList <+: text

variable [Text.IdentifierClasses]

theorem marksTag_of_tag? {s : List Char} {kind : TagKind} {parts : List (Piece TagPart)}
    (h : tag? s = some (kind, parts)) (embed : Reader) :
    ∃ piece ∈ showTag embed parts, MarksTag piece := by
  obtain ⟨form, hform, -, hparts⟩ := tag?_eq_some h
  obtain ⟨lit, hmark, hlit⟩ : ∃ lit, mark lit ∈ form.2 ∧ "<".toList <+: lit.toList := by
    rcases (tagForms_mem hform).2 with hmark | hmark
    · exact ⟨_, hmark, by decide⟩
    · exact ⟨_, hmark, by decide⟩
  obtain ⟨t, qs, hqs, hsubset⟩ := Construct.exists_of_seq hmark hparts
  obtain ⟨-, rfl⟩ := Construct.literal_eq_some.1 hqs
  refine ⟨.token .symPunc lit.toList, ?_, _, rfl, hlit⟩
  exact List.mem_flatMap.2 ⟨_, hsubset _ List.mem_cons_self, List.mem_cons_self⟩

theorem marksTag_of_element (embed : Reader) (s : List Char) (ps : List (Piece Kind))
    (h : element embed s = some ps) : ∃ piece ∈ ps, MarksTag piece := by
  unfold element at h
  simp only at h
  split at h
  · simp at h
  · next kind parts htag =>
    obtain ⟨piece, hmem, hpiece⟩ := marksTag_of_tag? htag embed
    split_ifs at h <;> obtain rfl := Option.some.inj h
    · exact ⟨piece, List.mem_append_left _ hmem, hpiece⟩
    · exact ⟨piece, hmem, hpiece⟩

theorem operand_strict {embed : Reader} {expression : Bool} {s : List Char}
    (h : ∀ ps, operand embed false expression s = some ps → ∀ piece ∈ ps, ¬ MarksTag piece) :
    operand embed true expression s = operand embed false expression s := by
  cases expression with
  | false => rfl
  | true =>
    exact @Construct.firstOf_not_allowed _ _ (fun _ ↦ rfl) _ (marksTag_of_element embed)
      [string, template embed, number, .onlyIf true regex] _ s h

theorem item_strict {embed : Reader} {position : Position} {s : List Char}
    (h : ∀ ps next, item embed false position s = some (ps, next) →
      ∀ piece ∈ ps, ¬ MarksTag piece) :
    item embed true position s = item embed false position s := by
  simp only [item, Option.orElse_eq_orElse, Option.orElse_eq_or] at h ⊢
  cases hspace : (Construct.skipSome (Text.spanLength isSpace) : Construct Kind) s with
  | some ps => rfl
  | none =>
    cases hcomment : comment s with
    | some ps => rfl
    | none =>
      rw [operand_strict]
      intro ps hps
      apply h ps .operand
      rw [hspace, hcomment, hps]
      rfl

/-- A script whose own pieces show no tag has the same outline in strict mode. -/
theorem outline_strict {s : List Char}
    (h : ∀ piece, .own piece ∈ outline false s → ¬ MarksTag piece) :
    outline true s = outline false s := by
  have hshown : ∀ piece ∈ run (item marked false) {} s, ¬ MarksTag piece := by
    rw [run_item_eq covering_marked]
    intro piece hmem
    obtain ⟨stretch, hstretch, hpiece⟩ := List.mem_flatMap.1 hmem
    cases stretch with
    | own other =>
      obtain rfl := List.mem_singleton.1 hpiece
      exact h piece hstretch
    | code text =>
      rintro ⟨shown, rfl, -⟩
      simp [Stretch.filled, marked] at hpiece
  rw [outline, run_eq_of_not_shown (advances_item covering_marked false) (fun _ _ ↦ item_strict)
    hshown]
  rfl

/-- Without marks of tags a script is read alike in strict mode, and so is the code in it. -/
theorem scanLevels_strict {levels : Nat} {s : List Char}
    (h : ∀ piece ∈ scanLevels false levels s, ¬ MarksTag piece) :
    scanLevels true levels s = scanLevels false levels s := by
  induction levels generalizing s with
  | zero => rfl
  | succ levels ih =>
    rw [scanLevels_succ] at h
    have hfilled {stretch : Stretch} (hmem : stretch ∈ outline false s) :
        ∀ piece ∈ stretch.filled (scanLevels false levels), ¬ MarksTag piece :=
      fun piece hpiece ↦ h piece (List.mem_flatMap.2 ⟨stretch, hmem, hpiece⟩)
    have hsame : outline true s = outline false s :=
      outline_strict fun piece hmem ↦ hfilled hmem piece (List.mem_singleton_self _)
    rw [scanLevels_succ, scanLevels_succ, hsame]
    apply List.flatMap_congr
    intro stretch hmem
    cases stretch with
    | own piece => rfl
    | code text => exact ih (hfilled hmem)

/-- A script without elements is read alike in strict mode. -/
theorem scan_strict {s : List Char} (h : ∀ piece ∈ scan false s, ¬ MarksTag piece) :
    scan true s = scan false s := by
  simp only [scan, List.forall_mem_append] at h ⊢
  rw [scanLevels_strict h.2]

end JavaScript

/-- Strict mode does no more than to leave out the extensions: a source of JSON in which no comment
is shown, and a script in which no tag is shown at any level, have the same tokens in strict mode. -/
theorem highlight_without_extensions [Text.IdentifierClasses] (source : List Char) (sink : Sink) :
    let tokens language strict :=
      (highlight language { coalescing := false, strict } source sink).1.currentScan.toList
    ((∀ token ∈ tokens .json false, token.kind ≠ .commentDelimiter) →
      tokens .json true = tokens .json false) ∧
    ((∀ token ∈ tokens .javaScript false,
        token.kind = .symPunc → ¬ "<".toList <+: token.text source) →
      tokens .javaScript true = tokens .javaScript false) := by
  intro tokens
  constructor
  · intro hcomments
    have hscan : Json.scan true source = Json.scan false source := by
      apply Json.scan_strict
      rintro piece hmem ⟨text, htext, rfl⟩
      obtain ⟨token, htoken, hkind, -⟩ := exists_token_of_mem_scan .json hmem htext sink
      exact hcomments token htoken hkind
    simp only [tokens, currentScan_highlight_plain]
    exact congrArg (Piece.tokens 0) hscan
  · intro htags
    have hscan : JavaScript.scan true source = JavaScript.scan false source := by
      apply JavaScript.scan_strict
      rintro piece hmem ⟨text, rfl, hangle⟩
      have htext : text ≠ [] := by
        rintro rfl
        exact absurd hangle (by decide)
      obtain ⟨token, htoken, hkind, hshown⟩ :=
        exists_token_of_mem_scan .javaScript hmem htext sink
      exact htags token htoken hkind (hshown ▸ hangle)
    simp only [tokens, currentScan_highlight_plain]
    exact congrArg (Piece.tokens 0) hscan

/-- A tag in a string is no element, and the marks of a comment in a string are none. -/
theorem highlight_without_extensions_strings :
    let tokens language strict source :=
      (highlight language { coalescing := false, strict } source .empty).1.currentScan.toList
    tokens .json true "\"/**/\"".toList = tokens .json false "\"/**/\"".toList ∧
      tokens .json false "\"/**/\"".toList = [⟨0, 6, .string⟩] ∧
      tokens .javaScript true "'<a>'".toList = tokens .javaScript false "'<a>'".toList ∧
      tokens .javaScript false "'<a>'".toList = [⟨0, 5, .string⟩] :=
  ⟨(highlight_without_extensions "\"/**/\"".toList .empty).1 (by decide +kernel),
    by decide +kernel, (highlight_without_extensions "'<a>'".toList .empty).2 (by decide +kernel),
    by decide +kernel⟩

end Highlight
