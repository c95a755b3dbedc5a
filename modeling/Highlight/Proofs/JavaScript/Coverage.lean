import Highlight.Proofs.JavaScript.Depth
import Highlight.Text.Unicode

/-!
# What scans of strict scripts leave out

Without elements a script passes over white space and over nothing else: what is in none of its
items is an error, which is shown. The code substituted into its templates is read the same way, so
only code that stands too deep is lost.
-/

namespace Highlight

open Piece (GapsIn textOf)

namespace JavaScript

variable {form : List Char → Prop} {embed : Reader}

theorem gapsIn_escapePieces (s : List Char) : GapsIn form (escapePieces s) :=
  Piece.gapsIn_token _ _

theorem gapsIn_string : string.GapsIn form := by
  intro s ps h
  obtain ⟨quote, rest, -, hparts⟩ := parts_of_string h
  refine Construct.gapsIn_parts ?_ s ps hparts
  intro t qs hturn
  obtain ⟨-, -, rfl⟩ := escape_of_stringTurn hturn
  exact gapsIn_escapePieces t

theorem gapsIn_substitution (hembed : ∀ s, GapsIn form (embed s)) (s : List Char) :
    GapsIn form (substitution embed s) := by
  have hopening : GapsIn form [.token Kind.symPunc (s.take 2)] := Piece.gapsIn_token _ _
  unfold substitution
  simp only
  split_ifs
  · exact Piece.gapsIn_append.2 ⟨hopening, hembed _⟩
  · exact Piece.gapsIn_append.2
      ⟨hopening, Piece.gapsIn_append.2 ⟨hembed _, Piece.gapsIn_token _ _⟩⟩

theorem gapsIn_template (hembed : ∀ s, GapsIn form (embed s)) : (template embed).GapsIn form := by
  intro s ps h
  refine Construct.gapsIn_parts ?_ s ps (parts_of_template h).2
  intro t qs hturn
  rcases aside_of_templateTurn hturn with ⟨-, -, rfl⟩ | ⟨-, rfl⟩
  · exact gapsIn_escapePieces t
  · exact gapsIn_substitution hembed t

theorem gapsIn_number : number.GapsIn form := by
  intro s ps h
  unfold number at h
  simp only at h
  split_ifs at h <;> obtain rfl := Option.some.inj h
  · exact Piece.gapsIn_token _ _
  · simp

variable [Text.IdentifierClasses]

/-- In a strict script nothing is an element. -/
theorem gapsIn_operand (hembed : ∀ s, GapsIn form (embed s)) (expression : Bool) :
    (operand embed true expression).GapsIn form := by
  have helement : (Construct.onlyIf (expression && !true) (element embed)).GapsIn form := by
    intro s ps h
    have hallowed := (Construct.onlyIf_eq_some.1 h).1
    simp at hallowed
  apply Construct.gapsIn_firstOf
  simp only [List.forall_mem_cons]
  exact ⟨gapsIn_string, gapsIn_template hembed, gapsIn_number,
    Construct.gapsIn_onlyIf (Construct.gapsIn_measured _ _), helement,
    Construct.gapsIn_measured _ _, List.forall_mem_nil _⟩

/-- The gaps of a strict script are white space, or those of the code in it. -/
theorem gapsIn_item (hform : ∀ text, (∀ c ∈ text, isSpace c) → form text)
    (hembed : ∀ s, GapsIn form (embed s)) {position next : Position} {s : List Char}
    {ps : List (Piece Kind)} (h : item embed true position s = some (ps, next)) :
    GapsIn form ps := by
  rcases item_eq_some h with hspace | hcomment | hoperand | ⟨kind, -, rfl⟩ | ⟨op, -, rfl⟩ | hjunk
  · exact Construct.gapsIn_skipSome (fun _ ↦ hform _ Text.forall_mem_take_spanLength) s ps hspace
  · exact gapsIn_comment s ps hcomment
  · exact gapsIn_operand hembed _ s ps hoperand
  · exact Piece.gapsIn_token _ _
  · exact Piece.gapsIn_token _ _
  · exact Construct.gapsIn_measured _ _ s ps hjunk

/-- The gaps that an outline has of its own are there with any reader, also one without gaps. -/
theorem form_of_own_gap (hform : ∀ text, (∀ c ∈ text, isSpace c) → form text) {s : List Char} :
    ∀ text, .own (.gap text) ∈ outline true s → form text := by
  intro text hmem
  let shown : Reader := Piece.shown .error
  have hrun : GapsIn form (run (item shown true) {} s) :=
    gapsIn_run (fun _ _ _ _ ↦ gapsIn_item hform (Piece.gapsIn_shown .error)) {} s
  rw [run_item_eq (Piece.covers_shown .error)] at hrun
  apply hrun text
  rw [fill, List.mem_flatMap]
  exact ⟨_, hmem, List.mem_singleton_self _⟩

omit [Text.IdentifierClasses] in
/-- An outline has the gaps of its own stretches and of the code that fills it. -/
theorem gapsIn_fill {outline : List Stretch} (hown : ∀ text, .own (.gap text) ∈ outline → form text)
    (begin : Nat) (hcode : ∀ code ∈ codesIn begin outline, GapsIn form (embed code.text)) :
    GapsIn form (fill embed outline) := by
  induction outline generalizing begin with
  | nil => exact Piece.gapsIn_nil
  | cons stretch outline ih =>
    have hrest := ih fun text hmem ↦ hown text (List.mem_cons_of_mem _ hmem)
    rw [fill_cons, Piece.gapsIn_append]
    cases stretch with
    | own piece =>
      refine ⟨?_, hrest _ hcode⟩
      intro text hmem
      obtain rfl := List.mem_singleton.1 hmem
      exact hown text List.mem_cons_self
    | code text =>
      rw [codesIn, List.forall_mem_cons] at hcode
      exact ⟨hcode.1, hrest _ hcode.2⟩

/-- Where no code stands too deep, only white space is passed over. -/
theorem gapsIn_scanLevels (hform : ∀ text, (∀ c ∈ text, isSpace c) → form text) {levels begin : Nat}
    {s : List Char} (h : codesAt true levels begin s = []) :
    GapsIn form (scanLevels true levels s) := by
  induction levels generalizing begin s with
  | zero => simp [codesAt] at h
  | succ levels ih =>
    rw [codesAt, List.flatMap_eq_nil_iff] at h
    rw [scanLevels_succ]
    exact gapsIn_fill (form_of_own_gap hform) begin fun code hcode ↦ ih (h code hcode)

theorem gapsIn_scan {source : List Char} (h : codesBelow true levelLimit 0 source = []) :
    GapsIn (fun text ↦ ∀ c ∈ text, isSpace c) (scan true source) :=
  Piece.gapsIn_append.2 ⟨Piece.gapsIn_framed _ _ _ _ _, gapsIn_scanLevels (fun _ ↦ id) h⟩

end JavaScript

/-- Where no substitution stands more than 256 scripts deep in a strict script, every byte of its
source lies in exactly one token, or in none and belongs to a character that is white space. -/
theorem highlight_javaScript_losesNothing [Text.IdentifierClasses]
    (coalescing : Bool) {source : List Char} (sink : Sink)
    (hdepth : ∀ level > 256, JavaScript.codesBelow true level 0 source = []) {n : Nat}
    (hn : n < Text.byteLength source) :
    let tokens :=
      (highlight .javaScript { coalescing, strict := true } source sink).1.currentScan.toList
    tokens.countP (·.covers n) = 1 ∨
      tokens.countP (·.covers n) = 0 ∧ ∃ front c rest, source = front ++ c :: rest ∧
        Text.byteLength front ≤ n ∧ n < Text.byteLength front + c.utf8Size ∧
        JavaScript.isSpace c := by
  intro tokens
  have htext := (JavaScript.covers_scan true source).textOf_eq
  have hgaps := JavaScript.gapsIn_scan (hdepth JavaScript.levelLimit (by decide))
  have htokens : tokens = Language.javaScript.tokens { coalescing, strict := true } source :=
    currentScan_highlight .javaScript _ source sink
  rw [htokens, Language.countP_tokens]
  rcases Piece.covered_or_char hgaps (by rwa [htext]) with hcovered | ⟨huncovered, hspace⟩
  · exact .inl (if_pos hcovered)
  · rw [htext] at hspace
    refine .inr ⟨if_neg ?_, hspace⟩
    rw [Language.scan, huncovered]
    exact Bool.false_ne_true

/-- The code in a template that is not closed loses only the blank in it. -/
theorem highlight_javaScript_losesNothing_template :
    let source := "`$\x7b1 2".toList
    let tokens := (highlight .javaScript { strict := true } source .empty).1.currentScan.toList
    tokens.countP (·.covers 4) = 0 ∧ ∃ front c rest, source = front ++ c :: rest ∧
      Text.byteLength front ≤ 4 ∧ 4 < Text.byteLength front + c.utf8Size ∧
      JavaScript.isSpace c := by
  intro source tokens
  have htwo : JavaScript.codesBelow true 2 0 source = [] := by decide +kernel
  have hdepth : ∀ level > 256, JavaScript.codesBelow true level 0 source = [] :=
    fun _ hlevel ↦ JavaScript.codesBelow_eq_nil htwo (by omega)
  exact (highlight_javaScript_losesNothing false .empty hdepth (by decide)).resolve_left
    (by decide +kernel)

end Highlight
