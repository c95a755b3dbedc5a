import Highlight.Proofs.CFamily.Coverage
import Highlight.Proofs.CFamily.Steady
import Highlight.Text.Unicode

/-!
# Scanning on behind the end of a line

Behind the end of a line a scan of C or C++ goes on as it would begin, unless a token or a line
splice takes the line end in. An item in front of the line end is read alike where the text is cut
off behind that, since an item looks no further than it reaches. So a scan comes to the line end as
the scan of the text up to there does. The item that reaches it shows nothing of it: it is a run of
white space, which may be divided anywhere, and behind a line end a line begins.
-/

namespace Highlight

open Piece (textOf tokens width)

namespace CFamily

variable {dialect : Dialect} {strict : Bool}

/-- Text that is passed over, if there is any. -/
def passed (next : Bool) (text : List Char) : Option (List (Piece Kind) × Bool) :=
  if text.isEmpty then none else some ([.gap text], next)

def itemWidth (found : Option (List (Piece Kind) × Bool)) : Nat := found.elim 0 (width ·.1)

theorem itemWidth_passed (next : Bool) (text : List Char) :
    itemWidth (passed next text) = text.length := by
  cases text <;> simp [passed, itemWidth, Piece.text]

theorem itemWidth_map (next : Bool) (found : Option (List (Piece Kind))) :
    itemWidth (found.map (·, next)) = Construct.foundWidth found := by
  cases found <;> rfl

section

variable [Text.IdentifierClasses]

theorem item_eq (dialect : Dialect) (strict atLineStart : Bool) (s : List Char) :
    item dialect strict atLineStart s =
      (passed (atLineStart || (s.takeWhile isSpace).any isLineEnd) (s.takeWhile isSpace)).or (
        (passed atLineStart (s.take (spliceLength s))).or (
          ((comment s).map (·, atLineStart)).or (
            (code dialect strict atLineStart s).map (·, false)))) := by
  have hsplice : (s.take (spliceLength s)).isEmpty ↔ spliceLength s = 0 := by
    rw [List.isEmpty_iff, ← List.length_eq_zero_iff, List.length_take,
      Nat.min_eq_left (spliceLength_le s)]
  unfold item passed
  simp only [hsplice]
  cases (s.takeWhile isSpace).isEmpty <;> cases comment s <;> split_ifs <;> simp_all

/-- An item looks no further than it reaches. -/
theorem steady_item (dialect : Dialect) (strict atLineStart : Bool) :
    Text.Steady itemWidth (item dialect strict atLineStart) := by
  rw [show item dialect strict atLineStart = _ from funext (item_eq dialect strict atLineStart)]
  have hspaces : Text.Steady itemWidth fun s ↦
      passed (atLineStart || (s.takeWhile isSpace).any isLineEnd) (s.takeWhile isSpace) :=
    (Text.steady_takeWhile isSpace).map (fun spaces ↦
      passed (atLineStart || spaces.any isLineEnd) spaces) fun _ ↦ itemWidth_passed _ _
  have hsplice : Text.Steady itemWidth fun s ↦ passed atLineStart (s.take (spliceLength s)) :=
    (steady_spliceLength.taken spliceLength_le).map (passed atLineStart) (itemWidth_passed _)
  have hcomment : Text.Steady itemWidth fun s ↦ (comment s).map (·, atLineStart) :=
    Text.Steady.map steady_comment _ (itemWidth_map atLineStart)
  have hcode : Text.Steady itemWidth fun s ↦
      (code dialect strict atLineStart s).map (·, false) :=
    Text.Steady.map (steady_code dialect strict atLineStart) _ (itemWidth_map false)
  exact hspaces.or (hsplice.or (hcomment.or hcode))

/-- An item that ends before the cut is read alike in front of it, and what is read behind the item
is cut off at the same place. -/
theorem run_item_append {atLineStart next : Bool} {u r : List Char} {ps : List (Piece Kind)}
    (h : item dialect strict atLineStart (u ++ r) = some (ps, next)) (hpos : 0 < width ps)
    (hle : width ps ≤ u.length) :
    run (item dialect strict) atLineStart u =
      ps ++ run (item dialect strict) next (u.drop (width ps)) := by
  have hfront := steady_item dialect strict atLineStart u r (by rw [h]; exact hle)
  exact run_of_some (hfront.trans h) (List.ne_nil_of_length_pos (hpos.trans_le hle))
    (Nat.ne_of_gt hpos)

/-- White space leaves no tokens, and behind a line end in it a line begins. -/
theorem tokens_run_spaces {spaces s : List Char} (hspaces : ∀ c ∈ spaces, isSpace c)
    (hs : Text.startsIn isSpace s = false) (begin : Nat) (atLineStart : Bool) :
    tokens begin (run (item dialect strict) atLineStart (spaces ++ s)) =
      tokens (begin + Text.byteLength spaces)
        (run (item dialect strict) (atLineStart || spaces.any isLineEnd) s) := by
  cases spaces with
  | nil => simp
  | cons c spaces =>
    have htake : (c :: spaces ++ s).takeWhile isSpace = c :: spaces := by
      rw [← Text.take_spanLength, Text.spanLength_append_iff.2 ⟨hspaces, hs⟩, List.take_left]
    have hitem : item dialect strict atLineStart (c :: spaces ++ s) =
        some ([.gap (c :: spaces)], atLineStart || (c :: spaces).any isLineEnd) := by
      rw [item_eq, htake]
      rfl
    have hwidth : width [(.gap (c :: spaces) : Piece Kind)] = (c :: spaces).length := by
      simp [Piece.text]
    rw [run_of_some hitem (List.cons_ne_nil c _) (by rw [hwidth]; exact Nat.succ_ne_zero _),
      hwidth, List.drop_left]
    rfl

end

/-! ## Line ends -/

/-- The ways in which lines are spliced. -/
def splices : List String := ["\\\r\n", "\\\n", "\\\r"]

theorem exists_splice {s : List Char} (h : spliceLength s ≠ 0) :
    ∃ splice ∈ splices, splice.toList <+: s ∧ spliceLength s = splice.toList.length := by
  unfold spliceLength at h ⊢
  split_ifs at h ⊢ with hlong hshort
  · exact ⟨_, List.mem_cons_self, Text.startsWith_iff.1 hlong, rfl⟩
  · rw [Bool.or_eq_true, Text.startsWith_iff, Text.startsWith_iff] at hshort
    rcases hshort with hshort | hshort
    · exact ⟨_, List.mem_cons_of_mem _ List.mem_cons_self, hshort, rfl⟩
    · exact ⟨_, List.mem_cons_of_mem _ (List.mem_cons_of_mem _ List.mem_cons_self), hshort, rfl⟩
  · exact absurd rfl h

theorem not_isLineEnd_of_isBlank {c : Char} (h : isBlank c) : ¬ isLineEnd c := by
  simp only [isBlank, Bool.or_eq_true, beq_iff_eq] at h
  rcases h with ((rfl | rfl) | rfl) | rfl <;> decide

/-- No token covers the line end between the texts, of which the front one begins at the given byte,
and some token covers the backslash of every splice that the line end belongs to. -/
structure Restarts (tokens : List Token) (begin : Nat) (front : List Char) (lineEnd : Char)
    (rest : List Char) : Prop where
  uncovered : ∀ token ∈ tokens, ¬ token.covers (begin + Text.byteLength front)
  unspliced : ∀ splice ∈ splices, ∀ before inside more,
    splice.toList = inside ++ lineEnd :: more → front = before ++ inside → more <+: rest →
      ∃ token ∈ tokens, token.covers (begin + Text.byteLength before)

variable {begin : Nat} {front rest : List Char} {lineEnd : Char}

/-- A line end that lies behind the first pieces is where it is for the others as well. -/
theorem Restarts.behind {ps qs : List (Piece Kind)}
    (h : Restarts (tokens begin (ps ++ qs)) begin (textOf ps ++ front) lineEnd rest) :
    Restarts (tokens (begin + Text.byteLength (textOf ps)) qs)
      (begin + Text.byteLength (textOf ps)) front lineEnd rest where
  uncovered token hmem := by
    have huncovered := h.uncovered token (by
      rw [Piece.tokens_append]
      exact List.mem_append_right _ hmem)
    rwa [Text.byteLength_append, ← Nat.add_assoc] at huncovered
  unspliced splice hsplice before inside more hform hfront hmore := by
    obtain ⟨token, hmem, hcovers⟩ := h.unspliced splice hsplice (textOf ps ++ before) inside more
      hform (by rw [hfront, List.append_assoc]) hmore
    rw [Text.byteLength_append, ← Nat.add_assoc] at hcovers
    refine ⟨token, ?_, hcovers⟩
    rw [Piece.tokens_append, List.mem_append] at hmem
    refine hmem.resolve_left fun hearlier ↦ ?_
    have hbounds := Piece.bounds_of_mem_tokens hearlier
    rw [Token.covers_iff] at hcovers
    omega

section

variable [Text.IdentifierClasses]

/-- An item that takes in a line end of which no token shows anything is white space. -/
theorem spaces_of_restarts {atLineStart next : Bool} {ps qs : List (Piece Kind)}
    (hend : isLineEnd lineEnd)
    (h : item dialect strict atLineStart (front ++ lineEnd :: rest) = some (ps, next))
    (hwidth : front.length < width ps)
    (hrestarts : Restarts (tokens begin (ps ++ qs)) begin front lineEnd rest) :
    ∀ c ∈ front, isSpace c := by
  have htext := (fits_item dialect strict _ _ _ _ h).textOf_eq_take
  rcases item_passes h with rfl | rfl | hblanks
  · intro c hc
    rw [Piece.width_cons, Piece.width_nil, Nat.add_zero, Piece.text] at hwidth
    have hfront := List.prefix_of_prefix_length_le (List.prefix_append front (lineEnd :: rest))
      (List.takeWhile_prefix isSpace) (Nat.le_of_lt hwidth)
    exact Text.forall_mem_takeWhile c (hfront.subset hc)
  · -- The backslash is passed over with the rest of the splice, though a token should cover it.
    have hlong : front.length < spliceLength (front ++ lineEnd :: rest) := by
      rw [Piece.width_cons, Piece.width_nil, Nat.add_zero, Piece.text, List.length_take] at hwidth
      omega
    obtain ⟨splice, hsplice, hstart, hlength⟩ :=
      exists_splice (Nat.ne_of_gt (Nat.zero_lt_of_lt hlong))
    obtain ⟨more, hform, hmore⟩ := Text.exists_of_prefix_append_cons hstart (hlength ▸ hlong)
    obtain ⟨token, hmem, hcovers⟩ :=
      hrestarts.unspliced splice hsplice [] front more hform rfl hmore
    have hbounds := Piece.bounds_of_mem_tokens (Piece.tokens_gap begin _ qs ▸ hmem)
    have hpos : 0 < Text.byteLength
        ((front ++ lineEnd :: rest).take (spliceLength (front ++ lineEnd :: rest))) := by
      rw [hlength, ← List.prefix_iff_eq_take.1 hstart, hform, Text.byteLength_append,
        Text.byteLength_cons]
      have hpos := lineEnd.utf8Size_pos
      omega
    rw [Token.covers_iff, Text.byteLength_nil] at hcovers
    omega
  · obtain ⟨n, hn⟩ := Nat.exists_eq_add_of_lt hwidth
    have hmore : textOf ps = front ++ lineEnd :: rest.take n := by
      rw [htext, hn, Nat.add_assoc, List.take_length_add_append, List.take_succ_cons]
    have huncovered : ∀ token ∈ tokens begin ps,
        ¬ token.covers (begin + Text.byteLength front) := by
      intro token hmem
      apply hrestarts.uncovered token
      rw [Piece.tokens_append]
      exact List.mem_append_left _ hmem
    have hblank : isBlank lineEnd := Piece.char_of_uncovered hblanks hmore huncovered
    exact absurd hend (not_isLineEnd_of_isBlank hblank)

/-- White space may be divided behind a line end. -/
theorem tokens_run_divided (hend : isLineEnd lineEnd) (hfront : ∀ c ∈ front, isSpace c)
    (begin : Nat) (atLineStart : Bool) :
    tokens begin (run (item dialect strict) atLineStart (front ++ lineEnd :: rest)) =
      tokens begin (run (item dialect strict) atLineStart (front ++ [lineEnd])) ++
        tokens (begin + Text.byteLength (front ++ [lineEnd]))
          (run (item dialect strict) true rest) := by
  have hspaces : ∀ c ∈ front ++ [lineEnd], isSpace c := by
    rw [List.forall_mem_append, List.forall_mem_singleton, isSpace, hend, Bool.or_true]
    exact ⟨hfront, rfl⟩
  have hany (spaces : List Char) :
      (atLineStart || (front ++ [lineEnd] ++ spaces).any isLineEnd) = true := by
    simp [hend]
  obtain ⟨spaces, s, rfl, hmore, hs⟩ := Text.exists_run isSpace rest
  have hnone : tokens begin (run (item dialect strict) atLineStart (front ++ [lineEnd])) = [] := by
    rw [← List.append_nil (front ++ [lineEnd]),
      tokens_run_spaces hspaces (Text.startsIn_nil isSpace), run_nil, Piece.tokens_nil]
  calc
    _ = tokens begin (run (item dialect strict) atLineStart
        (front ++ [lineEnd] ++ spaces ++ s)) := by simp
    _ = tokens (begin + Text.byteLength (front ++ [lineEnd] ++ spaces))
        (run (item dialect strict) true s) := by
      rw [tokens_run_spaces (List.forall_mem_append.2 ⟨hspaces, hmore⟩) hs, hany]
    _ = tokens (begin + Text.byteLength (front ++ [lineEnd]))
        (run (item dialect strict) true (spaces ++ s)) := by
      rw [tokens_run_spaces hmore hs, Bool.true_or, Text.byteLength_append _ spaces, Nat.add_assoc]
    _ = _ := by rw [hnone, List.nil_append]

/-- A scan that comes to a line end goes on behind it as it would begin there. -/
theorem tokens_run_restarts (hend : isLineEnd lineEnd) (atLineStart : Bool)
    (h : Restarts (tokens begin (run (item dialect strict) atLineStart (front ++ lineEnd :: rest)))
      begin front lineEnd rest) :
    tokens begin (run (item dialect strict) atLineStart (front ++ lineEnd :: rest)) =
      tokens begin (run (item dialect strict) atLineStart (front ++ [lineEnd])) ++
        tokens (begin + Text.byteLength (front ++ [lineEnd]))
          (run (item dialect strict) true rest) := by
  refine run_induction (motive := fun atLineStart s ps ↦ ∀ begin front,
    s = front ++ lineEnd :: rest → Restarts (tokens begin ps) begin front lineEnd rest →
      tokens begin ps = tokens begin (run (item dialect strict) atLineStart (front ++ [lineEnd])) ++
        tokens (begin + Text.byteLength (front ++ [lineEnd]))
          (run (item dialect strict) true rest))
    ?_ ?_ ?_ atLineStart (front ++ lineEnd :: rest) begin front rfl h
  · rintro atLineStart s hends begin front rfl
    obtain ⟨c, t, hs⟩ := List.exists_cons_of_ne_nil
      (List.append_ne_nil_of_right_ne_nil front (List.cons_ne_nil lineEnd rest))
    rw [hs] at hends
    have hsome := isSome_item dialect strict atLineStart c t
    rw [hends.resolve_left (List.cons_ne_nil c t)] at hsome
    exact Bool.noConfusion hsome
  · intro atLineStart s ps next hs hitem hwidth
    exact absurd hwidth (Nat.ne_of_gt (advances_item dialect strict _ _ _ _ hs hitem))
  · rintro atLineStart s ps next hs hitem hind begin front rfl hrestarts
    have hpos := advances_item dialect strict _ _ _ _ hs hitem
    rcases Nat.lt_or_ge front.length (width ps) with hin | hbefore
    · rw [← run_of_some hitem hs (Nat.ne_of_gt hpos)]
      exact tokens_run_divided hend (spaces_of_restarts hend hitem hin hrestarts) begin atLineStart
    · have hwhole : front ++ lineEnd :: rest = front ++ [lineEnd] ++ rest := by simp
      have htext := (fits_item dialect strict _ _ _ _ hitem).textOf_eq_take
      rw [List.take_append_of_le_length hbefore] at htext
      have hfront : front = textOf ps ++ front.drop (width ps) := by
        rw [htext, List.take_append_drop]
      rw [Text.drop_append hbefore] at hind hrestarts ⊢
      rw [hwhole] at hitem
      rw [run_item_append hitem hpos (by rw [List.length_append]; omega),
        Text.drop_append hbefore]
      generalize front.drop (width ps) = behind at *
      subst hfront
      rw [Piece.tokens_append, Piece.tokens_append, List.append_assoc,
        hind _ behind rfl hrestarts.behind]
      simp only [List.append_assoc, Text.byteLength_append, Nat.add_assoc]

end

/-- The line end between the texts belongs to a line splice of which no token covers the
backslash. -/
def IsSpliced (tokens : List Token) (front : List Char) (lineEnd : Char) (rest : List Char) :
    Prop :=
  ∃ splice ∈ splices, ∃ before inside more, splice.toList = inside ++ lineEnd :: more ∧
    front = before ++ inside ∧ more <+: rest ∧
      tokens.countP (·.covers (Text.byteLength before)) = 0

theorem backslash_mem_of_isSpliced {tokens : List Token} (hend : isLineEnd lineEnd)
    (h : IsSpliced tokens front lineEnd rest) : '\\' ∈ front := by
  obtain ⟨splice, hsplice, before, inside, more, hform, rfl, -, -⟩ := h
  have hfirst : ∀ splice ∈ splices, splice.toList.head? = some '\\' := by decide
  have hhead := hfirst splice hsplice
  rw [hform] at hhead
  cases inside with
  | nil =>
    obtain rfl := Option.some.inj hhead
    exact absurd hend (by decide)
  | cons c inside =>
    obtain rfl := Option.some.inj hhead
    simp

theorem Restarts.of_not_isSpliced {tokens : List Token}
    (huncovered : tokens.countP (·.covers (Text.byteLength front)) = 0)
    (hspliced : ¬ IsSpliced tokens front lineEnd rest) :
    Restarts tokens 0 front lineEnd rest where
  uncovered := by
    rw [Nat.zero_add]
    exact List.countP_eq_zero.1 huncovered
  unspliced splice hsplice before inside more hform hfront hmore := by
    rw [Nat.zero_add]
    by_contra hnone
    refine hspliced ⟨splice, hsplice, before, inside, more, hform, hfront, hmore, ?_⟩
    rw [List.countP_eq_zero]
    exact fun token hmem hcovers ↦ hnone ⟨token, hmem, hcovers⟩

end CFamily

/-- A scan of C or C++ can be begun again behind every line end that lies in no token and in no line
splice: the tokens are those of the text up to there and those of the rest, shifted. -/
theorem highlight_restarts [Text.IdentifierClasses]
    {language : Language} (hlanguage : language ∈ [.c, .cpp]) (strict : Bool)
    (sink : Sink) {front rest : List Char} {lineEnd : Char}
    (hend : lineEnd = '\n' ∨ lineEnd = '\r') :
    let tokens source :=
      (highlight language { coalescing := false, strict } source sink).1.currentScan.toList
    let source := front ++ lineEnd :: rest
    (tokens source).countP (·.covers (Text.byteLength front)) = 0 →
      ¬ CFamily.IsSpliced (tokens source) front lineEnd rest →
        tokens source = tokens (front ++ [lineEnd]) ++
          (tokens rest).map (Token.shift (Text.byteLength (front ++ [lineEnd]))) := by
  intro tokens source huncovered hspliced
  obtain ⟨dialect, hscan⟩ := exists_dialect hlanguage
  have htokens (s : List Char) : tokens s = Piece.tokens 0 (CFamily.scan dialect strict s) := by
    rw [← hscan, ← currentScan_highlight_plain language strict s sink]
  have hlineEnd : CFamily.isLineEnd lineEnd := by simpa [CFamily.isLineEnd] using hend
  have hrestarts := CFamily.Restarts.of_not_isSpliced huncovered hspliced
  rw [htokens] at hrestarts
  rw [htokens, htokens, htokens, ← Piece.tokens_add, Nat.add_zero]
  have hcut := CFamily.tokens_run_restarts hlineEnd true hrestarts
  rwa [Nat.zero_add] at hcut

/-- A hash sign on a new line begins a directive in either scan. -/
theorem highlight_restarts_directive :
    let tokens source :=
      (highlight .c { coalescing := false, strict := false } source .empty).1.currentScan.toList
    let front := "/**/".toList
    let rest := "#".toList
    tokens (front ++ '\n' :: rest) = tokens (front ++ ['\n']) ++
        (tokens rest).map (Token.shift (Text.byteLength (front ++ ['\n']))) ∧
      tokens (front ++ '\n' :: rest) =
        [⟨0, 2, .commentDelimiter⟩, ⟨2, 2, .commentDelimiter⟩, ⟨5, 1, .directive⟩] :=
  ⟨@highlight_restarts _ .c (by decide) false .empty "/**/".toList "#".toList '\n' (.inl rfl)
    (by decide +kernel)
    fun hspliced ↦ absurd (CFamily.backslash_mem_of_isSpliced (by decide) hspliced) (by decide),
    by decide +kernel⟩

end Highlight
