import Mathlib.Order.Bounds.Defs
import Highlight.Proofs.CFamily.Kinds
import Highlight.Proofs.CFamily.Restart
import Highlight.Text.Unicode

/-!
# Where directives begin in C and C++

One bit is all that a scan keeps of the line it is in: whether anything but comments and white space
has been found on it. The bit is settled by the tokens. A line begins with the source and behind a
line end that is in no token and in no line splice, and the bit stands for a line on which no token
but those of comments has begun. What white space passes over begins lines. A line end in a comment
or in code lies in a token, and one in a splice begins no line, since the splice that a scan finds
reaches as far as any that could be read there.
-/

namespace Highlight

open Piece (GapsIn textOf tokens width)

namespace CFamily

variable {dialect : Dialect} {strict atLineStart next : Bool} {all : List Token}
  {source front s t rest : List Char} {ps : List (Piece Kind)}

/-- From the one byte up to the other no token is shown but those of comments. -/
def CommentsOnly (tokens : List Token) (begin stop : Nat) : Prop :=
  ∀ n, begin ≤ n → n < stop → ∀ token ∈ tokens, token.covers n → token.kind ∈ commentKinds

/-- A line begins at the byte, which is that behind a line end that lies in no token and in no line
splice, or the first of the source. -/
def LineStarts (source : List Char) (tokens : List Token) (n : Nat) : Prop :=
  n = 0 ∨ ∃ front lineEnd rest, source = front ++ lineEnd :: rest ∧
    (lineEnd = '\n' ∨ lineEnd = '\r') ∧ n = Text.byteLength (front ++ [lineEnd]) ∧
      tokens.countP (·.covers (Text.byteLength front)) = 0 ∧ ¬ IsSpliced tokens front lineEnd rest

/-- The beginning of the line that the byte is in. -/
def IsLineStart (source : List Char) (tokens : List Token) (stop start : Nat) : Prop :=
  IsGreatest {n | n ≤ stop ∧ LineStarts source tokens n} start

theorem CommentsOnly.append_iff {begin middle stop : Nat} (hbegin : begin ≤ middle)
    (hstop : middle ≤ stop) :
    CommentsOnly all begin stop ↔ CommentsOnly all begin middle ∧ CommentsOnly all middle stop := by
  constructor
  · intro h
    exact ⟨fun n hn hlt ↦ h n hn (hlt.trans_le hstop), fun n hn hlt ↦ h n (hbegin.trans hn) hlt⟩
  · rintro ⟨hfront, hback⟩ n hn hlt
    rcases Nat.lt_or_ge n middle with hbefore | hbehind
    · exact hfront n hn hbefore
    · exact hback n hbehind hlt

/-- A line goes on as long as none begins. -/
theorem IsLineStart.mono {stop last start : Nat} (h : IsLineStart source all stop start)
    (hle : stop ≤ last) (hnone : ∀ n, stop < n → n ≤ last → ¬ LineStarts source all n) :
    IsLineStart source all last start := by
  refine ⟨⟨h.1.1.trans hle, h.1.2⟩, fun n hn ↦ ?_⟩
  rcases Nat.lt_or_ge stop n with hlater | hearlier
  · exact absurd hn.2 (hnone n hlater hn.1)
  · exact h.2 ⟨hearlier, hn.2⟩

/-- No splice whose backslash is in no token begins in front of the place and reaches behind it. -/
def Unsplit (tokens : List Token) (front rest : List Char) : Prop :=
  ∀ splice ∈ splices, ∀ before inside more, splice.toList = inside ++ more → inside ≠ [] →
    more ≠ [] → front = before ++ inside → more <+: rest →
      ∃ token ∈ tokens, token.covers (Text.byteLength before)

/-- What a scan knows of its line at a place. -/
structure KnowsLine (tokens : List Token) (front rest : List Char) (atLineStart : Bool) : Prop where
  unsplit : Unsplit tokens front rest
  line : ∃ start, IsLineStart (front ++ rest) tokens (Text.byteLength front) start ∧
    (atLineStart ↔ CommentsOnly tokens start (Text.byteLength front))

theorem knowsLine_nil (tokens : List Token) (source : List Char) :
    KnowsLine tokens [] source true where
  unsplit splice _ before inside more _ hinside _ hfront _ := by
    have hnil := (List.append_eq_nil_iff.1 hfront.symm).2
    exact absurd hnil hinside
  line := by
    refine ⟨0, ⟨⟨Nat.le_refl 0, .inl rfl⟩, fun n hn ↦ hn.1⟩, ?_⟩
    simp [CommentsOnly]

/-- A line that begins behind a place and not behind the end of the text that follows it begins
behind a line end of that text. -/
theorem exists_of_lineStarts {n : Nat} (h : LineStarts (front ++ (t ++ rest)) all n)
    (hbegin : Text.byteLength front < n) (hstop : n ≤ Text.byteLength (front ++ t)) :
    ∃ inside lineEnd more, t = inside ++ lineEnd :: more ∧ isLineEnd lineEnd ∧
      n = Text.byteLength (front ++ inside ++ [lineEnd]) ∧
      (∀ token ∈ all, ¬ token.covers (Text.byteLength (front ++ inside))) ∧
      ¬ IsSpliced all (front ++ inside) lineEnd (more ++ rest) := by
  rcases h with rfl | ⟨before, lineEnd, behind, hsource, hend, rfl, huncovered, hspliced⟩
  · exact absurd hbegin (Nat.not_lt_zero _)
  · have hpos := lineEnd.utf8Size_pos
    rw [Text.byteLength_append, Text.byteLength_cons] at hbegin hstop
    rcases append_eq_append_cons hsource with ⟨back, rfl, -⟩ | ⟨inside, rfl, hinside⟩
    · rw [Text.byteLength_append, Text.byteLength_cons] at hbegin
      simp only [Text.byteLength_nil] at hbegin
      omega
    · rcases append_eq_append_cons hinside with ⟨more, rfl, rfl⟩ | ⟨back, rfl, -⟩
      · refine ⟨inside, lineEnd, more, rfl, ?_, rfl, List.countP_eq_zero.1 huncovered, hspliced⟩
        simpa [isLineEnd] using hend
      · simp only [Text.byteLength_append] at hstop
        omega

/-- A splice begins with its backslash and has no other. -/
theorem exists_of_splice {splice : String} {inside more : List Char} (h : splice ∈ splices)
    (hsplice : splice.toList = inside ++ more) (hinside : inside ≠ []) :
    ∃ tail, inside = '\\' :: tail ∧ '\\' ∉ tail ++ more := by
  obtain ⟨c, tail, rfl⟩ := List.exists_cons_of_ne_nil hinside
  have hforms : ∀ splice ∈ splices,
      splice.toList.head? = some '\\' ∧ '\\' ∉ splice.toList.tail := by
    decide
  obtain ⟨hhead, htail⟩ := hforms splice h
  rw [hsplice] at hhead htail
  exact ⟨tail, by rw [Option.some.inj hhead], htail⟩

theorem ne_nil_of_splice {splice : String} {inside more : List Char} {lineEnd : Char}
    (h : splice ∈ splices) (hsplice : splice.toList = inside ++ lineEnd :: more)
    (hend : isLineEnd lineEnd) : inside ≠ [] := by
  rintro rfl
  have hfront : splice.toList = [lineEnd] ++ more := hsplice
  obtain ⟨tail, htail, -⟩ := exists_of_splice h hfront (List.cons_ne_nil _ _)
  rw [(List.cons.inj htail).1] at hend
  exact absurd hend (by decide)

/-- The splice that is found is the longest. -/
theorem length_le_spliceLength {splice : String} (h : splice ∈ splices)
    (hstart : splice.toList <+: s) : splice.toList.length ≤ spliceLength s := by
  have hlong : ∀ splice ∈ splices, splice.toList.length ≤ 3 := by decide
  have hshort : ∀ splice ∈ splices, splice = "\\\r\n" ∨
      splice.toList.length = 2 ∧ (splice = "\\\n" ∨ splice = "\\\r") := by
    decide
  rw [← Text.startsWith_iff] at hstart
  unfold spliceLength
  split_ifs with hthree htwo
  · exact hlong splice h
  · rcases hshort splice h with rfl | ⟨hlength, -⟩
    · exact absurd hstart hthree
    · exact Nat.le_of_eq hlength
  · rw [Bool.or_eq_true, not_or] at htwo
    rcases hshort splice h with rfl | ⟨-, rfl | rfl⟩
    · exact absurd hstart hthree
    · exact absurd hstart htwo.1
    · exact absurd hstart htwo.2

/-- What is found of a splice is no front part of a longer one. -/
theorem eq_nil_of_splice {splice : String} {b inside more : List Char} (h : splice ∈ splices)
    (hsplice : splice.toList = inside ++ more) (hinside : inside ≠ [])
    (hfound : s.take (spliceLength s) = b ++ inside) (hzero : spliceLength s ≠ 0)
    (hmore : more <+: s.drop (spliceLength s)) : more = [] := by
  obtain ⟨found, hmem, hstart, hlength⟩ := exists_splice hzero
  have htake : found.toList = b ++ inside := by
    rw [← hfound, hlength]
    exact List.prefix_iff_eq_take.1 hstart
  obtain ⟨tail, rfl, -⟩ := exists_of_splice h hsplice hinside
  cases b with
  | nil =>
    rw [List.nil_append] at hfound htake
    have hprefix : splice.toList <+: s := by
      have hboth := (List.prefix_append_right_inj (s.take (spliceLength s))).2 hmore
      rwa [List.take_append_drop, hfound, ← hsplice] at hboth
    have hle := length_le_spliceLength h hprefix
    rw [hlength, htake, hsplice, List.length_append] at hle
    exact List.length_eq_zero_iff.1 (by omega)
  | cons c b =>
    obtain ⟨others, -, honce⟩ := exists_of_splice hmem htake (List.cons_ne_nil c b)
    exact absurd (List.mem_append_right others List.mem_cons_self) honce

/-- A line end in white space belongs to no splice of which no token covers the backslash. -/
theorem not_isSpliced_of_spaces {v w : List Char} {lineEnd : Char} (hunsplit : Unsplit all front s)
    (hs : s = v ++ lineEnd :: (w ++ rest)) (hv : ∀ c ∈ v, isSpace c) (hend : isLineEnd lineEnd) :
    ¬ IsSpliced all (front ++ v) lineEnd (w ++ rest) := by
  rintro ⟨splice, hsplice, before, inside, more, hform, hfront, hmore, huncovered⟩
  have hinside := ne_nil_of_splice hsplice hform hend
  obtain ⟨tail, htail, -⟩ := exists_of_splice hsplice hform hinside
  have hnotSpace : '\\' ∉ v := fun hmem ↦ absurd (hv '\\' hmem) (by decide)
  rcases List.append_eq_append_iff.1 hfront with ⟨b, -, hb⟩ | ⟨i, rfl, hi⟩
  · apply hnotSpace
    rw [hb, htail]
    simp
  · cases i with
    | nil =>
      apply hnotSpace
      rw [← List.nil_append v, ← hi, htail]
      exact List.mem_cons_self
    | cons c i =>
      obtain ⟨token, hmem, hcovers⟩ := hunsplit splice hsplice before (c :: i)
        (v ++ lineEnd :: more) (by rw [hform, hi, List.append_assoc]) (List.cons_ne_nil c i)
        (by simp) rfl (by
          rw [hs]
          exact (List.prefix_append_right_inj v).2 (List.cons_prefix_cons.2 ⟨rfl, hmore⟩))
      exact List.countP_eq_zero.1 huncovered token hmem hcovers

/-! ## Items -/

section

variable (hamong : Among all (Text.byteLength front)
    (Text.byteLength front + Text.byteLength (textOf ps)) (tokens (Text.byteLength front) ps))

include hamong

/-- Of the text of an item that has its gaps in one line, no more than blanks are in no token. -/
theorem isBlank_of_uncovered (hblanks : GapsIn IsBlanks ps) {inside more : List Char} {c : Char}
    (htext : textOf ps = inside ++ c :: more)
    (huncovered : ∀ token ∈ all, ¬ token.covers (Text.byteLength (front ++ inside))) :
    isBlank c := by
  obtain ⟨left, right, rfl, -, -⟩ := hamong
  have hinside : ∀ token ∈ tokens (Text.byteLength front) ps,
      ¬ token.covers (Text.byteLength front + Text.byteLength inside) := by
    intro token hmem
    rw [← Text.byteLength_append]
    exact huncovered token (by simp [hmem])
  exact Piece.char_of_uncovered hblanks htext hinside

/-- If the end of an item splits a splice that begins in it, a token covers the backslash. -/
theorem exists_covers_of_split [Text.IdentifierClasses]
    (hitem : item dialect strict atLineStart s = some (ps, next))
    {splice : String} {b inside more : List Char} (hsplice : splice ∈ splices)
    (hform : splice.toList = inside ++ more) (hinside : inside ≠ []) (hmore : more ≠ [])
    (htext : textOf ps = b ++ inside) (hbehind : more <+: s.drop (width ps)) :
    ∃ token ∈ all, token.covers (Text.byteLength (front ++ b)) := by
  obtain ⟨tail, rfl, -⟩ := exists_of_splice hsplice hform hinside
  have hblanks (hgaps : GapsIn IsBlanks ps) :
      ∃ token ∈ all, token.covers (Text.byteLength (front ++ b)) := by
    by_contra hnone
    have hblank := isBlank_of_uncovered hamong hgaps htext fun token hmem hcovers ↦
      hnone ⟨token, hmem, hcovers⟩
    exact absurd hblank (by decide)
  rcases item_cases hitem with ⟨rfl, -⟩ | ⟨rfl, hzero, -⟩ | ⟨hcomment, -⟩ | ⟨hcode, -, -⟩
  · have hspaces : s.takeWhile isSpace = b ++ '\\' :: tail := by simpa [Piece.text] using htext
    have hmem : '\\' ∈ s.takeWhile isSpace := by
      rw [hspaces]
      simp
    exact absurd (Text.forall_mem_takeWhile '\\' hmem) (by decide)
  · have hwidth : width [(.gap (s.take (spliceLength s)) : Piece Kind)] = spliceLength s := by
      rw [Piece.width_cons, Piece.width_nil, Nat.add_zero, Piece.text]
      exact List.length_take_of_le (spliceLength_le s)
    rw [hwidth] at hbehind
    have hfound : s.take (spliceLength s) = b ++ '\\' :: tail := by
      simpa [Piece.text] using htext
    exact absurd (eq_nil_of_splice hsplice hform hinside hfound hzero hbehind) hmore
  · exact hblanks (gapsIn_comment s ps hcomment)
  · exact hblanks (gapsIn_code _ _ _ s ps hcode)

/-- No splice is split where an item ends. -/
theorem Unsplit.step [Text.IdentifierClasses] (h : Unsplit all front s)
    (hitem : item dialect strict atLineStart s = some (ps, next)) :
    Unsplit all (front ++ textOf ps) (s.drop (width ps)) := by
  intro splice hsplice before inside more hform hinside hmore hfront hbehind
  have hsplit := (fits_item dialect strict _ _ _ _ hitem).textOf_append_drop
  rcases List.append_eq_append_iff.1 hfront with ⟨b, rfl, htext⟩ | ⟨i, hi, htext⟩
  · exact exists_covers_of_split hamong hitem hsplice hform hinside hmore htext hbehind
  · cases i with
    | nil =>
      obtain rfl : front = before := by simpa using hi
      have hcovers := exists_covers_of_split hamong hitem hsplice hform hinside hmore
        (b := []) htext.symm hbehind
      rwa [List.append_nil] at hcovers
    | cons c i =>
      -- The splice begins in front of the item, where it is not split by what is known already.
      refine h splice hsplice before (c :: i) (textOf ps ++ more) ?_ (List.cons_ne_nil c i) ?_ hi ?_
      · rw [hform, htext, List.append_assoc]
      · simp [hmore]
      · rw [← hsplit]
        exact (List.prefix_append_right_inj _).2 hbehind

/-- What leaves no token shows nothing but comments. -/
theorem commentsOnly_of_item (h : ∀ entry ∈ Piece.labelled ps, entry.1 ∈ commentKinds) :
    CommentsOnly all (Text.byteLength front) (Text.byteLength (front ++ textOf ps)) := by
  intro n hn hlt token hmem hcovers
  rw [Text.byteLength_append] at hlt
  exact kind_mem_of_mem_tokens h (hamong.mem_of_covers hmem hcovers hn hlt)

/-- Code shows something else than comments from its first character on. -/
theorem not_commentsOnly_of_code [Text.IdentifierClasses] (hspace : Text.startsIn isSpace s = false)
    (hcode : code dialect strict atLineStart s = some ps) :
    ¬ CommentsOnly all (Text.byteLength front) (Text.byteLength (front ++ textOf ps)) := by
  intro honly
  have hpos := advances_code dialect strict atLineStart s ps hcode
  have hsplit := ((fits_code dialect strict atLineStart).read s ps hcode).textOf_append_drop
  obtain ⟨c, more, htext⟩ : ∃ c more, textOf ps = c :: more := by
    apply List.exists_cons_of_ne_nil
    rw [← List.length_pos_iff, Piece.length_textOf]
    exact hpos
  have hsize := c.utf8Size_pos
  have hblank : isBlank c := by
    have hfirst : textOf ps = [] ++ c :: more := htext
    refine isBlank_of_uncovered hamong (gapsIn_code _ _ _ s ps hcode) hfirst ?_
    intro token hmem hcovers
    rw [List.append_nil] at hcovers
    have hcomment := honly _ (Nat.le_refl _) (by
      rw [Text.byteLength_append, htext, Text.byteLength_cons]
      omega) token hmem hcovers
    have hinside := hamong.mem_of_covers hmem hcovers (Nat.le_refl _) (by
      rw [htext, Text.byteLength_cons]
      omega)
    have hkind := kind_mem_of_mem_tokens (showsKinds_code _ _ _ s ps hcode) hinside
    exact (by decide : ∀ kind ∈ codeKinds, kind ∉ commentKinds) _ hkind hcomment
  rw [← hsplit, htext, List.cons_append, Text.startsIn_cons, isSpace, hblank] at hspace
  exact absurd hspace (by simp)

/-- No line begins in an item that has its gaps in one line. -/
theorem not_lineStarts_of_blanks (hblanks : GapsIn IsBlanks ps) {n : Nat}
    (hbegin : Text.byteLength front < n) (hstop : n ≤ Text.byteLength (front ++ textOf ps)) :
    ¬ LineStarts (front ++ (textOf ps ++ rest)) all n := by
  intro h
  obtain ⟨inside, lineEnd, more, htext, hend, -, huncovered, -⟩ :=
    exists_of_lineStarts h hbegin hstop
  exact not_isLineEnd_of_isBlank (isBlank_of_uncovered hamong hblanks htext huncovered) hend

end

/-- No token covers what an item passes over. -/
theorem uncovered_of_gap {n : Nat}
    (hamong : Among all (Text.byteLength front)
      (Text.byteLength front + Text.byteLength (textOf [(.gap t : Piece Kind)]))
      (tokens (Text.byteLength front) [.gap t]))
    (hbegin : Text.byteLength front ≤ n) (hstop : n < Text.byteLength (front ++ t)) :
    ∀ token ∈ all, ¬ token.covers n := by
  intro token hmem hcovers
  have htext : textOf [(.gap t : Piece Kind)] = t := List.append_nil t
  have hinside := hamong.mem_of_covers hmem hcovers hbegin (by
    rwa [htext, ← Text.byteLength_append])
  simp at hinside

theorem exists_last_of_any {α : Type} {p : α → Bool} {xs : List α} (h : xs.any p) :
    ∃ front x back, xs = front ++ x :: back ∧ p x ∧ ∀ y ∈ back, ¬ p y := by
  induction xs with
  | nil => simp at h
  | cons y xs ih =>
    by_cases hback : xs.any p
    · obtain ⟨front, x, back, rfl, hx, hnone⟩ := ih hback
      exact ⟨y :: front, x, back, rfl, hx, hnone⟩
    · rw [List.any_cons, Bool.or_eq_true] at h
      refine ⟨[], y, xs, rfl, h.resolve_right hback, fun z hz hpz ↦ ?_⟩
      exact hback (List.any_eq_true.2 ⟨z, hz, hpz⟩)

/-- Behind white space that ends a line, the line begins behind the last line end in it. -/
theorem exists_isLineStart_of_spaces {spaces : List Char} (hunsplit : Unsplit all front s)
    (hs : s = spaces ++ rest) (hspaces : ∀ c ∈ spaces, isSpace c) (hany : spaces.any isLineEnd)
    (huncovered : ∀ n, Text.byteLength front ≤ n → n < Text.byteLength (front ++ spaces) →
      ∀ token ∈ all, ¬ token.covers n) :
    ∃ start, IsLineStart (front ++ s) all (Text.byteLength (front ++ spaces)) start ∧
      Text.byteLength front ≤ start := by
  obtain ⟨v, lineEnd, w, rfl, hend, hnone⟩ := exists_last_of_any hany
  have hsource : front ++ s = front ++ v ++ [lineEnd] ++ (w ++ rest) := by simp [hs]
  have hbytes : Text.byteLength (front ++ (v ++ lineEnd :: w)) =
      Text.byteLength (front ++ v ++ [lineEnd] ++ w) := by
    simp
  have hsize := lineEnd.utf8Size_pos
  refine ⟨Text.byteLength (front ++ v ++ [lineEnd]), ⟨⟨?_, ?_⟩, ?_⟩, ?_⟩
  · rw [hbytes, Text.byteLength_append _ w]
    exact Nat.le_add_right _ _
  · refine .inr ⟨front ++ v, lineEnd, w ++ rest, ?_, ?_, rfl, ?_, ?_⟩
    · rw [hsource, List.append_assoc (front ++ v), List.singleton_append]
    · simpa [isLineEnd] using hend
    · rw [List.countP_eq_zero]
      apply huncovered
      · rw [Text.byteLength_append]
        exact Nat.le_add_right _ _
      · rw [hbytes]
        simp only [Text.byteLength_append, Text.byteLength_cons]
        omega
    · refine not_isSpliced_of_spaces hunsplit (by simp [hs]) (fun c hc ↦ ?_) hend
      exact hspaces c (List.mem_append_left _ hc)
  · rintro n ⟨hle, hstarts⟩
    by_contra hlater
    rw [hsource] at hstarts
    rw [hbytes] at hle
    obtain ⟨inside, other, more, rfl, hother, -⟩ :=
      exists_of_lineStarts hstarts (Nat.lt_of_not_le hlater) hle
    exact hnone other (by simp) hother
  · rw [Text.byteLength_append, Text.byteLength_append, Nat.add_assoc]
    exact Nat.le_add_right _ _

/-- No line begins in white space without a line end. -/
theorem not_lineStarts_of_spaces {spaces : List Char} (hnone : ¬ spaces.any isLineEnd) {n : Nat}
    (hbegin : Text.byteLength front < n) (hstop : n ≤ Text.byteLength (front ++ spaces)) :
    ¬ LineStarts (front ++ (spaces ++ rest)) all n := by
  intro h
  obtain ⟨inside, lineEnd, more, rfl, hend, -⟩ := exists_of_lineStarts h hbegin hstop
  exact hnone (List.any_eq_true.2 ⟨lineEnd, by simp, hend⟩)

/-- No line begins in a splice that is passed over. -/
theorem not_lineStarts_of_splice {splice : String} (hsplice : splice ∈ splices)
    (huncovered : ∀ token ∈ all, ¬ token.covers (Text.byteLength front)) {n : Nat}
    (hbegin : Text.byteLength front < n) (hstop : n ≤ Text.byteLength (front ++ splice.toList)) :
    ¬ LineStarts (front ++ (splice.toList ++ rest)) all n := by
  intro h
  obtain ⟨inside, lineEnd, more, hform, -, -, -, hspliced⟩ := exists_of_lineStarts h hbegin hstop
  exact hspliced ⟨splice, hsplice, front, inside, more, hform, rfl, List.prefix_append _ _,
    List.countP_eq_zero.2 huncovered⟩

/-- Behind a text in which no line begins, the line is the one in front of it. -/
theorem KnowsLine.goesOn (h : KnowsLine all front s atLineStart)
    (hnone : ∀ n, Text.byteLength front < n → n ≤ Text.byteLength (front ++ t) →
      ¬ LineStarts (front ++ s) all n)
    (hnext : next ↔ atLineStart ∧
      CommentsOnly all (Text.byteLength front) (Text.byteLength (front ++ t))) :
    ∃ start, IsLineStart (front ++ s) all (Text.byteLength (front ++ t)) start ∧
      (next ↔ CommentsOnly all start (Text.byteLength (front ++ t))) := by
  obtain ⟨start, hstart, hline⟩ := h.line
  have hle : Text.byteLength front ≤ Text.byteLength (front ++ t) := by
    rw [Text.byteLength_append]
    exact Nat.le_add_right _ _
  refine ⟨start, hstart.mono hle hnone, ?_⟩
  rw [CommentsOnly.append_iff hstart.1.1 hle, ← hline]
  exact hnext

variable [Text.IdentifierClasses]

/-- What a scan knows of its line at a place, it knows behind the item there. -/
theorem KnowsLine.step (h : KnowsLine all front s atLineStart)
    (hitem : item dialect strict atLineStart s = some (ps, next))
    (hamong : Among all (Text.byteLength front)
      (Text.byteLength front + Text.byteLength (textOf ps))
      (tokens (Text.byteLength front) ps)) :
    KnowsLine all (front ++ textOf ps) (s.drop (width ps)) next where
  unsplit := h.unsplit.step hamong hitem
  line := by
    have hsplit := (fits_item dialect strict _ _ _ _ hitem).textOf_append_drop
    have hblanks (hgaps : GapsIn IsBlanks ps) (n : Nat) (hbegin : Text.byteLength front < n)
        (hstop : n ≤ Text.byteLength (front ++ textOf ps)) :
        ¬ LineStarts (front ++ s) all n := by
      rw [← hsplit]
      exact not_lineStarts_of_blanks hamong hgaps hbegin hstop
    have hgap (t : List Char) : textOf [(.gap t : Piece Kind)] = t := List.append_nil t
    rw [List.append_assoc, hsplit]
    rcases item_cases hitem with ⟨rfl, rfl⟩ | ⟨rfl, hzero, rfl⟩ | ⟨hcomment, rfl⟩ |
      ⟨hcode, hspace, rfl⟩
    · have hclean := commentsOnly_of_item hamong (List.forall_mem_nil _)
      rw [hgap] at hsplit hclean ⊢
      by_cases hany : (s.takeWhile isSpace).any isLineEnd
      · rw [hany, Bool.or_true]
        obtain ⟨begins, hbegins, hlater⟩ := exists_isLineStart_of_spaces h.unsplit
          (Text.takeWhile_append_drop isSpace s).symm Text.forall_mem_takeWhile hany
          fun n ↦ uncovered_of_gap hamong
        exact ⟨begins, hbegins, iff_of_true rfl fun n hn ↦ hclean n (hlater.trans hn)⟩
      · refine h.goesOn (fun n hbegin hstop ↦ ?_) ?_
        · rw [← hsplit]
          exact not_lineStarts_of_spaces hany hbegin hstop
        · rw [Bool.not_eq_true] at hany
          rw [hany, Bool.or_false]
          exact (and_iff_left hclean).symm
    · have hclean := commentsOnly_of_item hamong (List.forall_mem_nil _)
      obtain ⟨found, hmem, hfound, hlength⟩ := exists_splice hzero
      have htake : s.take (spliceLength s) = found.toList := by
        rw [hlength]
        exact (List.prefix_iff_eq_take.1 hfound).symm
      rw [hgap, htake] at hsplit hclean ⊢
      refine h.goesOn (fun n hbegin hstop ↦ ?_) (and_iff_left hclean).symm
      rw [← hsplit]
      refine not_lineStarts_of_splice hmem ?_ hbegin hstop
      rw [htake] at hamong
      exact uncovered_of_gap hamong (Nat.le_refl _) (hbegin.trans_le hstop)
    · refine h.goesOn (hblanks (gapsIn_comment s ps hcomment)) ?_
      exact (and_iff_left (commentsOnly_of_item hamong (showsKinds_comment s ps hcomment))).symm
    · refine h.goesOn (hblanks (gapsIn_code _ _ _ s ps hcode)) ?_
      have hshown := not_commentsOnly_of_code hamong hspace hcode
      exact ⟨(absurd · Bool.false_ne_true), fun hclean ↦ absurd hclean.2 hshown⟩

theorem knowsLine_of_comes {before : List (List (Piece Kind))}
    (h : Comes (item dialect strict) true source before atLineStart rest) :
    KnowsLine (tokens 0 (scan dialect strict source)) (textOf before.flatten) rest atLineStart := by
  induction h with
  | start => exact knowsLine_nil _ source
  | @turn before now next rest ps hcomes hrest hitem ih =>
    have hamong := hcomes.among_tokens (fits_item dialect strict) (advances_item dialect strict)
      hrest hitem 0
    rw [Nat.zero_add] at hamong
    rw [List.flatten_concat, Piece.textOf_append]
    exact ih.step hitem hamong

/-! ## Hash signs -/

theorem isIdentifierStart_hash : isIdentifierStart '#' = false := rfl

theorem head?_take_identifier (s : List Char) : (s.take (identifierLength s)).head? ≠ some '#' := by
  intro h
  cases s with
  | nil => simp at h
  | cons c s =>
    have hzero : identifierLength (c :: s) = 0 := by
      by_contra hpos
      rw [List.head?_take, if_neg hpos, List.head?_cons] at h
      obtain rfl := Option.some.inj h
      refine hpos (Text.wordLength_eq_zero_iff.2 ?_)
      rw [Text.startsIn_cons, isIdentifierStart_hash]
    rw [hzero, List.take_zero] at h
    simp at h

/-- Nothing is shown as a directive that begins with a hash sign. -/
def Hashless (es : List Entry) : Prop :=
  ∀ entry ∈ es, entry.1 = .directive → entry.2.head? ≠ some '#'

omit [Text.IdentifierClasses] in
theorem composes_hashless : Composes Hashless := composes_forall _

theorem hashless_identifier (s : List Char) :
    Hashless [(.directive, s.take (identifierLength s))] :=
  List.forall_mem_singleton.2 fun _ ↦ head?_take_identifier s

/-- No operand shows a hash sign as a directive. -/
theorem shows_operand (name : List Char) : (operand name).Shows Hashless := by
  have hoptional {c : Construct Kind} (h : c.Shows Hashless) :
      (Construct.seq [.skip blankLength, .optional c]).Shows Hashless := by
    apply Construct.shows_seq composes_hashless
    simp only [List.forall_mem_cons]
    exact ⟨Construct.shows_skip composes_hashless _, Construct.shows_optional composes_hashless h,
      List.forall_mem_nil _⟩
  unfold operand
  split_ifs
  · have hstring (text : List Char) : Hashless [(.string, text)] :=
      List.forall_mem_singleton.2 (absurd · Kind.noConfusion)
    exact hoptional (Construct.shows_measured composes_hashless hstring _)
  · refine hoptional fun s ps hps ↦ ?_
    obtain ⟨-, rfl⟩ := Construct.measured_eq_some.1 hps
    exact composes_hashless.labelled_token (hashless_identifier s)
  · exact Construct.shows_seq_nil composes_hashless.nil

/-- A directive begins with its hash sign and shows no other as its own. -/
theorem exists_of_directive (h : directive s = some ps) :
    ∃ text behind, ps = .token .directive text :: behind ∧ Hashless (Piece.labelled behind) := by
  unfold directive at h
  cases hafter : Text.after? "#" s with
  | none => simp [hafter] at h
  | some rest =>
    simp only [hafter] at h
    obtain ⟨mark, rs, hmark, hrs, rfl⟩ := Construct.seq_cons_eq_some.1 h
    obtain rfl := Option.some.inj hmark
    have hoperand := Construct.shows_seq_singleton (shows_operand _) _ rs hrs
    unfold directiveMark
    split
    · exact ⟨_, _, rfl, hoperand⟩
    · refine ⟨['#'], .gap _ :: (Piece.shown .directive _ ++ rs), rfl, ?_⟩
      rw [Piece.labelled_gap, Piece.labelled_append]
      exact composes_hashless.append
        (composes_hashless.labelled_shown (hashless_identifier _)) hoperand

section

variable {before behind : List (Piece Kind)} {kind : Kind} {text : List Char}

omit [Text.IdentifierClasses] in
theorem ne_nil_of_hash (h : text.head? = some '#') : text ≠ [] := by
  rintro rfl
  simp at h

/-- A hash sign that a directive shows is the one that it begins with. -/
theorem hash_of_directive (h : directive s = some (before ++ .token kind text :: behind))
    (hkind : kind ∈ [.directive, .symOp]) (hhash : text.head? = some '#') :
    before = [] ∧ kind = .directive := by
  have hshown (front back : List (Piece Kind)) :
      (kind, text) ∈ Piece.labelled (front ++ .token kind text :: back) :=
    Piece.mem_labelled.2 ⟨by simp, ne_nil_of_hash hhash⟩
  have hmem := showsKinds_directive s _ h (kind, text) (hshown before behind)
  have hdirective : kind = .directive :=
    (by decide : ∀ kind ∈ [Kind.directive, .string], kind ∈ [Kind.directive, .symOp] →
      kind = .directive) kind hmem hkind
  refine ⟨?_, hdirective⟩
  obtain ⟨mark, others, hmark, hothers⟩ := exists_of_directive h
  cases before with
  | nil => rfl
  | cons first before =>
    obtain ⟨-, rfl⟩ := List.cons.inj hmark
    exact absurd hhash (hothers _ (hshown before behind) hdirective)

/-- Where a hash sign is read as an operator, a directive could be read as well. -/
theorem hash_of_operator (h : operator s = some (before ++ .token kind text :: behind))
    (hhash : text.head? = some '#') :
    before = [] ∧ kind ≠ .directive ∧ directive s ≠ none := by
  obtain ⟨op, hop, hpieces⟩ := Option.bind_eq_some_iff.1 h
  obtain ⟨hmem, rest, rfl⟩ := Operator.prefix_of_find? hop
  have hkinds : ∀ op ∈ operators, Operator.kind op ≠ Kind.directive := by decide
  cases before with
  | nil =>
    obtain ⟨rfl, rfl⟩ := Piece.token.inj (List.cons.inj (Option.some.inj hpieces)).1
    obtain ⟨inside, hinside⟩ := List.head?_eq_some_iff.1 hhash
    have hafter : Text.after? "#" (op.toList ++ rest) = some (inside ++ rest) := by
      rw [Text.after?_eq_some, hinside]
      rfl
    refine ⟨rfl, hkinds op hmem, ?_⟩
    rw [directive_eq, hafter]
    exact Option.some_ne_none _
  | cons first before =>
    have hnil := (List.cons.inj (Option.some.inj hpieces)).2
    simp at hnil

/-- A hash sign that begins a directive or is an operator begins its item, and it begins a directive
exactly if it is the first on its line. -/
theorem hash_of_item
    (h : item dialect strict atLineStart s = some (before ++ .token kind text :: behind, next))
    (hkind : kind ∈ [.directive, .symOp]) (hhash : text.head? = some '#') :
    before = [] ∧ (kind = .directive ↔ atLineStart) := by
  have hshown : (kind, text) ∈ Piece.labelled (before ++ .token kind text :: behind) :=
    Piece.mem_labelled.2 ⟨by simp, ne_nil_of_hash hhash⟩
  have hother {kinds : List Kind} (hapart : ∀ kind ∈ kinds, kind ∉ [Kind.directive, .symOp])
      {c : Construct Kind} (hc : ShowsKinds kinds c)
      (hread : c s = some (before ++ .token kind text :: behind)) :
      before = [] ∧ (kind = .directive ↔ atLineStart) :=
    absurd hkind (hapart kind (hc s _ hread (kind, text) hshown))
  rcases item_cases h with ⟨hgap, -⟩ | ⟨hgap, -⟩ | ⟨hcomment, -⟩ | ⟨hcode, -, -⟩
  · rw [hgap] at hshown
    simp at hshown
  · rw [hgap] at hshown
    simp at hshown
  · exact hother (by decide) showsKinds_comment hcomment
  · rw [code_eq] at hcode
    simp only [Option.or_eq_some_iff] at hcode
    rcases hcode with hdirective | ⟨hnone, hraw | ⟨-, hliteral | ⟨-, hnumber | ⟨-, hword |
      ⟨-, hoperator | ⟨-, hjunk⟩⟩⟩⟩⟩⟩
    · obtain ⟨hstart, hread⟩ := Construct.onlyIf_eq_some.1 hdirective
      obtain ⟨hbefore, hfound⟩ := hash_of_directive hread hkind hhash
      exact ⟨hbefore, iff_of_true hfound hstart⟩
    · exact hother (by decide) showsKinds_rawString (Construct.onlyIf_eq_some.1 hraw).2
    · exact hother (by decide) showsKinds_literal hliteral
    · exact hother (by decide) showsKinds_number hnumber
    · exact hother (by decide) (showsKinds_word dialect strict) hword
    · -- The hash sign is an operator only where no directive is looked for.
      obtain ⟨hbefore, hfound, hread⟩ := hash_of_operator hoperator hhash
      refine ⟨hbefore, iff_of_false hfound fun hline ↦ hread ?_⟩
      rwa [hline] at hnone
    · exact hother (by decide) showsKinds_junk hjunk

end

end CFamily

/-- In C and C++ a hash sign begins a directive, and is no operator, exactly if nothing but comments
is shown between it and the beginning of its line, which is that of the source or lies behind a line
end that is in no token and in no line splice. -/
theorem highlight_directives [Text.IdentifierClasses]
    (dialect : CFamily.Dialect) (strict : Bool) (source : List Char)
    (sink : Sink) :
    let tokens := (highlight dialect.language { coalescing := false, strict } source
      sink).1.currentScan.toList
    ∀ token ∈ tokens, token.kind = .directive ∨ token.kind = .symOp →
      (token.text source).head? = some '#' →
        ∃ start, CFamily.IsLineStart source tokens token.begin start ∧
          (token.kind = .directive ↔ CFamily.CommentsOnly tokens start token.begin) := by
  intro all token hmem hkind hhash
  have hall : all = tokens 0 (CFamily.scan dialect strict source) := by
    rw [show all = _ from currentScan_highlight_plain dialect.language strict source sink,
      CFamily.scan_language]
  rw [hall] at hmem ⊢
  obtain ⟨before, text, after, hps, -, hbegin, -, htext⟩ :=
    (CFamily.covers_scan dialect strict source).exists_of_mem hmem
  rw [htext] at hhash
  obtain ⟨items, atLineStart, rest, ps, next, front, back, hcomes, -, hitem, rfl, rfl, -⟩ :=
    exists_turn (CFamily.advances_item dialect strict) hps
  obtain ⟨rfl, hdirective⟩ := CFamily.hash_of_item hitem (by simpa using hkind) hhash
  obtain ⟨start, hstart, hline⟩ := (CFamily.knowsLine_of_comes hcomes).line
  rw [← (hcomes.run_eq (CFamily.fits_item dialect strict)
    (CFamily.advances_item dialect strict)).2] at hstart
  rw [List.append_nil] at hbegin
  rw [hbegin]
  exact ⟨start, hstart, hdirective.trans hline⟩

/-- A hash sign with nothing but a comment between it and the line end begins a directive. -/
theorem highlight_directives_comment :
    let source := "1\n/**/#".toList
    let tokens := (highlight .c { coalescing := false, strict := true } source
      .empty).1.currentScan.toList
    let token : Token := ⟨6, 1, .directive⟩
    ∃ start, CFamily.IsLineStart source tokens token.begin start ∧
      (token.kind = .directive ↔ CFamily.CommentsOnly tokens start token.begin) :=
  highlight_directives .c true "1\n/**/#".toList .empty ⟨6, 1, .directive⟩ (by decide +kernel)
    (by decide) (by decide +kernel)

end Highlight
