import Highlight.Proofs.CFamily.Reading
import Highlight.Proofs.Coverage
import Highlight.Proofs.Piece.Gaps
import Highlight.Text.Unicode

/-!
# What scans of C and C++ leave out

The scans of both dialects pass over white space and line splices and over nothing else: those
between the items of a program text, the blanks behind the hash sign of a directive and those in
front of its operand. Since the pieces cover the program text, every byte outside these gaps lies in
a token.
-/

namespace Highlight

open Piece (GapsIn textOf)

namespace CFamily

/-- White space in which lines may be spliced. -/
def isSpacing : List Char → Bool
  | [] => true
  | c :: s => (isSpace c || c == '\\' && Text.startsIn isLineEnd s) && isSpacing s

theorem isSpacing_of_forall {s : List Char} (h : ∀ c ∈ s, isSpace c) : isSpacing s := by
  induction s with
  | nil => rfl
  | cons c s ih =>
    rw [List.forall_mem_cons] at h
    simp [isSpacing, h.1, ih h.2]

theorem isSpacing_of_blanks {s : List Char} (h : ∀ c ∈ s, isBlank c) : isSpacing s :=
  isSpacing_of_forall fun c hc ↦ by rw [isSpace, h c hc, Bool.true_or]

theorem isSpacing_splice (s : List Char) : isSpacing (s.take (spliceLength s)) := by
  unfold spliceLength
  split_ifs with hlong hshort
  · obtain ⟨rest, rfl⟩ := Text.startsWith_iff.1 hlong
    rfl
  · rw [Bool.or_eq_true, Text.startsWith_iff, Text.startsWith_iff] at hshort
    rcases hshort with ⟨rest, rfl⟩ | ⟨rest, rfl⟩
    · rfl
    · rfl
  · rfl

/-- What stands anywhere in white space is a space, or it splices two lines. -/
theorem isSpace_or_splice {front rest : List Char} {c : Char}
    (h : isSpacing (front ++ c :: rest)) :
    isSpace c ∨ c = '\\' ∧ ∃ e behind, rest = e :: behind ∧ isLineEnd e := by
  induction front with
  | nil =>
    rw [List.nil_append, isSpacing, Bool.and_eq_true, Bool.or_eq_true, Bool.and_eq_true,
      beq_iff_eq] at h
    refine h.1.imp_right fun hsplice ↦ ⟨hsplice.1, ?_⟩
    cases rest with
    | nil => exact absurd hsplice.2 (by decide)
    | cons e behind => exact ⟨e, behind, rfl, hsplice.2⟩
  | cons d front ih =>
    rw [List.cons_append, isSpacing, Bool.and_eq_true] at h
    exact ih h.2

theorem isSpace_iff {c : Char} : isSpace c ↔ c ∈ " \t\n\r\x0B\x0C".toList := by
  simp [isSpace, isBlank, isLineEnd]
  tauto

theorem utf8Size_of_isSpace {c : Char} (h : isSpace c) : c.utf8Size = 1 := by
  have hmem := isSpace_iff.1 h
  simp only [String.reduceToList, List.mem_cons, List.not_mem_nil, or_false] at hmem
  rcases hmem with rfl | rfl | rfl | rfl | rfl | rfl
  all_goals rfl

/-- A stretch of one line that shows nothing. -/
def IsBlanks (text : List Char) : Prop := ∀ c ∈ text, isBlank c

theorem isBlanks_takeWhile (s : List Char) : IsBlanks (s.takeWhile isBlank) :=
  Text.forall_mem_takeWhile

theorem gapsIn_comment : comment.GapsIn IsBlanks := by
  apply Construct.gapsIn_firstOf
  simp only [List.forall_mem_cons]
  exact ⟨Comment.gapsIn_line _, Comment.gapsIn_block, List.forall_mem_nil _⟩

theorem gapsIn_literal : literal.GapsIn IsBlanks := by
  intro s ps h
  unfold literal at h
  simp only at h
  split at h
  · split_ifs at h
    refine Construct.gapsIn_parts ?_ s ps h
    intro s ps hturn
    obtain ⟨rest, -, rfl⟩ := escape_of_literalTurn hturn
    exact Piece.gapsIn_token _ _
  · simp at h

theorem gapsIn_directiveMark (s name : List Char) :
    GapsIn IsBlanks (directiveMark (s.takeWhile isBlank) name) := by
  unfold directiveMark
  split
  · exact Piece.gapsIn_token _ _
  · rw [Piece.gapsIn_append]
    refine ⟨?_, Piece.gapsIn_shown _ _⟩
    intro text hmem
    simp only [List.mem_cons, reduceCtorEq, Piece.gap.injEq, List.not_mem_nil, false_or,
      or_false] at hmem
    rw [hmem]
    exact isBlanks_takeWhile s

theorem gapsIn_skip_blanks :
    (Construct.skip blankLength : Construct Kind).GapsIn IsBlanks := by
  apply Construct.gapsIn_skip
  intro s
  rw [blankLength, Text.take_spanLength]
  exact isBlanks_takeWhile s

variable [Text.IdentifierClasses]

theorem gapsIn_operand (name : List Char) : (operand name).GapsIn IsBlanks := by
  unfold operand
  split_ifs
  all_goals apply Construct.gapsIn_seq
  all_goals simp [gapsIn_skip_blanks, Construct.gapsIn_optional]

theorem gapsIn_directive : directive.GapsIn IsBlanks := by
  intro s ps h
  unfold directive at h
  cases hafter : Text.after? "#" s with
  | none => simp [hafter] at h
  | some rest =>
    simp only [hafter] at h
    obtain ⟨mark, rs, hmark, hoperand, rfl⟩ := Construct.seq_cons_eq_some.1 h
    obtain rfl := Option.some.inj hmark
    rw [Piece.gapsIn_append]
    refine ⟨gapsIn_directiveMark rest _, ?_⟩
    exact Construct.gapsIn_seq (by simp [gapsIn_operand]) _ rs hoperand

theorem gapsIn_word (dialect : Dialect) (strict : Bool) :
    (word dialect strict).GapsIn IsBlanks := by
  intro s ps h
  unfold word at h
  simp only at h
  split_ifs at h
  obtain rfl := Option.some.inj h
  exact Piece.gapsIn_token _ _

omit [Text.IdentifierClasses] in
theorem gapsIn_operator : operator.GapsIn IsBlanks := by
  intro s ps h
  obtain ⟨op, -, hps⟩ := Option.bind_eq_some_iff.1 h
  obtain rfl := Option.some.inj hps
  exact Piece.gapsIn_token _ _

theorem gapsIn_code (dialect : Dialect) (strict atLineStart : Bool) :
    (code dialect strict atLineStart).GapsIn IsBlanks := by
  apply Construct.gapsIn_firstOf
  simp only [List.forall_mem_cons]
  exact ⟨Construct.gapsIn_onlyIf gapsIn_directive,
    Construct.gapsIn_onlyIf (Construct.gapsIn_measured _ _), gapsIn_literal,
    Construct.gapsIn_measured _ _, gapsIn_word dialect strict, gapsIn_operator,
    Construct.gapsIn_measured _ _, List.forall_mem_nil _⟩

/-- An item is white space, a line splice, or one of which no gap reaches past its line. -/
theorem item_passes {dialect : Dialect} {strict atLineStart next : Bool} {s : List Char}
    {ps : List (Piece Kind)} (h : item dialect strict atLineStart s = some (ps, next)) :
    ps = [.gap (s.takeWhile isSpace)] ∨ ps = [.gap (s.take (spliceLength s))] ∨
      GapsIn IsBlanks ps := by
  unfold item at h
  simp only at h
  split_ifs at h
  · obtain ⟨rfl, -⟩ := Prod.mk.inj (Option.some.inj h)
    exact .inl rfl
  · obtain ⟨rfl, -⟩ := Prod.mk.inj (Option.some.inj h)
    exact .inr (.inl rfl)
  · refine .inr (.inr ?_)
    split at h
    · next pieces hcomment =>
      obtain ⟨rfl, -⟩ := Prod.mk.inj (Option.some.inj h)
      exact gapsIn_comment _ _ hcomment
    · obtain ⟨qs, hcode, hqs⟩ := Option.map_eq_some_iff.1 h
      obtain ⟨rfl, -⟩ := Prod.mk.inj hqs
      exact gapsIn_code dialect strict atLineStart _ _ hcode

theorem gapsIn_item {dialect : Dialect} {strict atLineStart next : Bool} {s : List Char}
    {ps : List (Piece Kind)} (h : item dialect strict atLineStart s = some (ps, next)) :
    GapsIn (isSpacing ·) ps := by
  rcases item_passes h with rfl | rfl | hblanks
  · exact Piece.gapsIn_gap.2 (isSpacing_of_forall Text.forall_mem_takeWhile)
  · exact Piece.gapsIn_gap.2 (isSpacing_splice s)
  · exact hblanks.mono fun _ ↦ isSpacing_of_blanks

theorem gapsIn_scan (dialect : Dialect) (strict : Bool) (s : List Char) :
    GapsIn (isSpacing ·) (scan dialect strict s) :=
  gapsIn_run (fun _ _ _ _ ↦ gapsIn_item) true s

omit [Text.IdentifierClasses] in
/-- A byte in a gap is a space, or it is a backslash with the end of a line behind it in the same
gap. -/
theorem byte_of_gap {begin n : Nat} {text : List Char} (h : isSpacing text) (hbegin : begin ≤ n)
    (hstop : n < begin + Text.byteLength text) :
    ∃ front c rest, text = front ++ c :: rest ∧ n = begin + Text.byteLength front ∧
      (isSpace c ∨ c = '\\' ∧ (∃ e behind, rest = e :: behind ∧ isLineEnd e) ∧
        n + 1 < begin + Text.byteLength text) := by
  have hbyte : n - begin < Text.byteLength text := by omega
  obtain ⟨front, c, rest, rfl, hle, hlt⟩ := Text.exists_char_at hbyte
  have hform := isSpace_or_splice h
  have hsize : c.utf8Size = 1 := by
    rcases hform with hspace | ⟨rfl, -⟩
    · exact utf8Size_of_isSpace hspace
    · rfl
  have hplace : n = begin + Text.byteLength front := by omega
  refine ⟨front, c, rest, rfl, hplace, hform.imp_right ?_⟩
  rintro ⟨rfl, e, behind, rfl, hend⟩
  refine ⟨rfl, ⟨e, behind, rfl, hend⟩, ?_⟩
  have hpos := e.utf8Size_pos
  rw [Text.byteLength_append, Text.byteLength_cons, Text.byteLength_cons]
  omega

/-- A byte of a program text is in a token, or it begins white space or the backslash of a splice.
-/
theorem byte_of_scan (dialect : Dialect) (strict : Bool) {source : List Char} {n : Nat}
    (hn : n < Text.byteLength source) :
    let tokens := Piece.tokens 0 (scan dialect strict source)
    tokens.any (·.covers n) ∨
      tokens.any (·.covers n) = false ∧
      ∃ front c rest, source = front ++ c :: rest ∧ n = Text.byteLength front ∧
        (isSpace c ∨ c = '\\' ∧ (∃ e behind, rest = e :: behind ∧ isLineEnd e) ∧
          tokens.any (·.covers (n + 1)) = false) := by
  intro tokens
  have htext := (covers_scan dialect strict source).textOf_eq
  rcases Piece.covered_or_passed (by rw [htext]; exact hn) with
    hcovered | ⟨before, text, after, hpieces, hle, hlt, huncovered⟩
  · exact .inl hcovered
  · have hgaps := gapsIn_scan dialect strict source
    rw [hpieces] at hgaps htext
    obtain ⟨front, c, rest, rfl, hplace, hform⟩ :=
      byte_of_gap (hgaps text (by simp)) hle hlt
    refine .inr ⟨huncovered n hle hlt, textOf before ++ front, c, rest ++ textOf after, ?_, ?_, ?_⟩
    · rw [← htext, Piece.textOf_append, Piece.textOf_cons, Piece.text]
      simp
    · rw [Text.byteLength_append]
      exact hplace
    · refine hform.imp_right ?_
      rintro ⟨hbackslash, ⟨e, behind, rfl, hend⟩, hnext⟩
      exact ⟨hbackslash, ⟨e, behind ++ textOf after, rfl, hend⟩,
        huncovered (n + 1) (Nat.le_succ_of_le hle) hnext⟩

/-- No token covers the byte, which is white space or the backslash of a line splice whose end is
not covered either. -/
def IsPassedOver (source : List Char) (tokens : List Token) (n : Nat) : Prop :=
  tokens.countP (·.covers n) = 0 ∧
    ∃ front c rest, source = front ++ c :: rest ∧ n = Text.byteLength front ∧
      (c ∈ " \t\n\r\x0B\x0C".toList ∨
        c = '\\' ∧ (∃ e behind, rest = e :: behind ∧ (e = '\n' ∨ e = '\r')) ∧
          tokens.countP (·.covers (n + 1)) = 0)

end CFamily

/-- Each of the languages has its dialect. -/
theorem exists_dialect [Text.IdentifierClasses]
    {language : Language} (hlanguage : language ∈ [.c, .cpp]) :
    ∃ dialect, language.scan = CFamily.scan dialect := by
  simp only [List.mem_cons, List.not_mem_nil, or_false] at hlanguage
  rcases hlanguage with rfl | rfl
  · exact ⟨.c, rfl⟩
  · exact ⟨.cpp, rfl⟩

/-- In C and C++ every byte of a source lies in exactly one token or is passed over. -/
theorem highlight_losesNothing [Text.IdentifierClasses]
    {language : Language} (hlanguage : language ∈ [.c, .cpp])
    (options : Options) {source : List Char} (sink : Sink) {n : Nat}
    (hn : n < Text.byteLength source) :
    let tokens := (highlight language options source sink).1.currentScan.toList
    tokens.countP (·.covers n) = 1 ∨ CFamily.IsPassedOver source tokens n := by
  intro tokens
  obtain ⟨dialect, hscan⟩ := exists_dialect hlanguage
  have hcount (m : Nat) : tokens.countP (·.covers m) =
      if (Piece.tokens 0 (CFamily.scan dialect options.strict source)).any (·.covers m) then 1
      else 0 := by
    rw [← hscan, ← language.countP_tokens, ← currentScan_highlight language options source sink]
  rcases CFamily.byte_of_scan dialect options.strict hn with
    hcovered | ⟨huncovered, front, c, rest, hsource, hplace, hform⟩
  · refine .inl ?_
    rw [hcount, if_pos hcovered]
  · refine .inr ⟨?_, front, c, rest, hsource, hplace, ?_⟩
    · rw [hcount, huncovered, if_neg Bool.false_ne_true]
    · refine hform.imp CFamily.isSpace_iff.1 ?_
      rintro ⟨hbackslash, ⟨e, behind, hrest, hend⟩, hnext⟩
      refine ⟨hbackslash, ⟨e, behind, hrest, ?_⟩, ?_⟩
      · simpa [CFamily.isLineEnd] using hend
      · rw [hcount, hnext, if_neg Bool.false_ne_true]

/-- The backslash at the end of a line behind a comment is passed over. -/
theorem isPassedOver_splice :
    let source := "/**/\\\n".toList
    CFamily.IsPassedOver source (highlight .c {} source .empty).1.currentScan.toList 4 :=
  (highlight_losesNothing (by decide) {} .empty (by decide)).resolve_left (by decide +kernel)

end Highlight
