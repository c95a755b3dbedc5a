import Highlight.Proofs.Lengths
import Highlight.Proofs.Markup.Steady
import Highlight.Proofs.Piece.Labels

/-!
# References that are set into a text

A reference begins with an ampersand and has no other one in it, so no two references of a text
overlap, and passing over a text from ampersand to ampersand misses none. The escapes of a text that
is read so are the references that begin in it, each where it begins.
-/

namespace Highlight

open Construct (measured)
open Piece (textOf tokens width)

namespace Markup

variable {length : List Char → Nat} {s t : List Char}

/-- The reference at the front of a text, as an escape at byte `begin`. -/
def referenceAt (length : List Char → Nat) (begin : Nat) (s : List Char) : List Token :=
  let n := length s
  if n = 0 then [] else [⟨begin, Text.byteLength (s.take n), .escape⟩]

/-- The references that begin in a text, which itself begins at byte `begin`. -/
def referencesFrom (length : List Char → Nat) (begin : Nat) : List Char → List Token
  | [] => []
  | c :: s => referenceAt length begin (c :: s) ++ referencesFrom length (begin + c.utf8Size) s

theorem referencesFrom_plain {c : Char} (hc : length (c :: s) = 0) (begin : Nat) :
    referencesFrom length begin (c :: s) = referencesFrom length (begin + c.utf8Size) s := by
  rw [referencesFrom, referenceAt, hc]
  rfl

def escapes (tokens : List Token) : List Token := tokens.filter fun token ↦ token.kind = .escape

theorem tokens_reference (begin : Nat) (inner : List Char) (ps : List (Piece Kind)) :
    tokens begin (.token .escape ('&' :: inner) :: ps) =
      ⟨begin, Text.byteLength ('&' :: inner), .escape⟩ ::
        tokens (begin + Text.byteLength ('&' :: inner)) ps := by
  rw [Piece.tokens_token, if_neg (Text.byteLength_eq_zero.not.2 (List.cons_ne_nil _ _))]
  rfl

theorem escapes_shown (begin : Nat) (text : List Char) (ps : List (Piece Kind)) :
    escapes (tokens begin (Piece.shown .string text ++ ps)) =
      escapes (tokens (begin + Text.byteLength text) ps) := by
  have hstrings : ∀ token ∈ tokens begin (Piece.shown .string text), token.kind ≠ .escape := by
    intro token htoken
    obtain ⟨other, hother⟩ := Piece.exists_of_mem_tokens htoken
    rw [(Piece.token.inj (Piece.eq_of_mem_shown hother)).1]
    decide
  rw [Piece.tokens_append, Piece.textOf_shown, escapes, List.filter_append]
  rw [List.filter_eq_nil_iff.2 (by simpa using hstrings), List.nil_append]
  rfl

/-- The pieces show the text of `part`, and behind it a front of `s` with its references as
escapes. -/
def ShowsBody (length : List Char → Nat) (part s : List Char) (ps : List (Piece Kind)) : Prop :=
  ∃ body rest, s = body ++ rest ∧ textOf ps = part.reverse ++ body ∧
    ∀ begin, escapes (tokens begin ps) =
      referencesFrom length (begin + Text.byteLength part.reverse) body

/-- The length is that of references: where it is not 0, the text begins with an ampersand and has
no other one up to there. -/
structure MeasuresReferences (length : List Char → Nat) : Prop where
  steady : Text.Steady id length
  exists_cons : ∀ s, length s ≠ 0 →
    ∃ inner rest, s = '&' :: (inner ++ rest) ∧ length s = inner.length + 1 ∧ '&' ∉ inner

namespace MeasuresReferences

variable (h : MeasuresReferences length)

include h

theorem eq_zero {c : Char} (hc : c ≠ '&') (s : List Char) : length (c :: s) = 0 := by
  by_contra hne
  obtain ⟨inner, rest, hs, -⟩ := h.exists_cons _ hne
  exact hc (List.cons.inj hs).1

theorem referencesFrom_append (hs : '&' ∉ s) (begin : Nat) (t : List Char) :
    referencesFrom length begin (s ++ t) =
      referencesFrom length (begin + Text.byteLength s) t := by
  induction s generalizing begin with
  | nil => rfl
  | cons c s ih =>
    rw [List.mem_cons, not_or] at hs
    rw [List.cons_append, referencesFrom, referenceAt, h.eq_zero (Ne.symm hs.1), ih hs.2,
      Text.byteLength_cons, Nat.add_assoc]
    rfl

theorem referencesFrom_eq_nil (hs : '&' ∉ s) (begin : Nat) :
    referencesFrom length begin s = [] := by
  have hall := h.referencesFrom_append hs begin []
  rwa [List.append_nil] at hall

/-- Behind a reference the search goes on where it ends. -/
theorem referencesFrom_reference {inner : List Char} (hinner : '&' ∉ inner)
    (hlength : length ('&' :: (inner ++ t)) = inner.length + 1) (begin : Nat) :
    referencesFrom length begin ('&' :: (inner ++ t)) =
      ⟨begin, Text.byteLength ('&' :: inner), .escape⟩ ::
        referencesFrom length (begin + Text.byteLength ('&' :: inner)) t := by
  have htake : ('&' :: (inner ++ t)).take (inner.length + 1) = '&' :: inner := by simp
  have hfirst : referenceAt length begin ('&' :: (inner ++ t)) =
      [⟨begin, Text.byteLength ('&' :: inner), .escape⟩] := by
    rw [referenceAt, hlength, if_neg (Nat.succ_ne_zero _), htake]
  have hstop : begin + '&'.utf8Size + Text.byteLength inner =
      begin + Text.byteLength ('&' :: inner) := by
    rw [Text.byteLength_cons, Nat.add_assoc]
  calc
    _ = referenceAt length begin ('&' :: (inner ++ t)) ++
        referencesFrom length (begin + '&'.utf8Size) (inner ++ t) := rfl
    _ = ⟨begin, Text.byteLength ('&' :: inner), .escape⟩ ::
        referencesFrom length (begin + '&'.utf8Size) (inner ++ t) := by
      rw [hfirst, List.singleton_append]
    _ = ⟨begin, Text.byteLength ('&' :: inner), .escape⟩ ::
        referencesFrom length (begin + Text.byteLength ('&' :: inner)) t := by
      rw [h.referencesFrom_append hinner, hstop]

/-- A reference that is read is one piece, and no ampersand is in it but the first. -/
theorem exists_of_measured {ps : List (Piece Kind)} (hps : measured .escape length s = some ps) :
    ∃ inner rest, s = '&' :: (inner ++ rest) ∧ ps = [.token .escape ('&' :: inner)] ∧
      length s = inner.length + 1 ∧ '&' ∉ inner ∧ s.drop (width ps) = rest := by
  obtain ⟨hlength, rfl⟩ := Construct.measured_eq_some.1 hps
  obtain ⟨inner, rest, rfl, hwidth, hinner⟩ := h.exists_cons s hlength
  have htake : ('&' :: (inner ++ rest)).take (length ('&' :: (inner ++ rest))) = '&' :: inner := by
    rw [hwidth]
    simp
  rw [htake]
  exact ⟨inner, rest, rfl, rfl, hwidth, hinner, by simp [Piece.text]⟩

/-- A literal into which nothing but references is set shows those of its text as escapes. -/
theorem showsBody_of_partsFrom {turn : List Char → Turn Kind} {part : List Char}
    {ps : List (Piece Kind)}
    (hclose : ∀ s n, turn s = .close n → '&' ∉ s.take n)
    (hplain : ∀ c s, turn (c :: s) = .plain → length (c :: s) = 0)
    (haside : ∀ s ps, turn s = .aside ps → measured .escape length s = some ps)
    (hps : partsFrom .string turn [] part s = some ps) : ShowsBody length part s ps := by
  refine partsFrom_induction (motive := ShowsBody length) ?_ ?_ ?_ hps
  · intro part s n hturn
    refine ⟨s.take n, s.drop n, (List.take_append_drop n s).symm, Piece.textOf_shown _ _,
      fun begin ↦ ?_⟩
    have hshown := escapes_shown begin (part.reverse ++ s.take n) []
    rw [List.append_nil] at hshown
    rw [hshown, h.referencesFrom_eq_nil (hclose s n hturn)]
    rfl
  · rintro part c _ ps hturn ⟨body, rest, rfl, htext, hbody⟩
    refine ⟨c :: body, rest, rfl, by rw [htext]; simp, fun begin ↦ ?_⟩
    -- The text behind the literal does not make a reference of what is none in front of it.
    have hzero : length (c :: body) = 0 := by
      have hwhole := hplain c _ hturn
      rw [← hwhole]
      exact h.steady (c :: body) rest (by rw [List.cons_append, hwhole]; exact Nat.zero_le _)
    rw [hbody, referencesFrom_plain hzero, List.reverse_cons, Text.byteLength_append,
      Text.byteLength_cons, Text.byteLength_nil, Nat.add_zero, Nat.add_assoc]
  · rintro part s pieces ps hturn ⟨body, rest, hrest, htext, hbody⟩
    obtain ⟨inner, behind, rfl, rfl, hwidth, hinner, hbehind⟩ :=
      h.exists_of_measured (haside s pieces hturn)
    obtain rfl : behind = body ++ rest := hbehind.symm.trans hrest
    refine ⟨'&' :: (inner ++ body), rest, by simp, ?_, fun begin ↦ ?_⟩
    · simp [htext, Piece.text]
    have hsame : length ('&' :: (inner ++ body)) = inner.length + 1 := by
      have hwhole : '&' :: (inner ++ body) ++ rest = '&' :: (inner ++ (body ++ rest)) := by simp
      have hsteady := h.steady ('&' :: (inner ++ body)) rest
      rw [hwhole, id_eq, hwidth] at hsteady
      exact hsteady (by simp)
    let first := begin + Text.byteLength part.reverse
    let reference : Token := ⟨first, Text.byteLength ('&' :: inner), .escape⟩
    calc
      _ = escapes (tokens first (.token .escape ('&' :: inner) :: ps)) := escapes_shown _ _ _
      _ = reference :: escapes (tokens reference.stop ps) := by
        rw [tokens_reference, escapes, List.filter_cons_of_pos rfl]
        rfl
      _ = reference :: referencesFrom length reference.stop body := by
        rw [hbody]
        rfl
      _ = referencesFrom length first ('&' :: (inner ++ body)) :=
        (h.referencesFrom_reference hinner hsame first).symm

end MeasuresReferences

/-- Neither the marks nor the names of references hold an ampersand. -/
theorem measuresReferences {hexMarks : List String} {nameLength : List Char → Nat}
    (hmarks : ∀ mark ∈ hexMarks,
      mark.toList.length = 3 ∧ ∃ front, mark.toList = '&' :: front ∧ ∀ c ∈ front, c != '&')
    (hname : ∀ s : List Char, '&' ∉ s.take (nameLength s)) (hgreedy : Text.Greedy nameLength) :
    MeasuresReferences (Reference.length hexMarks nameLength) where
  steady := Reference.steady_length (fun mark hmem ↦ (hmarks mark hmem).1) hgreedy
  exists_cons s hs := by
    have hdigit (c : Char) (hc : Text.isHexDigit c) : c != '&' := by
      rw [bne_iff_ne]
      rintro rfl
      exact absurd hc (by decide)
    have hplain (s : List Char) : ∀ c ∈ s.take (nameLength s), c != '&' := by
      intro c hc
      rw [bne_iff_ne]
      exact ne_of_mem_of_not_mem hc (hname s)
    obtain ⟨inner, rest, hsplit, hlength, hall⟩ :=
      Reference.exists_cons_of_length hmarks (by decide) hdigit hplain hgreedy.le hs
    exact ⟨inner, rest, hsplit, hlength, fun hmem ↦ absurd (hall _ hmem) (by decide)⟩

end Markup

theorem Xml.measuresReferences : Markup.MeasuresReferences Xml.referenceLength := by
  refine Markup.measuresReferences (List.forall_mem_singleton.2 ⟨rfl, ['#', 'x'], rfl, by simp⟩) ?_
    (Text.greedy_wordLength _ _)
  intro s hmem
  have hname : isNameChar '&' :=
    (Text.forall_mem_take_wordLength '&' hmem).elim isNameChar_of_isNameStart id
  rw [not_isNameChar_of_mem (by decide)] at hname
  exact absurd hname Bool.false_ne_true

theorem Html.measuresReferences : Markup.MeasuresReferences Html.referenceLength := by
  refine Markup.measuresReferences ?_ ?_ (Text.greedy_spanLength _)
  · exact List.forall_mem_cons.2 ⟨⟨rfl, ['#', 'x'], rfl, by simp⟩,
      List.forall_mem_singleton.2 ⟨rfl, ['#', 'X'], rfl, by simp⟩⟩
  · exact fun s hmem ↦ absurd (Text.forall_mem_take_spanLength '&' hmem) (by decide)

end Highlight
