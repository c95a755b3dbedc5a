import Highlight.Proofs.Json.Reading
import Highlight.Proofs.Piece.Leaving

/-!
# The items of JSON

Mostly the first character tells which item a text begins with. What the item leaves is, up to what
is withdrawn, the front of all that is read of the text.
-/

namespace Highlight

open Piece (Alike lasting textOf width)

namespace Json

variable {c : Char} {s r : List Char} {ps qs : List (Piece Kind)}

def space : Construct Kind := .skipSome (Text.spanLength isSpace)

def number : Construct Kind := .measured .number numberLength

theorem isSpace_iff : isSpace c ↔ c ∈ " \t\n\r".toList := by
  simp [isSpace, or_assoc]

theorem item_eq [Text.IdentifierClasses] (strict : Bool) : item strict = .firstOf [space,
    .onlyIf (!strict) JavaScript.comment, string, number, literalName, punctuation,
    .measured .error junkLength] := rfl

theorem space_eq_none (hc : isSpace c = false) (s : List Char) : space (c :: s) = none := by
  have hlength : Text.spanLength isSpace (c :: s) = 0 := Text.spanLength_eq_zero_iff.2 hc
  simp [space, Construct.skipSome, hlength]

theorem comment_eq_none (strict : Bool) (hc : c ≠ '/') (s : List Char) :
    Construct.onlyIf (!strict) JavaScript.comment (c :: s) = none := by
  cases strict with
  | false => exact JavaScript.comment_eq_none hc s
  | true => rfl

theorem string_eq_none (hc : c ≠ '"') (s : List Char) : string (c :: s) = none := by
  simp [string, stringExtent, hc]

theorem number_eq_none (hminus : c ≠ '-') (hdigit : c.isDigit = false) (s : List Char) :
    number (c :: s) = none := by
  have hsign : Text.startsWith "-" (c :: s) = false := by
    rw [Bool.eq_false_iff, ne_eq, Text.startsWith_iff]
    rintro ⟨rest, hrest⟩
    exact hminus (List.cons.inj hrest).1.symm
  have hzero : c ≠ '0' := by
    rintro rfl
    exact absurd hdigit (by decide)
  have hlength : numberLength (c :: s) = 0 := by
    simp [numberLength, hsign, integerLength, hzero, hdigit]
  simp [number, Construct.measured, hlength]

variable [Text.IdentifierClasses]

theorem literalName_eq_none (hc : c ∉ "tfn".toList) (s : List Char) :
    literalName (c :: s) = none := by
  cases hname : literalName? (c :: s) with
  | none =>
    unfold literalName
    simp only [hname]
    rfl
  | some found =>
    obtain ⟨n, kind⟩ := found
    obtain ⟨entry, hentry, -, -, rest, hrest⟩ := prefix_of_literalName? hname
    have hfirst : ∀ entry ∈ literalNames,
        ∃ d, d ∈ "tfn".toList ∧ entry.1.toList.head? = some d := by
      simp [literalNames]
    obtain ⟨d, hd, hhead⟩ := hfirst entry hentry
    obtain ⟨tail, htail⟩ := List.head?_eq_some_iff.1 hhead
    rw [htail] at hrest
    exact absurd ((List.cons.inj hrest).1 ▸ hd) hc

theorem leaves_item_space (strict : Bool) (hs : s ≠ []) (hspace : ∀ d ∈ s, isSpace d)
    (hr : Text.startsIn isSpace r = false) : (item strict).Leaves [.gap s] r := by
  have hlength : Text.spanLength isSpace (s ++ r) = s.length :=
    Text.spanLength_append_iff.2 ⟨hspace, hr⟩
  have htext : textOf [(.gap s : Piece Kind)] = s := List.append_nil s
  rw [item_eq]
  refine Construct.leaves_firstOf_of_none [] (by simp) ⟨[.gap s], ?_, rfl⟩
  refine Construct.skipSome_eq_some.2 ⟨?_, ?_⟩
  · rw [htext, hlength]
    exact List.length_eq_zero_iff.not.2 hs
  · rw [htext, hlength, List.take_left]

theorem leaves_item_string (strict : Bool) (h : string.Leaves ps r) :
    (item strict).Leaves ps r := by
  obtain ⟨us, hus, -⟩ := h.takes
  obtain ⟨rest, hrest, -⟩ := stringExtent_of_ne_zero (covers_string hus).1
  rw [item_eq]
  refine Construct.leaves_firstOf_of_none
    [space, .onlyIf (!strict) JavaScript.comment] ?_ h
  rw [hrest]
  simp only [List.forall_mem_cons]
  exact ⟨space_eq_none (by decide) rest, comment_eq_none strict (by decide) rest,
    List.forall_mem_nil _⟩

omit [Text.IdentifierClasses] in
/-- What is tried before a number. -/
theorem front_eq_none (strict : Bool) (hspace : isSpace c = false) (hslash : c ≠ '/')
    (hquote : c ≠ '"') (s : List Char) :
    ∀ d ∈ [space, .onlyIf (!strict) JavaScript.comment, string], d (c :: s) = none := by
  simp only [List.forall_mem_cons]
  exact ⟨space_eq_none hspace s, comment_eq_none strict hslash s, string_eq_none hquote s,
    List.forall_mem_nil _⟩

/-- In front of a number none of the earlier alternatives is there. -/
theorem leaves_item_number (strict : Bool) (h : number.Leaves ps r) :
    (item strict).Leaves ps r := by
  obtain ⟨us, hus, -⟩ := h.takes
  have hlength := (Construct.measured_eq_some.1 hus).1
  cases hs : textOf ps ++ r with
  | nil =>
    rw [hs] at hlength
    exact absurd rfl hlength
  | cons c s =>
    have hne {d : Char} (hminus : d ≠ '-') (hdigit : d.isDigit = false) : c ≠ d := by
      rintro rfl
      rw [hs, number_eq_none hminus hdigit] at hus
      exact absurd hus (by simp)
    have hspace : isSpace c = false := by
      have hall : ∀ d ∈ " \t\n\r".toList, d ≠ '-' ∧ d.isDigit = false := by simp
      rw [← Bool.not_eq_true, isSpace_iff]
      exact fun hmem ↦ hne (hall c hmem).1 (hall c hmem).2 rfl
    rw [item_eq]
    refine Construct.leaves_firstOf_of_none
      [space, .onlyIf (!strict) JavaScript.comment, string] ?_ h
    rw [hs]
    exact front_eq_none strict hspace (hne (by decide) (by decide))
      (hne (by decide) (by decide)) s

/-- A literal name is read where no letter goes on with it. -/
theorem literalName?_append {entry : String × Kind} (hentry : entry ∈ literalNames)
    (hr : Text.startsIn JavaScript.isIdentifierPart r = false) :
    literalName? (entry.1.toList ++ r) = some (entry.1.length, entry.2) := by
  -- no literal name is the front of another one
  have hfind : literalNames.find? (fun other ↦ Text.startsWith other.1 (entry.1.toList ++ r)) =
      some entry := by
    simp only [literalNames, List.mem_cons, List.not_mem_nil, or_false] at hentry
    rcases hentry with rfl | rfl | rfl
    all_goals rfl
  have hdrop : (entry.1.toList ++ r).drop entry.1.length = r := by
    rw [← String.length_toList, List.drop_left]
  unfold literalName?
  simp only [hfind, bind, Option.bind_some, hdrop, hr]
  rfl

theorem leaves_item_literalName (strict : Bool) {entry : String × Kind}
    (hentry : entry ∈ literalNames) (hr : Text.startsIn JavaScript.isIdentifierPart r = false) :
    (item strict).Leaves [.token entry.2 entry.1.toList] r := by
  have htext : textOf [.token entry.2 entry.1.toList] = entry.1.toList := List.append_nil _
  have hfirst : ∀ entry ∈ literalNames, ∃ d, entry.1.toList.head? = some d ∧ isSpace d = false ∧
      d ≠ '/' ∧ d ≠ '"' ∧ d ≠ '-' ∧ d.isDigit = false := by
    simp [literalNames, isSpace]
  obtain ⟨d, hhead, hspace, hslash, hquote, hminus, hdigit⟩ := hfirst entry hentry
  obtain ⟨tail, htail⟩ := List.head?_eq_some_iff.1 hhead
  rw [item_eq]
  refine Construct.leaves_firstOf_of_none
    ([space, .onlyIf (!strict) JavaScript.comment, string] ++ [number]) ?_ ?_
  · rw [htext, htail, List.forall_mem_append, List.forall_mem_singleton]
    exact ⟨front_eq_none strict hspace hslash hquote _, number_eq_none hminus hdigit _⟩
  · refine ⟨[.token entry.2 entry.1.toList], ?_, rfl⟩
    rw [htext]
    unfold literalName
    simp only [literalName?_append hentry hr]
    rw [← String.length_toList]
    simp

theorem leaves_item_punctuation (strict : Bool) {kind : Kind} (h : punctuation? c = some kind)
    (r : List Char) : (item strict).Leaves [.token kind [c]] r := by
  have hmem : c ∈ "\x7b\x7d[],:".toList := by
    by_contra hother
    simp only [String.reduceToList, List.mem_cons, List.not_mem_nil, or_false, not_or] at hother
    simp [punctuation?, hother] at h
  have hall : ∀ d ∈ "\x7b\x7d[],:".toList, isSpace d = false ∧ d ≠ '/' ∧ d ≠ '"' ∧ d ≠ '-' ∧
      d.isDigit = false ∧ d ∉ "tfn".toList := by
    simp [isSpace]
  obtain ⟨hspace, hslash, hquote, hminus, hdigit, hname⟩ := hall c hmem
  rw [item_eq]
  refine Construct.leaves_firstOf_of_none
    ([space, .onlyIf (!strict) JavaScript.comment, string] ++ [number, literalName]) ?_ ?_
  · rw [List.forall_mem_append]
    refine ⟨front_eq_none strict hspace hslash hquote r, ?_⟩
    simp only [List.forall_mem_cons]
    exact ⟨number_eq_none hminus hdigit r, literalName_eq_none hname r, List.forall_mem_nil _⟩
  · refine ⟨[.token kind [c]], ?_, rfl⟩
    simp [punctuation, Piece.text, h]

/-- What an item leaves is the front of all that is read. -/
theorem alike_scan {strict : Bool} (h : (item strict).Leaves ps r) :
    Alike (scan strict (textOf ps ++ r)) (ps ++ scan strict r) := by
  obtain ⟨us, hus, rfl⟩ := h
  have hdrop : (textOf (lasting us) ++ r).drop (width us) = r := by
    rw [Piece.textOf_lasting, ← Piece.length_textOf, List.drop_left]
  have hturn := Construct.repeated_of_some (advances_item strict) (fits_item strict) hus
  rw [hdrop] at hturn
  rw [scan, hturn]
  exact (Piece.alike_lasting us).append (.refl _)

end Json

end Highlight
