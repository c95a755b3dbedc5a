import Highlight.Total

/-!
# Text

Source text is a list of characters. Inside a scan a length is a number of characters; what leaves
the library is measured in UTF-8 bytes, and `byteLength` leads from one to the other.
-/

namespace Highlight.Text

/-- The number of bytes the characters take in UTF-8. -/
def byteLength (s : List Char) : Nat := total Char.utf8Size s

@[simp] theorem byteLength_nil : byteLength [] = 0 := rfl

@[simp] theorem byteLength_cons (c : Char) (s : List Char) :
    byteLength (c :: s) = c.utf8Size + byteLength s := by
  simp [byteLength]

@[simp] theorem byteLength_append (s t : List Char) :
    byteLength (s ++ t) = byteLength s + byteLength t := by
  simp [byteLength]

theorem byteLength_eq_zero {s : List Char} : byteLength s = 0 ↔ s = [] := by
  cases s with
  | nil => simp
  | cons c s => simpa using fun h ↦ absurd h (Nat.ne_of_gt c.utf8Size_pos)

@[inline] def startsWith (literal : String) (s : List Char) : Bool :=
  literal.toList.isPrefixOf s

theorem startsWith_iff {literal : String} {s : List Char} :
    startsWith literal s ↔ literal.toList <+: s :=
  List.isPrefixOf_iff_prefix

@[inline] def startsIn (p : Char → Bool) (s : List Char) : Bool :=
  s.head?.any p

/-- The text after the given literal, if it begins with it. -/
def after? (literal : String) (s : List Char) : Option (List Char) :=
  if startsWith literal s then some (s.drop literal.length) else none

/-- The length of the longest beginning of the text that lies in the class. -/
def spanLength (p : Char → Bool) (s : List Char) : Nat := (s.takeWhile p).length

@[simp] theorem spanLength_nil (p : Char → Bool) : spanLength p [] = 0 := rfl

theorem spanLength_cons (p : Char → Bool) (c : Char) (s : List Char) :
    spanLength p (c :: s) = if p c then spanLength p s + 1 else 0 := by
  simp only [spanLength, List.takeWhile_cons]
  split <;> simp

theorem spanLength_le (p : Char → Bool) (s : List Char) : spanLength p s ≤ s.length :=
  (List.takeWhile_prefix p).length_le

theorem take_spanLength (p : Char → Bool) (s : List Char) :
    s.take (spanLength p s) = s.takeWhile p :=
  (List.prefix_iff_eq_take.1 (List.takeWhile_prefix p)).symm

/-- A character of the first class and as many of the second as follow it; 0 without the first. -/
def wordLength (first next : Char → Bool) : List Char → Nat
  | [] => 0
  | c :: s => if first c then 1 + spanLength next s else 0

/-- Counts on from `n` to the first place where `here` holds of the text still to come. -/
def findFrom (here : List Char → Bool) (n : Nat) : List Char → Option Nat
  | [] => if here [] then some n else none
  | c :: s => if here (c :: s) then some n else findFrom here (n + 1) s

/-- The number of characters before the first place where `here` holds of the text still to come. -/
def find? (here : List Char → Bool) (s : List Char) : Option Nat := findFrom here 0 s

theorem findFrom_eq_map (here : List Char → Bool) (n : Nat) (s : List Char) :
    findFrom here n s = (find? here s).map (n + ·) := by
  induction s generalizing n with
  | nil => by_cases h : here [] <;> simp [find?, findFrom, h]
  | cons c s ih =>
    by_cases h : here (c :: s)
    · simp [find?, findFrom, h]
    · simp only [find?, findFrom, h, if_false, Bool.false_eq_true]
      rw [ih, ih (0 + 1), Option.map_map]
      congr 1
      funext m
      simp only [Function.comp_apply]
      omega

theorem find?_nil (here : List Char → Bool) :
    find? here [] = if here [] then some 0 else none := rfl

theorem find?_cons (here : List Char → Bool) (c : Char) (s : List Char) :
    find? here (c :: s) = if here (c :: s) then some 0 else (find? here s).map (1 + ·) := by
  rw [← findFrom_eq_map, find?, findFrom]

def findLiteral? (literal : String) (s : List Char) : Option Nat := find? (startsWith literal) s

/-- The number of characters before the first one of the class. -/
def findIn? (p : Char → Bool) (s : List Char) : Option Nat := find? (startsIn p) s

/-- Whether two texts are equal once ASCII capitals are made small. -/
def sameIgnoringCase (s t : List Char) : Bool := s.map Char.toLower == t.map Char.toLower

/-- Counts on from `n` the characters that the next `bytes` bytes of the text reach into. -/
def charsFrom (n : Nat) : (bytes : Nat) → List Char → Nat
  | 0, _ => n
  | _, [] => n
  | bytes, c :: s => charsFrom (n + 1) (bytes - c.utf8Size) s

/-- The number of characters that the first `bytes` bytes of the text reach into. -/
def charsIn (bytes : Nat) (s : List Char) : Nat := charsFrom 0 bytes s

/-- The part of the text from byte `begin` up to byte `stop`. -/
def slice (s : List Char) (begin stop : Nat) : List Char :=
  let rest := s.drop (charsIn begin s)
  rest.take (charsIn (stop - begin) rest)

end Highlight.Text
