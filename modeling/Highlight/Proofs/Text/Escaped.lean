import Highlight.Proofs.Text.Digit
import Highlight.Text.Escaped

/-!
# Escaped text read back

Escaped text stays on one line, and the escapes in it can be undone. A character is read back from
what was written for it, whatever is written behind that, so a whole text is, although a character
may be written in one way at the front and in another further on.
-/

namespace Highlight.Text

variable {quotes : List Char} {combining : Bool} {c : Char} {s t : List Char}

def codePoint? (n : Nat) : Option Char := if n.isValidChar then some (Char.ofNat n) else none

theorem codePoint?_toNat (c : Char) : codePoint? c.toNat = some c := by
  have hvalid : c.toNat.isValidChar := c.valid
  rw [codePoint?, if_pos hvalid, Char.ofNat_toNat]

/-- The character that an escape stands for and the length of the escape, by the text behind its
backslash, which does not count. -/
def readEscape? : List Char → Option (Char × Nat)
  | '0' :: _ => some ('\x00', 1)
  | 't' :: _ => some ('\t', 1)
  | 'r' :: _ => some ('\r', 1)
  | 'n' :: _ => some ('\n', 1)
  | '\\' :: _ => some ('\\', 1)
  | '\'' :: _ => some ('\'', 1)
  | '"' :: _ => some ('"', 1)
  | 'u' :: '\x7b' :: s => do
    let digits := s.takeWhile (· != '\x7d')
    let c ← codePoint? (← number? 16 digits)
    if startsWith "\x7d" (s.drop digits.length) then some (c, digits.length + 3) else none
  | _ => none

/-- Undoes the escapes of a text behind its first `skipped` characters. -/
def unescapedFrom? : (skipped : Nat) → List Char → Option (List Char)
  | 0, [] => some []
  | _ + 1, [] => none
  | skipped + 1, _ :: s => unescapedFrom? skipped s
  | 0, c :: s =>
    if c = '\\' then do
      let (d, length) ← readEscape? s
      return d :: (← unescapedFrom? length s)
    else do
      return c :: (← unescapedFrom? 0 s)

def unescaped? (s : List Char) : Option (List Char) := unescapedFrom? 0 s

theorem unescapedFrom?_append (s t : List Char) :
    unescapedFrom? s.length (s ++ t) = unescaped? t := by
  induction s with
  | nil => rfl
  | cons c s ih => exact ih

theorem unescaped?_nil : unescaped? [] = some [] := rfl

theorem unescaped?_cons (hc : c ≠ '\\') (s : List Char) :
    unescaped? (c :: s) = (unescaped? s).map (c :: ·) := by
  simp only [unescaped?, unescapedFrom?, if_neg hc]
  cases unescapedFrom? 0 s <;> rfl

theorem unescaped?_escape (h : readEscape? (s ++ t) = some (c, s.length)) :
    unescaped? ('\\' :: (s ++ t)) = (unescaped? t).map (c :: ·) := by
  rw [unescaped?, unescapedFrom?, if_pos rfl, h]
  simp only [bind, Option.bind_some, unescapedFrom?_append]
  cases unescaped? t <;> rfl

theorem not_mem_hexDigits (hc : digitValue c = 16) (n : Nat) : c ∉ hexDigits n :=
  not_mem_toDigits (by decide) (by decide) n hc

/-- A code point that was written in hexadecimal digits is read back. -/
theorem readEscape?_codePoint (c : Char) (t : List Char) :
    readEscape? ('u' :: '\x7b' :: (hexDigits c.toNat ++ '\x7d' :: t)) =
      some (c, (hexDigits c.toNat).length + 3) := by
  have hdigits : (hexDigits c.toNat ++ '\x7d' :: t).takeWhile (· != '\x7d') =
      hexDigits c.toNat := by
    rw [List.takeWhile_append_of_pos]
    · simp
    · intro d hd
      refine bne_iff_ne.2 ?_
      rintro rfl
      exact not_mem_hexDigits (by decide) c.toNat hd
  have hnumber : number? 16 (hexDigits c.toNat) = some c.toNat :=
    number?_toDigits (by decide) (by decide) c.toNat
  have hbracket : startsWith "\x7d" ('\x7d' :: t) = true := startsWith_iff.2 (by simp)
  rw [readEscape?]
  simp only [hdigits, hnumber, codePoint?_toNat, List.drop_left, hbracket, bind, Option.bind_some,
    if_true]

theorem unescaped?_codePointEscape (c : Char) (t : List Char) :
    unescaped? (codePointEscape c ++ t) = (unescaped? t).map (c :: ·) := by
  have hlength : ('u' :: '\x7b' :: (hexDigits c.toNat ++ ['\x7d'])).length =
      (hexDigits c.toNat).length + 3 := by simp
  have hread := readEscape?_codePoint c t
  rw [← hlength] at hread
  have hescape : codePointEscape c ++ t =
      '\\' :: (('u' :: '\x7b' :: (hexDigits c.toNat ++ ['\x7d'])) ++ t) := by
    simp [codePointEscape]
  rw [hescape]
  refine unescaped?_escape ?_
  simpa using hread

/-- The letters of escapes, each with the character that it stands for. -/
def letterEscapes : List (Char × Char) := [('0', '\x00'), ('t', '\t'), ('r', '\r'), ('n', '\n')]

theorem readEscape?_letter {letter : Char} (h : (letter, c) ∈ letterEscapes) (t : List Char) :
    readEscape? (letter :: t) = some (c, 1) := by
  simp only [letterEscapes, List.mem_cons, Prod.mk.injEq, List.not_mem_nil, or_false] at h
  rcases h with ⟨rfl, rfl⟩ | ⟨rfl, rfl⟩ | ⟨rfl, rfl⟩ | ⟨rfl, rfl⟩ <;> rfl

theorem readEscape?_quote (hquotes : quotes ⊆ ['"', '\'']) (h : c = '\\' ∨ c ∈ quotes)
    (t : List Char) : readEscape? (c :: t) = some (c, 1) := by
  rcases h with rfl | hquote
  · rfl
  · have hmem := hquotes hquote
    simp only [List.mem_cons, List.not_mem_nil, or_false] at hmem
    rcases hmem with rfl | rfl <;> rfl

/-- The forms in which a character is written. -/
inductive Writes (quotes : List Char) (c : Char) : List Char → Prop
  /-- A backslash and a letter that stands for the character. -/
  | letter {letter : Char} : (letter, c) ∈ letterEscapes → Writes quotes c ['\\', letter]
  /-- A backslash and the character. -/
  | itself : c ≠ '\n' → c = '\\' ∨ c ∈ quotes → Writes quotes c ['\\', c]
  /-- The code point of the character. -/
  | codePoint : Writes quotes c (codePointEscape c)
  /-- The character alone. -/
  | plain : c ≠ '\n' → c ≠ '\\' → Writes quotes c [c]

theorem writes_escapeChar (quotes : List Char) (combining : Bool) (c : Char) :
    Writes quotes c (escapeChar quotes combining c) := by
  unfold escapeChar
  split_ifs with hnul htab hreturn hbreak hquote hcode
  · exact .letter (by simp [letterEscapes, hnul])
  · exact .letter (by simp [letterEscapes, htab])
  · exact .letter (by simp [letterEscapes, hreturn])
  · exact .letter (by simp [letterEscapes, hbreak])
  · exact .itself hbreak hquote
  · exact .codePoint
  · exact .plain hbreak fun hbackslash ↦ hquote (.inl hbackslash)

/-- What is written for a character can be read back, whatever stands behind it. -/
theorem Writes.unescaped?_append (h : Writes quotes c s) (hquotes : quotes ⊆ ['"', '\''])
    (t : List Char) : unescaped? (s ++ t) = (unescaped? t).map (c :: ·) := by
  cases h with
  | @letter letter hletter =>
    exact unescaped?_escape (s := [letter]) (readEscape?_letter hletter t)
  | itself _ hquote => exact unescaped?_escape (s := [c]) (readEscape?_quote hquotes hquote t)
  | codePoint => exact unescaped?_codePointEscape c t
  | plain _ hplain => exact unescaped?_cons hplain t

theorem Writes.break_not_mem (h : Writes quotes c s) : '\n' ∉ s := by
  cases h with
  | letter hletter =>
    have hletters : ∀ pair ∈ letterEscapes, '\n' ≠ pair.1 := by simp [letterEscapes]
    simpa using hletters _ hletter
  | itself hbreak _ => simpa using hbreak.symm
  | codePoint =>
    have hdigits : '\n' ∉ hexDigits c.toNat := not_mem_hexDigits (by decide) c.toNat
    simp [codePointEscape, hdigits]
  | plain hbreak _ => simpa using hbreak.symm

theorem unescaped?_flatMap_escapeChar (hquotes : quotes ⊆ ['"', '\'']) (combining : Bool)
    (s : List Char) : unescaped? (s.flatMap (escapeChar quotes combining)) = some s := by
  induction s with
  | nil => exact unescaped?_nil
  | cons c s ih =>
    rw [List.flatMap_cons, (writes_escapeChar quotes combining c).unescaped?_append hquotes, ih]
    rfl

/-- The plain form can be read back. -/
theorem unescaped?_escaped (s : List Char) : unescaped? (escaped s) = some s := by
  cases s with
  | nil => exact unescaped?_nil
  | cons c s =>
    have hquotes : ['"', '\''] ⊆ ['"', '\''] := List.Subset.refl _
    rw [escaped, (writes_escapeChar _ true c).unescaped?_append hquotes,
      unescaped?_flatMap_escapeChar hquotes]
    rfl

theorem break_not_mem_escaped (s : List Char) : '\n' ∉ escaped s := by
  cases s with
  | nil => exact List.not_mem_nil
  | cons c s =>
    rw [escaped, List.mem_append, List.mem_flatMap]
    rintro (hfirst | ⟨d, -, hd⟩)
    · exact (writes_escapeChar _ true c).break_not_mem hfirst
    · exact (writes_escapeChar _ false d).break_not_mem hd

end Highlight.Text
