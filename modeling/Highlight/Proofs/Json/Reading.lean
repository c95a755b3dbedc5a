import Highlight.Json.Scan
import Highlight.Proofs.JavaScript.Comment
import Highlight.Proofs.Json.Grammar
import Highlight.Proofs.Text.Front

/-!
# Reading JSON piece by piece

The second pass over a string, escape by escape, ends where the first pass has found its end, so
that the pieces of a string cover exactly the string. Every construct of JSON fits the text it
reads, and there is one that advances at every character.
-/

namespace Highlight.Json

open Piece (Covers width)

@[simp]
theorem stringExtentFrom_quote (n : Nat) (s : List Char) :
    stringExtentFrom n ('"' :: s) = ⟨n + 1, true⟩ := by
  rw [stringExtentFrom.eq_def]
  simp

theorem stringExtentFrom_lineEnd (n : Nat) {c : Char} (s : List Char) (hc : isLineEnd c) :
    stringExtentFrom n (c :: s) = ⟨n, false⟩ := by
  have hquote : c ≠ '"' := by
    rintro rfl
    exact absurd hc (by decide)
  rw [stringExtentFrom.eq_def]
  simp [hquote, hc]

@[simp]
theorem stringExtentFrom_backslash (n : Nat) : stringExtentFrom n ['\\'] = ⟨n + 1, false⟩ := by
  simp [stringExtentFrom, isLineEnd]

theorem stringExtentFrom_brokenEscape (n : Nat) {d : Char} (s : List Char) (hd : isLineEnd d) :
    stringExtentFrom n ('\\' :: d :: s) = ⟨n + 1, false⟩ := by
  have hbackslash : isLineEnd '\\' = false := by decide
  rw [stringExtentFrom.eq_def]
  simp [hbackslash, hd]

theorem stringExtentFrom_escape (n : Nat) {d : Char} (s : List Char) (hd : isLineEnd d = false) :
    stringExtentFrom n ('\\' :: d :: s) = stringExtentFrom (n + 2) s := by
  have hbackslash : isLineEnd '\\' = false := by decide
  rw [stringExtentFrom.eq_def]
  simp [hbackslash, hd]

theorem stringExtentFrom_plain (n : Nat) {c : Char} (s : List Char) (hquote : c ≠ '"')
    (hend : isLineEnd c = false) (hbackslash : c ≠ '\\') :
    stringExtentFrom n (c :: s) = stringExtentFrom (n + 1) s := by
  rw [stringExtentFrom.eq_def]
  simp [hquote, hend, hbackslash]

theorem length_stringExtentFrom_add (m n : Nat) (s : List Char) :
    (stringExtentFrom (m + n) s).length = m + (stringExtentFrom n s).length := by
  fun_induction stringExtentFrom n s with
  | case1 n => simp [stringExtentFrom]
  | case2 n s => simp; omega
  | case3 n c s hquote hend => simp [stringExtentFrom_lineEnd _ _ hend]
  | case4 n _ _ => simp; omega
  | case5 n d rest hd _ _ => rw [stringExtentFrom_brokenEscape _ _ hd]; simp; omega
  | case6 n d rest hd _ _ ih =>
    rw [stringExtentFrom_escape _ _ (by simpa using hd), Nat.add_assoc, ih]
  | case7 n c s hquote hend hbackslash ih =>
    rw [stringExtentFrom_plain _ _ hquote (by simpa using hend) hbackslash, Nat.add_assoc, ih]

theorem length_stringExtentFrom (n : Nat) (s : List Char) :
    (stringExtentFrom n s).length = n + (stringExtentFrom 0 s).length :=
  length_stringExtentFrom_add n 0 s

/-- A character of a string that neither ends it nor protects the one behind it. -/
def IsPlain (c : Char) : Prop := c ≠ '"' ∧ isLineEnd c = false ∧ c ≠ '\\'

/-- The end of a string cannot be missed over plain characters. -/
theorem stringExtentFrom_append {part : List Char} (hpart : ∀ c ∈ part, IsPlain c) (n : Nat)
    (s : List Char) : stringExtentFrom n (part ++ s) = stringExtentFrom (n + part.length) s := by
  induction part generalizing n with
  | nil => rfl
  | cons c part ih =>
    obtain ⟨⟨hquote, hend, hbackslash⟩, hpart⟩ := List.forall_mem_cons.1 hpart
    calc
      _ = stringExtentFrom (n + 1) (part ++ s) := stringExtentFrom_plain _ _ hquote hend hbackslash
      _ = stringExtentFrom (n + 1 + part.length) s := ih hpart (n + 1)
      _ = stringExtentFrom (n + (c :: part).length) s := by
        rw [List.length_cons, Nat.add_assoc, Nat.add_comm 1]

theorem le_length_stringExtentFrom (s : List Char) :
    (stringExtentFrom 0 s).length ≤ s.length := by
  have hle (n : Nat) : (stringExtentFrom n s).length ≤ n + s.length := by
    fun_induction stringExtentFrom n s with
    | case1 n => simp
    | case2 n s => simp only [List.length_cons]; omega
    | case3 n c s _ _ => simp only [List.length_cons]; omega
    | case4 n _ _ => simp
    | case5 n d rest _ _ _ => simp only [List.length_cons]; omega
    | case6 n d rest _ _ _ ih => simp only [List.length_cons] at ih ⊢; omega
    | case7 n c s _ _ _ ih => simp only [List.length_cons] at ih ⊢; omega
  simpa using hle 0

theorem isEscapable_iff {c : Char} : isEscapable c ↔ c ∈ "\"\\/bfnrt".toList := by
  simp [isEscapable, or_assoc]

/-- A class without the line ends has only characters that end no line. -/
theorem isLineEnd_eq_false {p : Char → Bool} {c : Char} (hc : p c) (hfeed : p '\n' = false)
    (hreturn : p '\r' = false) : isLineEnd c = false := by
  rw [Bool.eq_false_iff]
  intro hend
  rcases by simpa [isLineEnd] using hend with rfl | rfl
  · exact absurd hc (Bool.eq_false_iff.1 hfeed)
  · exact absurd hc (Bool.eq_false_iff.1 hreturn)

theorem isLineEnd_of_isEscapable {c : Char} (hc : isEscapable c) : isLineEnd c = false :=
  isLineEnd_eq_false hc (by decide) (by decide)

theorem isPlain_of_isHexDigit {c : Char} (hc : Text.isHexDigit c) : IsPlain c := by
  refine ⟨?_, ?_, ?_⟩
  · rintro rfl
    exact absurd hc (by decide)
  · exact isLineEnd_eq_false hc (by decide) (by decide)
  · rintro rfl
    exact absurd hc (by decide)

theorem escapeLength_append {escape : List Char} (h : Grammar.Escape escape) (r : List Char) :
    escapeLength (escape ++ r) = escape.length := by
  cases h with
  | @short c hc =>
    rw [List.cons_append, List.cons_append, escapeLength, if_pos (isEscapable_iff.2 hc)]
    rfl
  | @code digits hlength hdigits =>
    have htake : (digits ++ r).take 4 = digits := by rw [← hlength, List.take_left]
    have hspan : Text.spanLength Text.isHexDigit (digits ++ []) = digits.length :=
      Text.spanLength_append_iff.2 ⟨hdigits, rfl⟩
    rw [List.append_nil, hlength] at hspan
    rw [List.cons_append, List.cons_append, escapeLength, if_neg (by decide), htake,
      if_pos ⟨rfl, hspan⟩, List.length_cons, List.length_cons, hlength]

/-- What is measured as an escape is one. -/
theorem escape_of_escapeLength {s : List Char} (h : escapeLength s ≠ 0) :
    ∃ escape r, s = escape ++ r ∧ Grammar.Escape escape ∧ escapeLength s = escape.length := by
  unfold escapeLength at h
  split at h
  · next c s =>
    rw [escapeLength]
    split_ifs at h ⊢ with hone hfour
    · exact ⟨['\\', c], s, rfl, .short (isEscapable_iff.1 hone), rfl⟩
    · obtain ⟨rfl, hfour⟩ := hfour
      have hdigits : ∀ d ∈ s.take 4, Text.isHexDigit d := by
        have hspan := Text.forall_mem_take_spanLength (p := Text.isHexDigit) (s := s.take 4)
        rwa [hfour, List.take_take] at hspan
      have hlength : (s.take 4).length = 4 := by
        have hle := Text.spanLength_le Text.isHexDigit (s.take 4)
        have hfront := List.length_take_le 4 s
        omega
      refine ⟨'\\' :: 'u' :: s.take 4, s.drop 4, ?_, .code hlength hdigits, ?_⟩
      · rw [List.cons_append, List.cons_append, List.take_append_drop]
      · rw [List.length_cons, List.length_cons, hlength]
    · exact absurd rfl h
  · exact absurd rfl h

/-- An escape that JSON knows does not hide the end of a string. -/
theorem stringExtentFrom_escape_append {escape : List Char} (h : Grammar.Escape escape) (n : Nat)
    (s : List Char) :
    stringExtentFrom n (escape ++ s) = stringExtentFrom (n + escape.length) s := by
  cases h with
  | short hc =>
    exact stringExtentFrom_escape n s (isLineEnd_of_isEscapable (isEscapable_iff.2 hc))
  | @code digits hlength hdigits =>
    calc
      _ = stringExtentFrom (n + 2) (digits ++ s) := stringExtentFrom_escape n _ (by decide)
      _ = stringExtentFrom (n + 2 + digits.length) s :=
        stringExtentFrom_append (fun c hc ↦ isPlain_of_isHexDigit (hdigits c hc)) _ _
      _ = stringExtentFrom (n + ('\\' :: 'u' :: digits).length) s := by
        rw [List.length_cons, List.length_cons, Nat.add_assoc, Nat.add_comm 2]

/-- How the second pass shows a backslash with what it protects. -/
inductive ShownEscape : Kind → List Char → Prop
  | known {escape : List Char} : Grammar.Escape escape → ShownEscape .escape escape
  | unknown {c : Char} : isLineEnd c = false → ShownEscape .error ['\\', c]

theorem ShownEscape.length_pos {label : Kind} {text : List Char} (h : ShownEscape label text) :
    0 < text.length := by
  cases h with
  | known hescape => cases hescape <;> exact Nat.succ_pos _
  | unknown _ => exact Nat.succ_pos _

/-- An escape, known or not, ends within the string. -/
theorem exists_shownEscape {left : Nat} {s : List Char} (hleft : left ≠ 0)
    (hextent : left + 1 = (stringExtentFrom 0 ('\\' :: s)).length) :
    let known := escapeLength ('\\' :: s)
    ∃ text rest, '\\' :: s = text ++ rest ∧ text.length = (if known = 0 then 2 else known) ∧
      ShownEscape (if known = 0 then .error else .escape) text ∧
      left + 1 = text.length + (stringExtentFrom 0 rest).length := by
  intro known
  by_cases hknown : known = 0
  · rw [if_pos hknown, if_pos hknown]
    cases s with
    | nil =>
      rw [stringExtentFrom_backslash] at hextent
      exact absurd (Nat.succ.inj hextent) hleft
    | cons d s =>
      cases hd : isLineEnd d with
      | true =>
        rw [stringExtentFrom_brokenEscape _ _ hd] at hextent
        exact absurd (Nat.succ.inj hextent) hleft
      | false =>
        rw [stringExtentFrom_escape _ _ hd, length_stringExtentFrom] at hextent
        exact ⟨['\\', d], s, rfl, rfl, .unknown hd, hextent⟩
  · rw [if_neg hknown, if_neg hknown]
    obtain ⟨escape, rest, hs, hescape, hlength⟩ := escape_of_escapeLength hknown
    rw [hs, stringExtentFrom_escape_append hescape, length_stringExtentFrom,
      Nat.zero_add] at hextent
    exact ⟨escape, rest, hs, hlength.symm, .known hescape, hextent⟩

/-- Behind a character that begins no escape the inside of a string is one character shorter. -/
theorem left_of_not_escape {left : Nat} {c : Char} {s : List Char}
    (hescape : ¬(c = '\\' ∧ left ≠ 0)) (hextent : left + 1 = (stringExtentFrom 0 (c :: s)).length) :
    isLineEnd c = false ∧ (left = 0 ∨ left = (stringExtentFrom 0 s).length) := by
  by_cases hquote : c = '"'
  · subst hquote
    rw [stringExtentFrom_quote] at hextent
    exact ⟨by decide, .inl (Nat.succ.inj hextent)⟩
  cases hend : isLineEnd c with
  | true =>
    rw [stringExtentFrom_lineEnd _ _ hend] at hextent
    exact absurd hextent (Nat.succ_ne_zero left)
  | false =>
    refine ⟨rfl, ?_⟩
    by_cases hbackslash : c = '\\'
    · exact .inl (by simpa [hbackslash] using hescape)
    · rw [stringExtentFrom_plain _ _ hquote hend hbackslash, length_stringExtentFrom] at hextent
      exact .inr (by omega)

/-- The pieces before the running stretch do not matter. -/
theorem stringPartsFrom_eq (kind : Kind) (done : List (Piece Kind)) (part : List Char) (left : Nat)
    (s : List Char) : stringPartsFrom kind done part left s =
      done.reverse ++ stringPartsFrom kind [] part left s := by
  induction left using Nat.strongRecOn generalizing done part s with
  | ind left ih =>
    cases left with
    | zero => simp [stringPartsFrom]
    | succ left =>
      cases s with
      | nil => simp [stringPartsFrom]
      | cons c rest =>
        rw [stringPartsFrom, stringPartsFrom]
        split_ifs with hescape
        · simp only
          generalize hn : (if escapeLength (c :: rest) = 0 then 2
            else escapeLength (c :: rest)) = n
          have hlt : left + 1 - n < left + 1 := by
            split at hn <;> omega
          rw [ih _ hlt, ih _ hlt (.token _ _ :: (_ ++ []))]
          simp
        · exact ih left (Nat.lt_succ_self left) done (c :: part) rest

/-- What holds at the end of a string, and passes over its plain characters and over its escapes,
holds of all that the second pass reads where it goes as far as the first one. -/
theorem stringPartsFrom_induction {kind : Kind}
    {motive : List Char → Nat → List Char → List (Piece Kind) → Prop}
    (ends : ∀ part s, motive part 0 s (Piece.shown kind part.reverse))
    (plain : ∀ part left c s ps, isLineEnd c = false → motive (c :: part) left s ps →
      motive part (left + 1) (c :: s) ps)
    (escape : ∀ part left label text s ps, ShownEscape label text → motive [] left s ps →
      motive part (text.length + left) (text ++ s)
        (Piece.shown kind part.reverse ++ .token label text :: ps))
    (part : List Char) {left : Nat} {s : List Char}
    (hleft : left = 0 ∨ left = (stringExtentFrom 0 s).length) :
    motive part left s (stringPartsFrom kind [] part left s) := by
  induction left using Nat.strongRecOn generalizing part s with
  | ind left ih =>
    cases left with
    | zero =>
      rw [stringPartsFrom]
      exact ends part s
    | succ left =>
      have hextent := hleft.resolve_left (Nat.succ_ne_zero left)
      cases s with
      | nil => exact absurd hextent (Nat.succ_ne_zero left)
      | cons c rest =>
        rw [stringPartsFrom]
        split_ifs with hescape
        · obtain ⟨rfl, hne⟩ := hescape
          obtain ⟨text, behind, hs, hlength, hshown, hbehind⟩ := exists_shownEscape hne hextent
          simp only
          rw [stringPartsFrom_eq, ← hlength, hs, List.take_left, List.drop_left]
          have hrest : left + 1 - text.length = (stringExtentFrom 0 behind).length := by omega
          have hpos := hshown.length_pos
          have hind := ih (left + 1 - text.length) (by omega) [] (.inr hrest)
          have hstep := escape part _ _ text behind _ hshown hind
          have hsum : text.length + (left + 1 - text.length) = left + 1 := by omega
          rw [hsum, hs] at hstep
          simpa using hstep
        · obtain ⟨hend, hrest⟩ := left_of_not_escape hescape hextent
          exact plain part left c rest _ hend (ih left (Nat.lt_succ_self left) (c :: part) hrest)

theorem stringExtent_of_ne_zero {s : List Char} (h : (stringExtent s).length ≠ 0) :
    ∃ rest, s = '"' :: rest ∧
      (stringExtent s).length = 1 + (stringExtentFrom 0 rest).length := by
  cases s with
  | nil => exact absurd rfl h
  | cons c rest =>
    by_cases hc : c = '"'
    · subst hc
      exact ⟨rest, rfl, length_stringExtentFrom 1 rest⟩
    · simp [stringExtent, hc] at h

theorem hasRoom_stringExtent : Text.HasRoom 1 fun s ↦ (stringExtent s).length := by
  intro s
  by_cases h : (stringExtent s).length = 0
  · exact .inl h
  · obtain ⟨rest, rfl, hlength⟩ := stringExtent_of_ne_zero h
    have hle := le_length_stringExtentFrom rest
    simp only [hlength, List.length_cons]
    omega

/-- The second pass over a string covers what the first pass has measured. -/
theorem covers_stringPartsFrom (kind : Kind) (part : List Char) {left : Nat} {s : List Char}
    (hleft : left = 0 ∨ left = (stringExtentFrom 0 s).length) :
    Covers (stringPartsFrom kind [] part left s) (part.reverse ++ s.take left) := by
  refine stringPartsFrom_induction
    (motive := fun part left s ps ↦ Covers ps (part.reverse ++ s.take left)) ?_ ?_ ?_ part hleft
  · intro part s
    rw [List.take_zero, List.append_nil]
    exact Piece.covers_shown _ _
  · intro part left c s ps _ hind
    rw [List.reverse_cons, List.append_assoc] at hind
    exact hind
  · intro part left label text s ps _ hind
    rw [List.take_length_add_append]
    exact (Piece.covers_shown _ _).append ((Piece.covers_token _ _).append hind)

/-- The second pass begins behind the opening quote, which belongs to the first part. -/
theorem stringParts_eq (kind : Kind) {s : List Char} (h : (stringExtent s).length ≠ 0) :
    ∃ rest, s = '"' :: rest ∧ (stringExtent s).length = (stringExtentFrom 0 rest).length + 1 ∧
      stringParts kind (stringExtent s).length s =
        stringPartsFrom kind [] ['"'] (stringExtentFrom 0 rest).length rest := by
  obtain ⟨rest, rfl, hlength⟩ := stringExtent_of_ne_zero h
  have hquote : ¬(('"' : Char) = '\\' ∧ (stringExtentFrom 0 rest).length ≠ 0) :=
    fun hescape ↦ absurd hescape.1 (by decide)
  rw [Nat.add_comm] at hlength
  refine ⟨rest, rfl, hlength, ?_⟩
  rw [hlength, stringParts, stringPartsFrom, if_neg hquote]

/-- A string is covered by its pieces. -/
theorem covers_stringParts (kind : Kind) {s : List Char} (h : (stringExtent s).length ≠ 0) :
    Covers (stringParts kind (stringExtent s).length s) (s.take (stringExtent s).length) := by
  obtain ⟨rest, rfl, hlength, hparts⟩ := stringParts_eq kind h
  rw [hparts, hlength, List.take_succ_cons]
  exact covers_stringPartsFrom kind ['"'] (.inr rfl)

theorem covers_string {s : List Char} {ps : List (Piece Kind)} (h : string s = some ps) :
    (stringExtent s).length ≠ 0 ∧ Covers ps (s.take (stringExtent s).length) := by
  unfold string at h
  simp only at h
  split_ifs at h with hn
  obtain rfl := Option.some.inj h
  exact ⟨hn, covers_stringParts _ hn⟩

@[simp]
theorem fits_string : string.Fits :=
  Construct.fits_of_covers (fun _ _ ↦ covers_string) fun _ ↦ rfl

theorem advances_string : string.Advances :=
  Construct.advances_of_covers (fun _ _ ↦ covers_string) hasRoom_stringExtent.length_nil

section

variable [Text.IdentifierClasses]

theorem prefix_of_literalName? {s : List Char} {n : Nat} {kind : Kind}
    (h : literalName? s = some (n, kind)) : ∃ entry ∈ literalNames, n = entry.1.length ∧
      kind = entry.2 ∧ entry.1.toList <+: s := by
  unfold literalName? at h
  simp only [bind, Option.bind_eq_some_iff] at h
  obtain ⟨⟨name, label⟩, hfind, hname⟩ := h
  split_ifs at hname
  obtain ⟨rfl, rfl⟩ := Prod.mk.inj (Option.some.inj hname)
  exact ⟨_, List.mem_of_find?_eq_some hfind, rfl, rfl,
    Text.startsWith_iff.1 (by simpa using List.find?_some hfind)⟩

theorem literalName_eq_some {s : List Char} {ps : List (Piece Kind)} (h : literalName s = some ps) :
    ∃ n kind, literalName? s = some (n, kind) ∧ ps = [.token kind (s.take n)] := by
  unfold literalName at h
  simp only [bind, Option.bind_eq_some_iff, pure] at h
  obtain ⟨⟨n, kind⟩, hname, hps⟩ := h
  exact ⟨n, kind, hname, (Option.some.inj hps).symm⟩

@[simp]
theorem fits_literalName : literalName.Fits := by
  apply Construct.fits_of_read fun _ ↦ rfl
  intro s ps h
  obtain ⟨n, kind, -, rfl⟩ := literalName_eq_some h
  exact Construct.fits_take _ _ s

theorem advances_literalName : literalName.Advances := by
  intro s ps h
  obtain ⟨n, kind, hname, rfl⟩ := literalName_eq_some h
  obtain ⟨entry, hentry, rfl, -, hfront⟩ := prefix_of_literalName? hname
  have hpos : ∀ entry ∈ literalNames, 0 < entry.1.length := by decide
  have hle := hfront.length_le
  rw [String.length_toList] at hle
  simp only [Piece.width_cons, Piece.width_nil, Piece.text, List.length_take]
  have := hpos entry hentry
  omega

end

theorem punctuation_eq_some {s : List Char} {ps : List (Piece Kind)}
    (h : punctuation s = some ps) :
    ∃ c rest kind, s = c :: rest ∧ punctuation? c = some kind ∧ ps = [.token kind [c]] := by
  unfold punctuation at h
  simp only [bind, Option.bind_eq_some_iff, pure] at h
  obtain ⟨c, hc, kind, hkind, hps⟩ := h
  obtain ⟨rest, rfl⟩ := List.head?_eq_some_iff.1 hc
  exact ⟨c, rest, kind, rfl, hkind, (Option.some.inj hps).symm⟩

@[simp]
theorem fits_punctuation : punctuation.Fits := by
  apply Construct.fits_of_read fun _ ↦ rfl
  intro s ps h
  obtain ⟨c, rest, kind, rfl, -, rfl⟩ := punctuation_eq_some h
  exact (Piece.fits_token _ _ _).2 (List.prefix_append [c] rest)

theorem advances_punctuation : punctuation.Advances := by
  intro s ps h
  obtain ⟨c, rest, kind, rfl, -, rfl⟩ := punctuation_eq_some h
  simp [Piece.text]

variable [Text.IdentifierClasses]

/-! ## Texts -/

theorem fits_item (strict : Bool) : (item strict).Fits :=
  Construct.fits_firstOf (by simp [Construct.fits_onlyIf])

theorem advances_item (strict : Bool) : (item strict).Advances := by
  apply Construct.advances_firstOf
  simp only [List.forall_mem_cons]
  exact ⟨Construct.advances_skipSome rfl, Construct.advances_onlyIf JavaScript.advances_comment,
    advances_string, Construct.advances_measured rfl, advances_literalName, advances_punctuation,
    Construct.advances_measured rfl, List.forall_mem_nil _⟩

/-- Whatever is no other item is an error. -/
theorem isSome_item (strict : Bool) (c : Char) (s : List Char) : (item strict (c :: s)).isSome := by
  have hjunk : junkLength (c :: s) ≠ 0 := by
    rw [junkLength]
    omega
  have hlast : (Construct.measured Kind.error junkLength (c :: s)).isSome :=
    Construct.isSome_measured hjunk
  exact Construct.isSome_firstOf (by simp) hlast

/-- A text is covered by its pieces. -/
theorem covers_scan (strict : Bool) (s : List Char) : Covers (scan strict s) s :=
  Construct.covers_repeated (fits_item strict) (advances_item strict) (isSome_item strict) s

end Highlight.Json
