import Highlight.Highlighted
import Highlight.Proofs.Coverage
import Highlight.Token.Flat
import Highlight.Text.Unicode

/-!
# Tokens as words and as records

Tokens leave the library in two forms: as words, three to a token with the number of its kind, and
as records with the short id of it. Both can be read back to the tokens they were made of, so they
say the same. Words are there only if all places fit into them, and the places of a scan fit if the
size of its source does.
-/

namespace Highlight

namespace Kind

theorem ofNumber?_eq_some_iff {n : Nat} {kind : Kind} :
    ofNumber? n = some kind ↔ kind.toNumber = n := by
  constructor
  · intro h
    obtain ⟨hn, rfl⟩ := Array.getElem?_eq_some_iff.1 h
    have hplace : ∀ n (hn : n < all.size), (all[n]).toNumber = n := by decide
    exact hplace n hn
  · rintro rfl
    exact ofNumber?_toNumber kind

theorem toNumber_lt (kind : Kind) : kind.toNumber < UInt32.size := by
  cases kind <;> decide

end Kind

namespace Flat

variable {n : Nat} {token : Token} {tokens : List Token} {words : List UInt32}

theorem word?_eq_some_iff {word : UInt32} : word? n = some word ↔ word.toNat = n := by
  unfold word?
  constructor
  · intro h
    split_ifs at h with hn
    obtain rfl := Option.some.inj h
    exact UInt32.toNat_ofNat_of_lt' hn
  · rintro rfl
    rw [if_pos word.toNat_lt, UInt32.ofNat_toNat]

theorem word?_eq_none_iff : word? n = none ↔ UInt32.size ≤ n := by
  unfold word?
  split_ifs with hn
  · exact iff_of_false (by simp) (Nat.not_le_of_lt hn)
  · exact iff_of_true rfl (Nat.le_of_not_lt hn)

theorem triple?_eq_some_iff : triple? token = some words ↔
    ∃ begin length : UInt32, begin.toNat = token.begin ∧ length.toNat = token.length ∧
      words = [begin, length, .ofNat token.kind.toNumber] := by
  simp only [triple?, bind, Option.bind_eq_some_iff, word?_eq_some_iff, pure, Option.some.injEq]
  constructor
  · rintro ⟨begin, hbegin, length, hlength, rfl⟩
    exact ⟨begin, length, hbegin, hlength, rfl⟩
  · rintro ⟨begin, length, hbegin, hlength, rfl⟩
    exact ⟨begin, hbegin, length, hlength, rfl⟩

theorem triple?_eq_none_iff :
    triple? token = none ↔ UInt32.size ≤ token.begin ∨ UInt32.size ≤ token.length := by
  rw [← word?_eq_none_iff, ← word?_eq_none_iff, triple?]
  cases word? token.begin with
  | none => simp
  | some begin =>
    cases word? token.length with
    | none => simp
    | some length => simp

theorem ofTokens?_nil : ofTokens? [] = some [] := rfl

theorem ofTokens?_cons (token : Token) (tokens : List Token) :
    ofTokens? (token :: tokens) =
      (triple? token).bind fun triple ↦ (ofTokens? tokens).map (triple ++ ·) := by
  simp only [ofTokens?, List.mapM_cons]
  cases triple? token with
  | none => rfl
  | some triple =>
    cases tokens.mapM triple? with
    | none => rfl
    | some triples => rfl

theorem ofTokens?_cons_eq_some_iff : ofTokens? (token :: tokens) = some words ↔
    ∃ triple rest, triple? token = some triple ∧ ofTokens? tokens = some rest ∧
      words = triple ++ rest := by
  simp only [ofTokens?_cons, Option.bind_eq_some_iff, Option.map_eq_some_iff]
  constructor
  · rintro ⟨triple, htriple, rest, hrest, rfl⟩
    exact ⟨triple, rest, htriple, hrest, rfl⟩
  · rintro ⟨triple, rest, htriple, hrest, rfl⟩
    exact ⟨triple, htriple, rest, hrest, rfl⟩

/-- There are no words exactly if a place does not fit. -/
theorem ofTokens?_eq_none_iff : ofTokens? tokens = none ↔
    ∃ token ∈ tokens, UInt32.size ≤ token.begin ∨ UInt32.size ≤ token.length := by
  induction tokens with
  | nil => simp [ofTokens?_nil]
  | cons token tokens ih =>
    rw [List.exists_mem_cons_iff, ← ih, ← triple?_eq_none_iff, ofTokens?_cons]
    cases triple? token with
    | none => simp
    | some triple => simp

theorem toTokens?_cons (begin length kind : UInt32) (words : List UInt32) :
    toTokens? (begin :: length :: kind :: words) =
      (Kind.ofNumber? kind.toNat).bind fun kind ↦
        (toTokens? words).map (⟨begin.toNat, length.toNat, kind⟩ :: ·) := by
  rw [toTokens?]
  cases Kind.ofNumber? kind.toNat with
  | none => rfl
  | some kind =>
    cases toTokens? words with
    | none => rfl
    | some tokens => rfl

/-- What is written can be read back. -/
theorem toTokens?_of_ofTokens? (h : ofTokens? tokens = some words) :
    toTokens? words = some tokens := by
  induction tokens generalizing words with
  | nil =>
    obtain rfl := Option.some.inj h
    rfl
  | cons token tokens ih =>
    obtain ⟨triple, rest, htriple, hrest, rfl⟩ := ofTokens?_cons_eq_some_iff.1 h
    obtain ⟨begin, length, hbegin, hlength, rfl⟩ := triple?_eq_some_iff.1 htriple
    have hkind : Kind.ofNumber? (UInt32.ofNat token.kind.toNumber).toNat = some token.kind := by
      rw [UInt32.toNat_ofNat_of_lt' token.kind.toNumber_lt, Kind.ofNumber?_toNumber]
    change toTokens? (begin :: length :: UInt32.ofNat token.kind.toNumber :: rest) = _
    rw [toTokens?_cons, hkind, ih hrest, hbegin, hlength]
    rfl

/-- What can be read is what is written. -/
theorem ofTokens?_of_toTokens? (h : toTokens? words = some tokens) :
    ofTokens? tokens = some words := by
  fun_induction toTokens? words generalizing tokens with
  | case1 =>
    obtain rfl := Option.some.inj h
    rfl
  | case2 begin length number words ih =>
    rw [← toTokens?, toTokens?_cons] at h
    obtain ⟨kind, hkind, hrest⟩ := Option.bind_eq_some_iff.1 h
    obtain ⟨rest, hwords, rfl⟩ := Option.map_eq_some_iff.1 hrest
    have hnumber : UInt32.ofNat kind.toNumber = number := by
      rw [Kind.ofNumber?_eq_some_iff.1 hkind, UInt32.ofNat_toNat]
    have htriple : triple? ⟨begin.toNat, length.toNat, kind⟩ = some [begin, length, number] :=
      triple?_eq_some_iff.2 ⟨begin, length, rfl, rfl, by rw [hnumber]⟩
    exact ofTokens?_cons_eq_some_iff.2 ⟨_, words, htriple, ih hwords, rfl⟩
  | case3 => simp at h

theorem toTokens?_eq_some_iff : toTokens? words = some tokens ↔ ofTokens? tokens = some words :=
  ⟨ofTokens?_of_toTokens?, toTokens?_of_ofTokens?⟩

end Flat

namespace Record

theorem token?_record (token : Token) : token.record.token? = some token := by
  rw [token?, Token.record, Kind.ofShortId?_shortId]
  rfl

theorem mapM_token? (tokens : List Token) :
    (tokens.map Token.record).mapM token? = some tokens := by
  induction tokens with
  | nil => rfl
  | cons token tokens ih =>
    rw [List.map_cons, List.mapM_cons, token?_record, ih]
    rfl

end Record

namespace Highlighted

variable {selector : String} {options : Options} {source : List Char} {found : Highlighted}

variable [Text.IdentifierClasses]

theorem ofSource_eq (selector : String) (options : Options) (source : List Char) :
    ofSource selector options source = do
      let language ← Language.select selector
      language.result false (language.completes options.strict source)
      return ⟨language, language.tokens options source⟩ := by
  simp only [ofSource, highlight_eq, Sink.empty, Array.empty_append]

/-- A source that was read to its end has the tokens of its scan. -/
theorem tokens_eq_of_ofSource (h : ofSource selector options source = .ok found) :
    found.tokens = found.language.tokens options source := by
  rw [ofSource_eq] at h
  cases hselect : Language.select selector with
  | error error =>
    rw [hselect] at h
    cases h
  | ok language =>
    rw [hselect] at h
    change (language.result false (language.completes options.strict source)).bind _ = _ at h
    cases hresult : language.result false (language.completes options.strict source) with
    | error error =>
      rw [hresult] at h
      cases h
    | ok _ =>
      rw [hresult] at h
      obtain rfl := Except.ok.inj h
      rfl

/-- The places of a scan fit into words if the size of the source does. -/
theorem exists_words (h : ofSource selector options source = .ok found)
    (hsize : Text.byteLength source < UInt32.size) :
    ∃ words, Flat.ofTokens? found.tokens = some words := by
  rw [← Option.ne_none_iff_exists']
  intro hnone
  obtain ⟨token, hmem, hlarge⟩ := Flat.ofTokens?_eq_none_iff.1 hnone
  rw [tokens_eq_of_ofSource h] at hmem
  have hstop := ((found.language.wellPlaced_tokens options source).placed token hmem).stop_le
  have hsum : token.stop = token.begin + token.length := rfl
  omega

end Highlighted

/-- Words and records give back the tokens that they were made of. There are words for all tokens
with places that fit, so for all tokens of a source with a size that fits, and then the words of a
scan read the same as its records do. -/
theorem flat_roundTrip [Text.IdentifierClasses] :
    (∀ tokens, Flat.ofTokens? tokens = none ↔
      ∃ token ∈ tokens, UInt32.size ≤ token.begin ∨ UInt32.size ≤ token.length) ∧
    (∀ tokens words, Flat.ofTokens? tokens = some words ↔ Flat.toTokens? words = some tokens) ∧
    ∀ selector options source found,
      Highlighted.ofSource selector options source = .ok found →
        Text.byteLength source < UInt32.size →
          ∃ words, Flat.ofTokens? found.tokens = some words ∧
            Flat.toTokens? words = found.records.mapM Record.token? ∧
            found.records.mapM Record.token? = some found.tokens := by
  refine ⟨fun tokens ↦ Flat.ofTokens?_eq_none_iff,
    fun tokens words ↦ Flat.toTokens?_eq_some_iff.symm, ?_⟩
  intro selector options source found h hsize
  obtain ⟨words, hwords⟩ := Highlighted.exists_words h hsize
  have hrecords : found.records.mapM Record.token? = some found.tokens :=
    Record.mapM_token? found.tokens
  refine ⟨words, hwords, ?_, hrecords⟩
  rw [hrecords, Flat.toTokens?_of_ofTokens? hwords]

/-- In data a text with an escape sequence leaves three tokens. -/
theorem flat_roundTrip_escape : ∃ words,
    Flat.ofTokens? [⟨0, 1, .string⟩, ⟨1, 2, .escape⟩, ⟨3, 1, .string⟩] = some words ∧
      Flat.toTokens? words = some [⟨0, 1, .string⟩, ⟨1, 2, .escape⟩, ⟨3, 1, .string⟩] := by
  obtain ⟨words, hwords, hread, hrecords⟩ := flat_roundTrip.2.2 "JSON" {} "\"\\n\"".toList
    ⟨.json, [⟨0, 1, .string⟩, ⟨1, 2, .escape⟩, ⟨3, 1, .string⟩]⟩ (by decide +kernel) (by decide)
  exact ⟨words, hwords, hread.trans hrecords⟩

end Highlight
