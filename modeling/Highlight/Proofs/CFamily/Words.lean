import Highlight.Proofs.CFamily.Coverage
import Highlight.Proofs.Piece.Recast
import Highlight.Proofs.Search
import Highlight.Text.Unicode

/-!
# What dialects and strict mode change

The dialect and strict mode have a say in two places only: what kind a word is, and whether there are
raw strings. The kind of a word has no influence on what is read behind it. So the scans of a text go
on in step, whichever dialect they read and however strict they are, as long as they find the same
raw strings, and their tokens differ in the kinds of words.
-/

namespace Highlight

open Piece (Recasts)

namespace CFamily

variable {dialect dialect' : Dialect} {strict strict' : Bool} {may : List Char → Kind → Kind → Prop}
  {s : List Char}

def wordKind (dialect : Dialect) (strict : Bool) (name : List Char) : Kind :=
  (keyword? dialect strict name).getD .identifier

section

variable [Text.IdentifierClasses]

/-- The words of a text may be of different kinds. -/
def WordsMay (may : List Char → Kind → Kind → Prop) (kind kind' : List Char → Kind) : Prop :=
  ∀ s : List Char, let name := s.take (identifierLength s)
    kind name = kind' name ∨ may name (kind name) (kind' name)

theorem recasts_word (h : WordsMay may (wordKind dialect strict) (wordKind dialect' strict'))
    (s : List Char) :
    Option.Rel (Recasts may) (word dialect strict s) (word dialect' strict' s) := by
  simp only [word]
  split_ifs with hempty
  · exact .none
  · refine .some (.cons ?_ .nil)
    rcases h s with hsame | hmay
    · simp only [wordKind] at hsame
      rw [hsame]
      exact .same _
    · exact .other hmay

omit [Text.IdentifierClasses] in
theorem recasts_refl (c : Construct Kind) (s : List Char) :
    Option.Rel (Recasts may) (c s) (c s) := by
  cases c s with
  | none => exact .none
  | some ps => exact .some (.refl ps)

/-- Whether a dialect has raw strings makes no difference to the text. -/
def SameRawStrings (dialect dialect' : Dialect) (s : List Char) : Prop :=
  Construct.onlyIf (dialect = .cpp) rawString s = Construct.onlyIf (dialect' = .cpp) rawString s

/-- Two ways to read code that differ in words only leave the same texts. -/
theorem recasts_code (hraw : SameRawStrings dialect dialect' s)
    (hwords : WordsMay may (wordKind dialect strict) (wordKind dialect' strict'))
    (atLineStart : Bool) :
    Option.Rel (Recasts may) (code dialect strict atLineStart s)
      (code dialect' strict' atLineStart s) := by
  have hsame (c : Construct Kind) :
      Option.Rel (Recasts may) (c s) (c s) ∧ c.trail s = c.trail s := ⟨recasts_refl c s, rfl⟩
  have hrawStrings : Option.Rel (Recasts may) (Construct.onlyIf (dialect = .cpp) rawString s)
      (Construct.onlyIf (dialect' = .cpp) rawString s) := by
    rw [hraw]
    exact recasts_refl _ s
  have htrail (dialect : Dialect) :
      (Construct.onlyIf (decide (dialect = .cpp)) rawString).trail s = [] := by
    cases dialect <;> rfl
  apply Construct.recasts_firstOf
  refine .cons (hsame _) (.cons ⟨hrawStrings, by rw [htrail, htrail]⟩ (.cons (hsame _)
    (.cons (hsame _) (.cons ⟨recasts_word hwords s, rfl⟩ (.cons (hsame _) (.cons (hsame _) .nil))))))

/-- Two ways to read items that differ in words only go on in the same state. -/
theorem recasts_item (hraw : SameRawStrings dialect dialect' s)
    (hwords : WordsMay may (wordKind dialect strict) (wordKind dialect' strict'))
    (atLineStart : Bool) :
    StepRecasts may (item dialect strict atLineStart s) (item dialect' strict' atLineStart s) := by
  have hpassed (text : List Char) (next : Bool) :
      StepRecasts may (some ([.gap text], next)) (some ([.gap text], next)) :=
    .some ⟨.refl _, rfl⟩
  unfold item
  simp only
  split_ifs
  · exact hpassed _ _
  · exact hpassed _ _
  · cases comment s with
    | some ps => exact .some ⟨.refl ps, rfl⟩
    | none =>
      have hcode := recasts_code hraw hwords atLineStart
      generalize code dialect strict atLineStart s = found at hcode
      generalize code dialect' strict' atLineStart s = found' at hcode
      cases hcode with
      | none => exact .none
      | some hpieces => exact .some ⟨hpieces, rfl⟩

/-- Scans that find the same raw strings differ in the kinds of words only. -/
theorem recasts_scan (hraw : ∀ n, SameRawStrings dialect dialect' (s.drop n))
    (hwords : WordsMay may (wordKind dialect strict) (wordKind dialect' strict')) :
    Recasts may (scan dialect strict s) (scan dialect' strict' s) :=
  recasts_run (advances_item dialect strict) (fun n ↦ recasts_item (hraw n) hwords) true

/-- The tables that are searched outside strict mode only. -/
def addedTables : Dialect → List Keywords
  | .c => [extensionKeywords]
  | .cpp => [cOnlyKeywords, extensionKeywords]

omit [Text.IdentifierClasses] in
theorem keywordTables_false (dialect : Dialect) :
    keywordTables dialect false = keywordTables dialect true ++ addedTables dialect := by
  cases dialect <;> rfl

omit [Text.IdentifierClasses] in
/-- Outside strict mode the added tables are asked for the words that strict mode does not know. -/
theorem keyword?_false (dialect : Dialect) (name : List Char) :
    keyword? dialect false name =
      (keyword? dialect true name).or ((addedTables dialect).findSome? (·.kind? name)) := by
  rw [keyword?, keywordTables_false, List.findSome?_append]
  rfl

/-- Strict mode takes the word for an identifier, and otherwise a table that only the other mode
searches has it with its kind. -/
def IsAdded (name : List Char) (strictKind kind : Kind) : Prop :=
  strictKind = .identifier ∧
    ((String.ofList name, kind) ∈ cOnlyKeywords ∨ (String.ofList name, kind) ∈ extensionKeywords)

/-- Outside strict mode only words of the added tables are of another kind. -/
theorem wordsMay_isAdded (dialect : Dialect) :
    WordsMay IsAdded (wordKind dialect true) (wordKind dialect false) := by
  intro s name
  simp only [wordKind, keyword?_false]
  cases keyword? dialect true name with
  | some kind => exact .inl rfl
  | none =>
    rw [Option.none_or]
    cases hadded : (addedTables dialect).findSome? (·.kind? name) with
    | none => exact .inl rfl
    | some kind =>
      refine .inr ⟨rfl, ?_⟩
      obtain ⟨table, htable, hkind⟩ := List.exists_of_findSome?_eq_some hadded
      have hmem := Keywords.mem_of_kind? hkind
      cases dialect with
      | c =>
        obtain rfl := List.mem_singleton.1 htable
        exact .inr hmem
      | cpp =>
        rcases List.mem_cons.1 htable with rfl | htable
        · exact .inl hmem
        · obtain rfl := List.mem_singleton.1 htable
          exact .inr hmem

def IsIdentifier (text : List Char) (_ _ : Kind) : Prop := identifierLength text = text.length

theorem wordsMay_isIdentifier (kind kind' : List Char → Kind) :
    WordsMay IsIdentifier kind kind' := by
  intro s name
  refine .inr ?_
  have hgreedy := Text.greedy_wordLength isIdentifierStart isIdentifierPart
  have hagain : identifierLength name = identifierLength s := hgreedy.selfDelimiting.again s
  rw [IsIdentifier, hagain, List.length_take]
  exact (Nat.min_eq_left (hgreedy.le s)).symm

end

theorem rawStringLength_eq_zero (h : ¬ "R\"".toList <:+: s) : rawStringLength s = 0 := by
  have hopenings : ∀ opening ∈ rawOpenings, "R\"".toList <:+ opening.toList := by decide
  unfold rawStringLength
  cases hfind : rawOpenings.find? (Text.startsWith · s) with
  | none => rfl
  | some opening =>
    have hstart := Text.startsWith_iff.1
      (List.find?_some (p := fun o ↦ Text.startsWith o s) hfind)
    have hmem := List.mem_of_find?_eq_some hfind
    exact absurd ((hopenings opening hmem).isInfix.trans hstart.isInfix) h

theorem sameRawStrings_of_not_infix (h : ¬ "R\"".toList <:+: s) (dialect dialect' : Dialect)
    (n : Nat) : SameRawStrings dialect dialect' (s.drop n) := by
  have hnone : rawString (s.drop n) = none := by
    apply Construct.measured_of_eq_zero
    exact rawStringLength_eq_zero fun hopen ↦ h (hopen.trans (List.drop_suffix n s).isInfix)
  have heach (dialect : Dialect) :
      Construct.onlyIf (decide (dialect = .cpp)) rawString (s.drop n) = none := by
    cases dialect with
    | c => rfl
    | cpp => exact hnone
  rw [SameRawStrings, heach, heach]

end CFamily

theorem forall₂_recast_highlight [Text.IdentifierClasses]
    {dialect dialect' : CFamily.Dialect} {strict strict' : Bool}
    {may : List Char → Kind → Kind → Prop} {language language' : Language}
    (hscan : language.scan = CFamily.scan dialect) (hscan' : language'.scan = CFamily.scan dialect')
    {source : List Char} (h : Recasts may (CFamily.scan dialect strict source)
      (CFamily.scan dialect' strict' source)) (sink : Sink) :
    List.Forall₂ (Token.Recast source may)
      (highlight language { coalescing := false, strict } source sink).1.currentScan.toList
      (highlight language' { coalescing := false, strict := strict' } source
        sink).1.currentScan.toList := by
  have htokens := h.tokens [] []
  rw [(CFamily.covers_scan dialect strict source).textOf_eq, List.nil_append, List.append_nil]
    at htokens
  rw [currentScan_highlight_plain, currentScan_highlight_plain, hscan, hscan']
  exact htokens

/-- Strict mode and the dialect change nothing about C and C++ but the kinds of words: strict mode
takes words that a table adds otherwise for identifiers, and unless there may be a raw string, the
scans of the two dialects differ only at tokens that are identifiers as a whole. -/
theorem highlight_words [Text.IdentifierClasses] (source : List Char) (sink : Sink) :
    let tokens language strict :=
      (highlight language { coalescing := false, strict } source sink).1.currentScan.toList
    (∀ language ∈ [Language.c, Language.cpp],
      List.Forall₂ (Token.Recast source CFamily.IsAdded)
        (tokens language true) (tokens language false)) ∧
    (¬ "R\"".toList <:+: source → ∀ strict strict',
      List.Forall₂ (Token.Recast source CFamily.IsIdentifier)
        (tokens .c strict) (tokens .cpp strict')) := by
  refine ⟨fun language hlanguage ↦ ?_, fun hraw strict strict' ↦ ?_⟩
  · obtain ⟨dialect, hscan⟩ := exists_dialect hlanguage
    have hpieces : Recasts CFamily.IsAdded (CFamily.scan dialect true source)
        (CFamily.scan dialect false source) :=
      CFamily.recasts_scan (fun _ ↦ rfl) (CFamily.wordsMay_isAdded dialect)
    exact forall₂_recast_highlight hscan hscan hpieces sink
  · have hpieces : Recasts CFamily.IsIdentifier (CFamily.scan .c strict source)
        (CFamily.scan .cpp strict' source) :=
      CFamily.recasts_scan (CFamily.sameRawStrings_of_not_infix hraw .c .cpp)
        (CFamily.wordsMay_isIdentifier _ _)
    exact forall₂_recast_highlight rfl rfl hpieces sink

/-- A word that C++ adds outside strict mode, and that C always has. -/
theorem highlight_words_restrict :
    let source := "restrict".toList
    let tokens language strict :=
      (highlight language { coalescing := false, strict } source .empty).1.currentScan.toList
    List.Forall₂ (Token.Recast source CFamily.IsAdded) (tokens .cpp true) (tokens .cpp false) ∧
      List.Forall₂ (Token.Recast source CFamily.IsIdentifier) (tokens .c true) (tokens .cpp true) ∧
      tokens .cpp true = [⟨0, 8, .identifier⟩] ∧ tokens .cpp false = [⟨0, 8, .keyword⟩] :=
  ⟨(highlight_words "restrict".toList .empty).1 .cpp (by decide),
    (highlight_words "restrict".toList .empty).2 (by decide) true true, by decide +kernel,
    by decide +kernel⟩

end Highlight
