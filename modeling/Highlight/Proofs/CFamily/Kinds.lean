import Highlight.Proofs.CFamily.Ending
import Highlight.Proofs.Piece.View
import Highlight.Proofs.Search
import Highlight.Text.Unicode

/-!
# What the kind of a token says in C and C++

The forms of code are tried in a fixed order, and each of them shows kinds of its own. So the kind
of a token tells which form was found, and the text of the token is all that this form takes:
numbers and words go on as far as they can, and an operator is one of the table. An error is a
character at which none of the other forms was found, which rules out every character that would
begin one.
-/

namespace Highlight

open Piece (textOf width)

namespace CFamily

variable {dialect : Dialect} {strict atLineStart next : Bool} {s : List Char}
  {ps : List (Piece Kind)}

/-- A character that belongs to the number in front of it, whatever that is. -/
def isNumberPart (c : Char) : Bool := isWordChar c || c == '.'

/-- A number ends in front of a character that does not belong to it. -/
theorem exists_numberLengthFrom (n : Nat) (s : List Char) :
    ∃ m, numberLengthFrom n s = n + m ∧ Text.startsIn isNumberPart (s.drop m) = false := by
  fun_induction numberLengthFrom n s with
  | case1 n => exact ⟨0, rfl, rfl⟩
  | case2 n c s hexponent ih =>
    obtain ⟨m, hlength, hbehind⟩ := ih
    refine ⟨m + 2, by omega, ?_⟩
    rwa [List.drop_drop, Nat.add_comm 1 m] at hbehind
  | case3 n c s _ hpart ih =>
    obtain ⟨m, hlength, hbehind⟩ := ih
    exact ⟨m + 1, by omega, hbehind⟩
  | case4 n c s _ _ hseparator ih =>
    obtain ⟨m, hlength, hbehind⟩ := ih
    refine ⟨m + 2, by omega, ?_⟩
    rwa [List.drop_drop, Nat.add_comm 1 m] at hbehind
  | case5 n c s _ hpart _ => exact ⟨0, rfl, by simpa [isNumberPart] using hpart⟩

/-- A number is as long as it can be. -/
theorem startsIn_behind_number (h : numberLength s ≠ 0) :
    Text.startsIn isNumberPart (s.drop (numberLength s)) = false := by
  cases s with
  | nil => exact absurd rfl h
  | cons c s =>
    rw [numberLength] at h ⊢
    split_ifs at h ⊢ with hfirst
    · obtain ⟨m, hlength, hbehind⟩ := exists_numberLengthFrom 1 s
      rw [hlength, Nat.add_comm, List.drop_succ_cons]
      exact hbehind
    · exact absurd rfl h

def keywordKinds : List Kind :=
  [.keyword, .keywordControl, .keywordType, .keywordOp, .bool, .null]

theorem mem_keywordKinds {name : List Char} {kind : Kind}
    (h : keyword? dialect strict name = some kind) : kind ∈ keywordKinds := by
  have htables : ∀ table ∈ [cKeywords, cOnlyKeywords, cppKeywords, extensionKeywords],
      ∀ entry ∈ table.toList, entry.2 ∈ keywordKinds := by
    decide +kernel
  have hsubset : keywordTables dialect strict ⊆
      [cKeywords, cOnlyKeywords, cppKeywords, extensionKeywords] := by
    cases dialect <;> cases strict <;> simp [keywordTables]
  obtain ⟨table, htable, hkind⟩ := List.exists_of_findSome?_eq_some h
  exact htables table (hsubset htable) _ (Array.mem_toList_iff.2 (Keywords.mem_of_kind? hkind))

section

variable [Text.IdentifierClasses]

/-- An identifier is as long as it can be. -/
theorem startsIn_behind_identifier (h : identifierLength s ≠ 0) :
    Text.startsIn isIdentifierPart (s.drop (identifierLength s)) = false := by
  have hgreedy := Text.greedy_wordLength isIdentifierStart isIdentifierPart
  have hlength : (s.take (identifierLength s)).length = identifierLength s :=
    List.length_take_of_le (hgreedy.le s)
  have hne : s.take (identifierLength s) ≠ [] := by
    rw [← List.length_pos_iff, hlength]
    exact Nat.pos_of_ne_zero h
  apply ((Text.wordLength_append_iff hne).1 (_ : identifierLength _ = _)).2
  rw [List.take_append_drop, hlength]

def wordKinds : List Kind := .identifier :: keywordKinds

/-- The character begins none of the forms of a program text. -/
structure BeginsNothing (c : Char) : Prop where
  space : isSpace c = false
  quote : Text.isQuote c = false
  digit : c.isDigit = false
  identifier : isIdentifierStart c = false
  operator : ∀ op ∈ operators, op.toList.head? ≠ some c

/-- The kind of a token says what its text is and why it ends in front of the rest. -/
structure Justified (dialect : Dialect) (strict : Bool) (kind : Kind) (text rest : List Char) :
    Prop where
  number : kind = .number →
    numberLength text = text.length ∧ Text.startsIn isNumberPart rest = false
  word : kind ∈ wordKinds →
    identifierLength text = text.length ∧ Text.startsIn isIdentifierPart rest = false ∧
      keyword? dialect strict text = if kind = .identifier then none else some kind
  operator : kind ∈ operatorKinds → ∃ op ∈ operators, op.toList = text ∧ Operator.kind op = kind
  error : kind = .error → ∃ c, text = [c] ∧ BeginsNothing c

/-- The kinds of which nothing is said here. -/
def otherKinds : List Kind :=
  [.comment, .commentDelimiter, .numberDecor, .string, .escape, .directive, .markupTag, .markupAttr]

theorem justified_other {kind : Kind} (h : kind ∈ otherKinds) (text rest : List Char) :
    Justified dialect strict kind text rest := by
  have hapart : ∀ kind ∈ otherKinds,
      kind ≠ .number ∧ kind ∉ wordKinds ∧ kind ∉ operatorKinds ∧ kind ≠ .error := by
    decide
  obtain ⟨hnumber, hword, hoperator, herror⟩ := hapart kind h
  exact ⟨(absurd · hnumber), (absurd · hword), (absurd · hoperator), (absurd · herror)⟩

/-- Every token is justified by its text and by what is behind it. -/
def justification (dialect : Dialect) (strict : Bool) : View Kind :=
  fun kind text after rest ↦ Justified dialect strict kind text (textOf after ++ rest)

theorem extends_justification (dialect : Dialect) (strict : Bool) :
    (justification dialect strict).Extends := by
  intro kind text after more rest h
  rw [justification, Piece.textOf_append, List.append_assoc]
  exact h

/-! ## The forms of code -/

theorem inView_number :
    (Construct.measured .number numberLength).InView (justification dialect strict) := by
  intro s ps hps
  obtain ⟨hn, rfl⟩ := Construct.measured_eq_some.1 hps
  have hlength := List.length_take_of_le (numberLength_le s)
  have hagain : numberLength (s.take (numberLength s)) = numberLength s :=
    (steady_numberLength.selfDelimiting numberLength_le).again s
  refine Piece.inView_token fun _ ↦ ⟨fun _ ↦ ⟨?_, ?_⟩, (absurd · (by decide)),
    (absurd · (by decide)), (absurd · (by decide))⟩
  · rw [hagain, hlength]
  · rw [Piece.width_cons, Piece.width_nil, Piece.text, hlength]
    exact startsIn_behind_number hn

omit [Text.IdentifierClasses] in
theorem wordKind_mem (dialect : Dialect) (strict : Bool) (name : List Char) :
    (keyword? dialect strict name).getD .identifier ∈ wordKinds := by
  cases hfound : keyword? dialect strict name with
  | none => exact List.mem_cons_self
  | some kind => exact List.mem_cons_of_mem _ (mem_keywordKinds hfound)

/-- A word is justified by the tables of keywords. -/
theorem justified_word {name rest : List Char} (hname : identifierLength name = name.length)
    (hrest : Text.startsIn isIdentifierPart rest = false) :
    Justified dialect strict ((keyword? dialect strict name).getD .identifier) name rest := by
  have hapart : ∀ kind ∈ wordKinds,
      kind ≠ .number ∧ kind ∉ operatorKinds ∧ kind ≠ .error := by
    decide
  have hkeyword : ∀ kind ∈ keywordKinds, kind ≠ .identifier := by decide
  have htable : keyword? dialect strict name =
      if (keyword? dialect strict name).getD .identifier = .identifier then none
      else some ((keyword? dialect strict name).getD .identifier) := by
    cases hfound : keyword? dialect strict name with
    | none => rfl
    | some kind => exact (if_neg (hkeyword kind (mem_keywordKinds hfound))).symm
  obtain ⟨hnumber, hoperator, herror⟩ := hapart _ (wordKind_mem dialect strict name)
  exact ⟨(absurd · hnumber), fun _ ↦ ⟨hname, hrest, htable⟩, (absurd · hoperator),
    (absurd · herror)⟩

theorem word_eq (dialect : Dialect) (strict : Bool) (s : List Char) :
    word dialect strict s =
      if identifierLength s = 0 then none
      else
        let name := s.take (identifierLength s)
        some [.token ((keyword? dialect strict name).getD .identifier) name] := by
  have hle : identifierLength s ≤ s.length := Text.wordLength_le s
  have hempty : (s.take (identifierLength s)).isEmpty ↔ identifierLength s = 0 := by
    rw [List.isEmpty_iff, ← List.length_eq_zero_iff, List.length_take, Nat.min_eq_left hle]
  simp only [word, hempty]

theorem inView_word : (word dialect strict).InView (justification dialect strict) := by
  intro s ps hps
  have hgreedy := Text.greedy_wordLength isIdentifierStart isIdentifierPart
  have hlength : (s.take (identifierLength s)).length = identifierLength s :=
    List.length_take_of_le (hgreedy.le s)
  have hagain : identifierLength (s.take (identifierLength s)) = identifierLength s :=
    hgreedy.selfDelimiting.again s
  rw [word_eq] at hps
  split_ifs at hps with hzero
  obtain rfl := Option.some.inj hps
  refine Piece.inView_token fun _ ↦ justified_word (hagain.trans hlength.symm) ?_
  rw [Piece.width_cons, Piece.width_nil, Piece.text, hlength]
  exact startsIn_behind_identifier hzero

theorem inView_operator : operator.InView (justification dialect strict) := by
  intro s ps hps
  obtain ⟨op, hop, hpieces⟩ := Option.bind_eq_some_iff.1 hps
  obtain rfl := Option.some.inj hpieces
  have hmem := (Operator.prefix_of_find? hop).1
  have hkinds : ∀ op ∈ operators, Operator.kind op ≠ Kind.number ∧ Operator.kind op ∉ wordKinds ∧
      Operator.kind op ≠ Kind.error := by
    decide
  obtain ⟨hnumber, hword, herror⟩ := hkinds op hmem
  exact Piece.inView_token fun _ ↦ ⟨(absurd · hnumber), (absurd · hword),
    fun _ ↦ ⟨op, hmem, rfl, rfl⟩, (absurd · herror)⟩

/-- Where no other form is found, the character begins none of them. -/
theorem beginsNothing {c : Char} (hspace : isSpace c = false) (hliteral : literal (c :: s) = none)
    (hnumber : numberLength (c :: s) = 0) (hidentifier : identifierLength (c :: s) = 0)
    (hoperator : operator (c :: s) = none) : BeginsNothing c := by
  refine ⟨hspace, ?_, ?_, Text.wordLength_eq_zero_iff.1 hidentifier, ?_⟩
  · by_contra hquote
    rw [Bool.not_eq_false] at hquote
    have hopens : Opens c [c] := @Opens.mk c "" List.mem_cons_self hquote
    have hsome := (steady_literalTurn c).isSome_partsFrom Kind.string [c].reverse s
    rw [← hopens.literal_eq s, List.singleton_append, hliteral] at hsome
    exact Bool.noConfusion hsome
  · by_contra hdigit
    rw [Bool.not_eq_false] at hdigit
    have hle := le_numberLengthFrom 1 s
    rw [numberLength, hdigit, Bool.true_or, if_pos rfl] at hnumber
    omega
  · intro op hop hhead
    have hsingle : ∀ op ∈ operators, ∃ single ∈ operators, single.toList = op.toList.take 1 := by
      decide
    obtain ⟨single, hmem, htext⟩ := hsingle op hop
    have hstart : Text.startsWith single (c :: s) := by
      rw [Text.startsWith_iff, htext, List.take_one, hhead]
      exact ⟨s, rfl⟩
    rw [operator_eq, Option.map_eq_none_iff, List.find?_eq_none] at hoperator
    exact hoperator single hmem hstart

end

/-! ## Items -/

/-- What a construct shows is of some kinds only. -/
def ShowsKinds (kinds : List Kind) : Construct Kind → Prop :=
  Construct.Shows fun es ↦ ∀ entry ∈ es, entry.1 ∈ kinds

theorem composes_kinds (kinds : List Kind) :
    Composes fun es ↦ ∀ entry ∈ es, entry.1 ∈ kinds :=
  composes_forall fun entry ↦ entry.1 ∈ kinds

theorem ShowsKinds.mono {kinds others : List Kind} {c : Construct Kind} (h : ShowsKinds kinds c)
    (hsubset : kinds ⊆ others) : ShowsKinds others c :=
  Construct.Shows.mono h fun _ hes entry hentry ↦ hsubset (hes entry hentry)

theorem kind_mem_of_mem_tokens {kinds : List Kind} {begin : Nat} {token : Token}
    (h : ∀ entry ∈ Piece.labelled ps, entry.1 ∈ kinds) (hmem : token ∈ Piece.tokens begin ps) :
    token.kind ∈ kinds := by
  obtain ⟨text, hentry⟩ := Piece.exists_entry_of_mem hmem
  exact h _ hentry

theorem kinds_single {kinds : List Kind} {kind : Kind} (h : kind ∈ kinds) (text : List Char) :
    ∀ entry ∈ [(kind, text)], entry.1 ∈ kinds :=
  List.forall_mem_singleton.2 h

theorem showsKinds_measured {kinds : List Kind} {kind : Kind} (h : kind ∈ kinds)
    (length : List Char → Nat) : ShowsKinds kinds (.measured kind length) :=
  Construct.shows_measured (composes_kinds kinds) (kinds_single h) length

theorem showsKinds_comment : ShowsKinds commentKinds comment := by
  have hframed (closing : Nat) (text : List Char) : ∀ entry ∈ Piece.labelled
      (Piece.framed .commentDelimiter .comment 2 closing text), entry.1 ∈ commentKinds :=
    (composes_kinds commentKinds).labelled_framed (kinds_single (by decide))
      (kinds_single (by decide)) _ _ _
  apply Construct.shows_firstOf
  simp only [List.forall_mem_cons]
  refine ⟨?_, ?_, List.forall_mem_nil _⟩
  · intro s ps hps
    unfold Comment.line at hps
    simp only at hps
    split_ifs at hps
    obtain rfl := Option.some.inj hps
    exact hframed _ _
  · intro s ps hps
    unfold Comment.block at hps
    simp only at hps
    split_ifs at hps
    obtain rfl := Option.some.inj hps
    exact hframed _ _

theorem showsKinds_literal : ShowsKinds [.string, .escape] literal := by
  intro s ps hps
  unfold literal at hps
  simp only at hps
  split at hps
  · split_ifs at hps
    rintro ⟨kind, text⟩ hmem
    obtain ⟨kind', hkind, text', heq⟩ := shown_of_partsFrom hps _ (Piece.mem_labelled.1 hmem).1
    obtain ⟨rfl, -⟩ := Piece.token.inj heq
    exact hkind
  · simp at hps

/-- A directive shows its marks and names, and a header as a string. -/
theorem showsKinds_directive [Text.IdentifierClasses]
    : ShowsKinds [.directive, .string] directive := by
  have hkinds := composes_kinds [.directive, .string]
  have hdirective := kinds_single (show Kind.directive ∈ [.directive, .string] by decide)
  have hoperand (name : List Char) : ShowsKinds [.directive, .string] (operand name) := by
    have hblanks := Construct.shows_skip hkinds blankLength
    unfold operand
    split_ifs
    · exact Construct.shows_seq hkinds (List.forall_mem_cons.2 ⟨hblanks, List.forall_mem_singleton.2
        (Construct.shows_optional hkinds (showsKinds_measured (by decide) _))⟩)
    · exact Construct.shows_seq hkinds (List.forall_mem_cons.2 ⟨hblanks, List.forall_mem_singleton.2
        (Construct.shows_optional hkinds (showsKinds_measured (by decide) _))⟩)
    · exact Construct.shows_seq hkinds (List.forall_mem_nil _)
  intro s ps hps
  unfold directive at hps
  cases hafter : Text.after? "#" s with
  | none => simp [hafter] at hps
  | some rest =>
    simp only [hafter] at hps
    obtain ⟨mark, rs, hmark, hrs, rfl⟩ := Construct.seq_cons_eq_some.1 hps
    obtain rfl := Option.some.inj hmark
    rw [Piece.labelled_append]
    refine hkinds.append ?_ ?_
    · unfold directiveMark
      split
      · exact hkinds.labelled_token (hdirective _)
      · rw [Piece.labelled_append]
        exact hkinds.append (hkinds.labelled_token (hdirective _))
          (hkinds.labelled_shown (hdirective _))
    · exact Construct.shows_seq hkinds (List.forall_mem_singleton.2 (hoperand _)) _ rs hrs

theorem showsKinds_rawString : ShowsKinds [.string] rawString :=
  showsKinds_measured List.mem_cons_self _

theorem showsKinds_number : ShowsKinds [.number] (.measured .number numberLength) :=
  showsKinds_measured List.mem_cons_self _

theorem showsKinds_word [Text.IdentifierClasses] (dialect : Dialect) (strict : Bool) :
    ShowsKinds wordKinds (word dialect strict) := by
  intro s ps hps
  rw [word_eq] at hps
  split_ifs at hps
  obtain rfl := Option.some.inj hps
  exact (composes_kinds wordKinds).labelled_token (kinds_single (wordKind_mem dialect strict _) _)

theorem showsKinds_operator : ShowsKinds operatorKinds operator := by
  intro s ps hps
  obtain ⟨op, hop, hpieces⟩ := Option.bind_eq_some_iff.1 hps
  obtain rfl := Option.some.inj hpieces
  have hkinds : ∀ op ∈ operators, Operator.kind op ∈ operatorKinds := by decide
  exact (composes_kinds operatorKinds).labelled_token
    (kinds_single (hkinds op (Operator.prefix_of_find? hop).1) _)

theorem showsKinds_junk : ShowsKinds [.error] junk :=
  showsKinds_measured List.mem_cons_self _

def codeKinds : List Kind :=
  [.directive, .string, .escape, .number, .error] ++ wordKinds ++ operatorKinds

variable [Text.IdentifierClasses]

theorem showsKinds_code (dialect : Dialect) (strict atLineStart : Bool) :
    ShowsKinds codeKinds (code dialect strict atLineStart) := by
  apply Construct.shows_firstOf
  simp only [List.forall_mem_cons]
  exact ⟨Construct.shows_onlyIf (showsKinds_directive.mono (by decide)),
    Construct.shows_onlyIf (showsKinds_rawString.mono (by decide)),
    showsKinds_literal.mono (by decide), showsKinds_number.mono (by decide),
    (showsKinds_word dialect strict).mono (by decide), showsKinds_operator.mono (by decide),
    showsKinds_junk.mono (by decide), List.forall_mem_nil _⟩

theorem inView_of_showsKinds {kinds : List Kind} {c : Construct Kind} (h : ShowsKinds kinds c)
    (hother : kinds ⊆ otherKinds) : c.InView (justification dialect strict) :=
  Construct.inView_of_shows (fun _ hkind _ _ ↦ justified_other (hother hkind) _ _) h

/-- The forms of code in the order in which they are tried. -/
theorem code_eq (dialect : Dialect) (strict atLineStart : Bool) (s : List Char) :
    code dialect strict atLineStart s =
      (Construct.onlyIf atLineStart directive s).or (
        (Construct.onlyIf (dialect = .cpp) rawString s).or (
          (literal s).or ((Construct.measured .number numberLength s).or (
            (word dialect strict s).or ((operator s).or (junk s)))))) := by
  have hdirective : (Construct.onlyIf atLineStart directive).trail s = [] :=
    Construct.trail_onlyIf _ (fun _ ↦ rfl) s
  have hrawString : (Construct.onlyIf (dialect = .cpp) rawString).trail s = [] :=
    Construct.trail_onlyIf _ (fun _ ↦ rfl) s
  rw [code, Construct.firstOf_cons_of_trail hdirective, Construct.firstOf_cons_of_trail hrawString,
    Construct.firstOf_cons_of_trail rfl, Construct.firstOf_cons_of_trail rfl,
    Construct.firstOf_cons_of_trail rfl, Construct.firstOf_cons_of_trail rfl,
    Construct.firstOf_cons_of_trail rfl]
  change _ = _
  simp [Construct.firstOf, Construct.readFirst]

/-- Whatever form of code is read, each of its tokens is justified. -/
theorem inView_code (hspace : Text.startsIn isSpace s = false)
    (h : code dialect strict atLineStart s = some ps) :
    Piece.InView (justification dialect strict) ps (s.drop (width ps)) := by
  rw [code_eq] at h
  simp only [Option.or_eq_some_iff] at h
  rcases h with h | ⟨-, h | ⟨-, h | ⟨hliteral, h | ⟨hnumber, h | ⟨hword, h | ⟨hoperator, h⟩⟩⟩⟩⟩⟩
  · exact inView_of_showsKinds showsKinds_directive (by decide) s ps
      (Construct.onlyIf_eq_some.1 h).2
  · exact inView_of_showsKinds showsKinds_rawString (by decide) s ps
      (Construct.onlyIf_eq_some.1 h).2
  · exact inView_of_showsKinds showsKinds_literal (by decide) s ps h
  · exact inView_number s ps h
  · exact inView_word s ps h
  · exact inView_operator s ps h
  · obtain ⟨hn, rfl⟩ := Construct.measured_eq_some.1 h
    cases s with
    | nil => exact absurd rfl hn
    | cons c s =>
      have hnumberLength : numberLength (c :: s) = 0 := by
        by_contra hlength
        exact Option.isSome_iff_ne_none.1 (Construct.isSome_measured hlength) hnumber
      have hidentifier : identifierLength (c :: s) = 0 := by
        by_contra hlength
        rw [word_eq, if_neg hlength] at hword
        exact Option.some_ne_none _ hword
      have hbegins := beginsNothing hspace hliteral hnumberLength hidentifier hoperator
      exact Piece.inView_token fun _ ↦ ⟨(absurd · (by decide)), (absurd · (by decide)),
        (absurd · (by decide)), fun _ ↦ ⟨c, rfl, hbegins⟩⟩

/-- What an item is, and what it makes of the line. -/
theorem item_cases (h : item dialect strict atLineStart s = some (ps, next)) :
    (ps = [.gap (s.takeWhile isSpace)] ∧
      next = (atLineStart || (s.takeWhile isSpace).any isLineEnd)) ∨
    (ps = [.gap (s.take (spliceLength s))] ∧ spliceLength s ≠ 0 ∧ next = atLineStart) ∨
    (comment s = some ps ∧ next = atLineStart) ∨
    (code dialect strict atLineStart s = some ps ∧ Text.startsIn isSpace s = false ∧
      next = false) := by
  unfold item at h
  simp only at h
  split_ifs at h with hspaces hsplice
  · obtain ⟨rfl, rfl⟩ := Prod.mk.inj (Option.some.inj h)
    exact .inl ⟨rfl, rfl⟩
  · obtain ⟨rfl, rfl⟩ := Prod.mk.inj (Option.some.inj h)
    exact .inr (.inl ⟨rfl, hsplice, rfl⟩)
  · split at h
    · next pieces hcomment =>
      obtain ⟨rfl, rfl⟩ := Prod.mk.inj (Option.some.inj h)
      exact .inr (.inr (.inl ⟨hcomment, rfl⟩))
    · obtain ⟨qs, hcode, hqs⟩ := Option.map_eq_some_iff.1 h
      obtain ⟨rfl, rfl⟩ := Prod.mk.inj hqs
      refine .inr (.inr (.inr ⟨hcode, Text.spanLength_eq_zero_iff.1 ?_, rfl⟩))
      simpa [Text.spanLength] using hspaces

theorem inView_item (h : item dialect strict atLineStart s = some (ps, next)) :
    Piece.InView (justification dialect strict) ps (s.drop (width ps)) := by
  rcases item_cases h with ⟨rfl, -⟩ | ⟨rfl, -⟩ | ⟨hcomment, -⟩ | ⟨hcode, hspace, -⟩
  · exact Piece.inView_of_forall (by simp)
  · exact Piece.inView_of_forall (by simp)
  · exact inView_of_showsKinds showsKinds_comment (by decide) s ps hcomment
  · exact inView_code hspace hcode

theorem inView_scan (dialect : Dialect) (strict : Bool) (s : List Char) :
    Piece.InView (justification dialect strict) (scan dialect strict s) [] := by
  have hview := inView_run (extends_justification dialect strict) (fits_item dialect strict)
    (fun _ _ _ _ ↦ inView_item) true s
  have hwidth : width (run (item dialect strict) true s) = s.length :=
    (covers_scan dialect strict s).2
  rwa [hwidth, List.drop_length] at hview

end CFamily

/-- In C and C++ the kind of a token is justified by its text and by what follows it: numbers and
words go on as far as they can, a word has the kind that the tables say, an operator is one of the
table with its kind, and an error is a character that begins nothing. -/
theorem highlight_kinds_justified [Text.IdentifierClasses]
    (dialect : CFamily.Dialect) (strict : Bool) (source : List Char)
    (sink : Sink) :
    ∀ token ∈ (highlight dialect.language { coalescing := false, strict } source
        sink).1.currentScan.toList,
      ∃ front rest, source = front ++ token.text source ++ rest ∧
        token.begin = Text.byteLength front ∧
        CFamily.Justified dialect strict token.kind (token.text source) rest := by
  intro token hmem
  rw [currentScan_highlight_plain, CFamily.scan_language] at hmem
  obtain ⟨before, text, after, hps, htext, hbegin, hplace, htextOf⟩ :=
    (CFamily.covers_scan dialect strict source).exists_of_mem hmem
  rw [htextOf]
  exact ⟨textOf before, textOf after ++ [], hplace, hbegin,
    CFamily.inView_scan dialect strict source before token.kind text after hps htext⟩

/-- A number takes in the sign behind its exponent mark and what else may belong to a word. -/
theorem highlight_kinds_justified_number :
    let source := "0x1p+3_a".toList
    let token : Token := ⟨0, 8, .number⟩
    token ∈ (highlight .c { coalescing := false, strict := true } source
        .empty).1.currentScan.toList ∧
      ∃ front rest, source = front ++ token.text source ++ rest ∧
        token.begin = Text.byteLength front ∧
        CFamily.Justified .c true token.kind (token.text source) rest :=
  have hmem : ⟨0, 8, .number⟩ ∈ (highlight .c { coalescing := false, strict := true }
      "0x1p+3_a".toList .empty).1.currentScan.toList := by
    decide +kernel
  ⟨hmem, highlight_kinds_justified .c true "0x1p+3_a".toList .empty _ hmem⟩

end Highlight
