import Highlight.Proofs.JavaScript.Element
import Highlight.Proofs.JavaScript.Embedding
import Highlight.Proofs.JavaScript.Places
import Highlight.Text.Unicode

/-!
# Where expressions start

A slash may begin a regular expression or be an operator, and a `<` may begin an element or be an
operator. Which of them it is depends on what was read before it in the same script, white space and
comments aside. The position that is handed from item to item is proved to say just what these items
tell, whatever was read in embedded code.
-/

namespace Highlight

open Piece (textOf tokens)

namespace JavaScript

variable {embed : Reader} {strict : Bool}

def keywordKinds : List Kind := [.keyword, .keywordControl, .keywordType, .keywordOp]

/-- The kinds of names and of literals. -/
def operandKinds : List Kind := [.identifier, .bool, .null, .number, .numberDecor, .string]

/-- An item that shows nothing, or nothing but a comment. -/
def IsPassed (ps : List (Piece Kind)) : Prop :=
  ∀ kind text, .token kind text ∈ ps → kind ∈ commentKinds

/-- An expression is due behind the items, which are listed from the last one back. -/
inductive Due : List (List (Piece Kind)) → Prop
  | start : Due []
  | passed {ps : List (Piece Kind)} {items : List (List (Piece Kind))} :
    IsPassed ps → Due items → Due (ps :: items)
  /-- A character that begins nothing. -/
  | junk (c : Char) (items : List (List (Piece Kind))) : Due ([.token .error [c]] :: items)
  | keyword {kind : Kind} {name : List Char} (items : List (List (Piece Kind))) :
    kind ∈ keywordKinds → name ∉ ["this".toList, "super".toList] →
    Due ([.token kind name] :: items)
  | operator {op : String} (items : List (List (Piece Kind))) :
    op ∈ operators → op ∉ [")", "]", "++", "--"] →
    Due ([.token (Operator.kind op) op.toList] :: items)
  /-- Behind an increment or a decrement the same is due as before it. -/
  | step {op : String} {items : List (List (Piece Kind))} :
    op ∈ ["++", "--"] → Due items → Due ([.token (Operator.kind op) op.toList] :: items)

theorem kind_mem (op : String) : Operator.kind op ∈ operatorKinds := by
  unfold Operator.kind
  split_ifs <;> decide

/-- What a token of the last item must be where an expression is due behind it. -/
theorem Due.cases_of_mem {kind : Kind} {text : List Char} {ps : List (Piece Kind)}
    {items : List (List (Piece Kind))} (h : Due (ps :: items)) (hmem : .token kind text ∈ ps) :
    kind ∈ commentKinds ∧ Due items ∨
      kind = .error ∧ text.length = 1 ∨
      kind ∈ keywordKinds ∧ text ∉ ["this".toList, "super".toList] ∨
      ∃ op ∈ operators, kind = Operator.kind op ∧ text = op.toList ∧ op ∉ [")", "]"] ∧
        (op ∈ ["++", "--"] → Due items) := by
  have hsingle {label : Kind} {shown : List Char}
      (hlabel : .token kind text ∈ [Piece.token label shown]) : kind = label ∧ text = shown :=
    Piece.token.inj (List.mem_singleton.1 hlabel)
  cases h with
  | passed hpassed hdue => exact .inl ⟨hpassed kind text hmem, hdue⟩
  | junk c =>
    obtain ⟨rfl, rfl⟩ := hsingle hmem
    exact .inr (.inl ⟨rfl, rfl⟩)
  | keyword _ hkeyword hname =>
    obtain ⟨rfl, rfl⟩ := hsingle hmem
    exact .inr (.inr (.inl ⟨hkeyword, hname⟩))
  | operator _ hop hother =>
    obtain ⟨rfl, rfl⟩ := hsingle hmem
    simp only [List.mem_cons, not_or] at hother
    refine .inr (.inr (.inr ⟨_, hop, rfl, rfl, by simp [hother], fun hstep ↦ ?_⟩))
    simp [hother] at hstep
  | step hstep hdue =>
    obtain ⟨rfl, rfl⟩ := hsingle hmem
    have hlist : ∀ op ∈ ["++", "--"], op ∈ operators ∧ op ∉ [")", "]"] := by decide
    exact .inr (.inr (.inr ⟨_, (hlist _ hstep).1, rfl, rfl, (hlist _ hstep).2, fun _ ↦ hdue⟩))

/-- A name or a literal ends an expression. -/
theorem not_due_of_mem {kind : Kind} {text : List Char} {ps : List (Piece Kind)}
    {items : List (List (Piece Kind))} (hmem : .token kind text ∈ ps)
    (hkind : kind ∈ operandKinds) : ¬ Due (ps :: items) := by
  have hothers : ∀ kind ∈ operandKinds,
      kind ∉ commentKinds ∧ kind ≠ .error ∧ kind ∉ keywordKinds ∧ kind ∉ operatorKinds := by
    decide
  obtain ⟨hcomment, herror, hkeyword, hoperator⟩ := hothers kind hkind
  intro h
  rcases h.cases_of_mem hmem with h | h | h | ⟨op, -, rfl, -⟩
  · exact hcomment h.1
  · exact herror h.1
  · exact hkeyword h.1
  · exact hoperator (kind_mem op)

theorem exists_of_parts {turn : List Char → Turn Kind} {s : List Char} {ps : List (Piece Kind)}
    (hs : s ≠ []) (h : Construct.parts .string 1 turn s = some ps) :
    ∃ text ≠ [], .token .string text ∈ ps := by
  obtain ⟨c, s, rfl⟩ := List.exists_cons_of_ne_nil hs
  exact exists_of_partsFrom (List.cons_ne_nil c []) h

theorem two_le_of_radix {isDigit : Char → Bool} {s : List Char} (h : radix? s = some isDigit) :
    2 ≤ (s.take (radixLiteral isDigit s).length).length := by
  have hs : 2 ≤ s.length := by
    unfold radix? at h
    split at h
    · exact Nat.le_add_left 2 _
    · simp at h
  rw [List.length_take]
  simp only [radixLiteral]
  omega

/-- A number that lacks digits has a mark behind those that it has. -/
theorem two_le_of_decimal {s : List Char} (h : (decimalLiteral s).erroneous) :
    2 ≤ (s.take (decimalLiteral s).length).length := by
  revert h
  rw [List.length_take]
  unfold decimalLiteral
  extract_lets integer rest digits fraction length behind sign more exponent suffix
  split_ifs with hnone hexponent
  · simp
  -- The letter of the exponent stands behind a digit or a point at least.
  · have hlength := Text.length_pos_of_startsIn hexponent
    simp only [behind, rest, List.length_drop] at hlength
    intro
    simp only
    omega
  · simp

/-- A number that lacks digits is no single character. -/
theorem two_le_of_erroneous {s : List Char} (h : (numericLiteral s).erroneous) :
    2 ≤ (s.take (numericLiteral s).length).length := by
  unfold numericLiteral at h ⊢
  split at h
  · exact two_le_of_radix ‹_›
  · exact two_le_of_decimal h

/-- Behind a number no expression is due. -/
theorem not_due_of_number {s : List Char} {ps : List (Piece Kind)} (h : number s = some ps)
    (items : List (List (Piece Kind))) : ¬ Due (ps :: items) := by
  have hps : ps ≠ [] := by
    rintro rfl
    exact Nat.lt_irrefl 0 (advances_number s [] h)
  rcases cases_of_number h with ⟨herror, rfl⟩ | ⟨mark, digits, suffix, rfl⟩
  · -- The error is too long for a character that begins nothing.
    have hlength := two_le_of_erroneous herror
    intro hdue
    rcases hdue.cases_of_mem (List.mem_singleton_self _) with h | ⟨-, h⟩ | h | ⟨op, -, hop, -⟩
    · exact absurd h.1 (by decide)
    · omega
    · exact absurd h.1 (by decide)
    · exact absurd (hop ▸ kind_mem op) (by decide)
  · obtain ⟨piece, hmem⟩ := List.exists_mem_of_ne_nil _ hps
    have hpiece := hmem
    simp only [List.mem_append] at hmem
    rcases hmem with (hmem | hmem) | hmem <;> rw [Piece.eq_of_mem_shown hmem] at hpiece <;>
      exact not_due_of_mem hpiece (by decide)

/-- An element is shown from its bracket on. -/
theorem exists_cons_of_element [Text.IdentifierClasses] {s : List Char} {ps : List (Piece Kind)}
    (h : element embed s = some ps) : ∃ behind, ps = .token .symPunc ['<'] :: behind := by
  unfold element at h
  simp only at h
  split at h
  · simp at h
  · next kind parts htag =>
    have hparts : kind.closes = false →
        ∃ behind, showTag embed parts = .token .symPunc ['<'] :: behind := by
      intro hcloses
      have htags := isTag_of_tag? htag
      rw [← showTag_lasting]
      generalize Piece.lasting parts = shown at htags ⊢
      cases htags with
      | opened => exact ⟨_, rfl⟩
      | closing hrest =>
        rcases (hrest.takes_closing []).1 with rfl | rfl <;> exact absurd hcloses (by decide)
    split_ifs at h with hcloses hopens <;> obtain rfl := Option.some.inj h
    · obtain ⟨behind, hbehind⟩ := hparts (Bool.eq_false_iff.2 hcloses)
      exact ⟨_, by rw [hbehind, List.cons_append]⟩
    · exact hparts (Bool.eq_false_iff.2 hcloses)

/-- The bracket of a tag is punctuation and no operator. -/
theorem not_due_of_bracket {ps : List (Piece Kind)} (hmem : .token .symPunc ['<'] ∈ ps)
    (items : List (List (Piece Kind))) : ¬ Due (ps :: items) := by
  have hlist : ∀ op ∈ operators, .symPunc = Operator.kind op → ['<'] ≠ op.toList := by decide
  intro hdue
  rcases hdue.cases_of_mem hmem with h | ⟨h, -⟩ | h | ⟨op, hop, hkind, htext, -⟩
  · exact absurd h.1 (by decide)
  · simp at h
  · exact absurd h.1 (by decide)
  · exact hlist op hop hkind htext

/-- An operand ends an expression. -/
theorem not_due_of_operand [Text.IdentifierClasses]
    {expression : Bool} {s : List Char} {ps : List (Piece Kind)}
    (hs : s ≠ []) (h : operand embed strict expression s = some ps)
    (items : List (List (Piece Kind))) : ¬ Due (ps :: items) := by
  rw [operand_eq] at h
  simp only [Option.or_eq_some_iff, Construct.onlyIf_eq_some] at h
  rcases h with hstring | ⟨-, htemplate | ⟨-, hnumber | ⟨-, ⟨-, hregex⟩ | ⟨-, ⟨-, helement⟩ |
    ⟨-, hname⟩⟩⟩⟩⟩
  · obtain ⟨quote, rest, -, hparts⟩ := parts_of_string hstring
    obtain ⟨text, -, hmem⟩ := exists_of_parts hs hparts
    exact not_due_of_mem hmem (by decide)
  · obtain ⟨text, -, hmem⟩ := exists_of_parts hs (parts_of_template htemplate).2
    exact not_due_of_mem hmem (by decide)
  · exact not_due_of_number hnumber items
  · obtain ⟨-, rfl⟩ := Construct.measured_eq_some.1 hregex
    exact not_due_of_mem (List.mem_singleton_self _) (by decide)
  · obtain ⟨behind, rfl⟩ := exists_cons_of_element helement
    exact not_due_of_bracket List.mem_cons_self items
  · obtain ⟨-, rfl⟩ := Construct.measured_eq_some.1 hname
    exact not_due_of_mem (List.mem_singleton_self _) (by decide)

theorem isPassed_framed (opening closing : Nat) (text : List Char) :
    IsPassed (Piece.framed .commentDelimiter .comment opening closing text) := by
  intro kind shown hmem
  simp only [Piece.framed, List.mem_append] at hmem
  rcases hmem with (hmem | hmem) | hmem <;>
    rw [(Piece.token.inj (Piece.eq_of_mem_shown hmem)).1] <;> decide

theorem isPassed_of_comment {s : List Char} {ps : List (Piece Kind)} (h : comment s = some ps) :
    IsPassed ps := by
  rcases Construct.firstOf_cons_eq_some.1 h with hline | ⟨-, qs, hblock, rfl⟩
  · simp only [Comment.line] at hline
    split_ifs at hline
    obtain rfl := Option.some.inj hline
    exact isPassed_framed 2 0 _
  · rcases Construct.firstOf_cons_eq_some.1 hblock with hblock | ⟨-, rs, hnone, -⟩
    · simp only [Comment.block] at hblock
      split_ifs at hblock
      obtain rfl := Option.some.inj hblock
      exact isPassed_framed 2 _ _
    · simp [Construct.firstOf, Construct.readFirst] at hnone

/-- Behind white space and comments the same is due as before them. -/
theorem due_passed_iff {ps : List (Piece Kind)} (hps : IsPassed ps)
    (items : List (List (Piece Kind))) : Due (ps :: items) ↔ Due items := by
  have hothers : .error ∉ commentKinds ∧ (∀ kind ∈ keywordKinds, kind ∉ commentKinds) ∧
      ∀ kind ∈ operatorKinds, kind ∉ commentKinds := by
    decide
  obtain ⟨herror, hkeyword, hoperator⟩ := hothers
  refine ⟨fun h ↦ ?_, .passed hps⟩
  cases h with
  | passed _ hdue => exact hdue
  | junk => exact absurd (hps _ _ (List.mem_singleton_self _)) herror
  | keyword _ hkind => exact absurd (hps _ _ (List.mem_singleton_self _)) (hkeyword _ hkind)
  | @operator op | @step op =>
    exact absurd (hps _ _ (List.mem_singleton_self _)) (hoperator _ (kind_mem op))

def wordKinds : List Kind := [.identifier, .bool, .null, .keyword, .keywordControl, .keywordOp]

theorem getD_keyword?_mem (name : List Char) : (keyword? name).getD .identifier ∈ wordKinds := by
  cases hkind : keyword? name with
  | none => decide
  | some kind =>
    have hlist : ∀ entry ∈ keywords, entry.2 ∈ wordKinds := by decide
    exact hlist _ (Keywords.mem_of_kind? hkind)

theorem expressionAfterWord_iff {kind : Kind} (name : List Char) (hkind : kind ∈ wordKinds) :
    expressionAfterWord kind name ↔
      kind ∈ keywordKinds ∧ name ∉ ["this".toList, "super".toList] := by
  unfold wordKinds at hkind
  unfold keywordKinds
  cases kind <;> simp_all [expressionAfterWord]

/-- Behind a word an expression is due unless the word is a name or a value. -/
theorem due_word_iff [Text.IdentifierClasses]
    {member : Bool} {s : List Char} {ps : List (Piece Kind)} {next : Position}
    (h : word member s = some (ps, next)) (items : List (List (Piece Kind))) :
    next.expression ↔ Due (ps :: items) := by
  have hothers : ∀ kind ∈ wordKinds,
      kind ∉ commentKinds ∧ kind ≠ .error ∧ kind ∉ operatorKinds := by
    decide
  unfold word at h
  simp only at h
  generalize hword : (if member then Kind.identifier else
    (keyword? (s.take (identifierLength s))).getD .identifier) = kind at h
  have hkind : kind ∈ wordKinds := by
    rw [← hword]
    split_ifs
    · decide
    · exact getD_keyword?_mem _
  obtain ⟨hcomment, herror, hoperator⟩ := hothers kind hkind
  split_ifs at h
  obtain ⟨rfl, rfl⟩ := Prod.mk.inj (Option.some.inj h)
  rw [expressionAfterWord_iff _ hkind]
  constructor
  · rintro ⟨hkeyword, hname⟩
    exact .keyword items hkeyword hname
  · intro hdue
    rcases hdue.cases_of_mem (List.mem_singleton_self _) with h | h | h | ⟨op, -, rfl, -⟩
    · exact absurd h.1 hcomment
    · exact absurd h.1 herror
    · exact h
    · exact absurd (kind_mem op) hoperator

theorem Due.of_operator {op : String} {items : List (List (Piece Kind))}
    (h : Due ([.token (Operator.kind op) op.toList] :: items)) :
    op ∉ [")", "]"] ∧ (op ∈ ["++", "--"] → Due items) := by
  have hothers : ∀ kind ∈ operatorKinds,
      kind ∉ commentKinds ∧ kind ≠ .error ∧ kind ∉ keywordKinds := by
    decide
  obtain ⟨hcomment, herror, hkeyword⟩ := hothers _ (kind_mem op)
  rcases h.cases_of_mem (List.mem_singleton_self _) with h | h | h | ⟨other, -, -, htext, h⟩
  · exact absurd h.1 hcomment
  · exact absurd h.1 herror
  · exact absurd h.1 hkeyword
  · rwa [String.toList_inj.1 htext]

theorem due_operator_iff {expression : Bool} {s : List Char} {ps : List (Piece Kind)}
    {next : Position} {items : List (List (Piece Kind))} (hdue : expression ↔ Due items)
    (h : operator expression s = some (ps, next)) : next.expression ↔ Due (ps :: items) := by
  obtain ⟨op, hop, hps⟩ := Option.bind_eq_some_iff.1 h
  obtain ⟨rfl, rfl⟩ := Prod.mk.inj (Option.some.inj hps)
  simp only [expressionAfterOperator]
  split_ifs with hclosing hstep
  · exact iff_of_false (by decide) fun hlast ↦ hlast.of_operator.1 (by simpa using hclosing)
  · have hmem : op ∈ ["++", "--"] := by simpa using hstep
    exact hdue.trans ⟨.step hmem, fun hlast ↦ hlast.of_operator.2 hmem⟩
  · refine iff_of_true rfl (.operator items (mem_of_operator? hop) ?_)
    simpa [not_or, and_assoc] using And.intro hclosing hstep

variable [Text.IdentifierClasses]

/-! ## The position -/

/-- What is due behind an item follows from what is due before it. -/
theorem due_item_iff {position next : Position} {s : List Char} {ps : List (Piece Kind)}
    {items : List (List (Piece Kind))} (hs : s ≠ []) (hdue : position.expression ↔ Due items)
    (h : item embed strict position s = some (ps, next)) : next.expression ↔ Due (ps :: items) := by
  rcases item_next h with ⟨hspace | hcomment, rfl⟩ | ⟨hoperand, rfl⟩ | hword | hoperator |
    ⟨hjunk, rfl⟩
  · obtain ⟨-, rfl⟩ := Construct.skipSome_eq_some.1 hspace
    rw [due_passed_iff (by simp [IsPassed]), hdue]
  · rw [due_passed_iff (isPassed_of_comment hcomment), hdue]
  · exact iff_of_false (by decide) (not_due_of_operand hs hoperand items)
  · exact due_word_iff hword items
  · exact due_operator_iff hdue hoperator
  · obtain ⟨c, rest, rfl⟩ := List.exists_cons_of_ne_nil hs
    obtain ⟨-, rfl⟩ := Construct.measured_eq_some.1 hjunk
    exact iff_of_true rfl (.junk c items)

/-- The position that a script is read with says what is due behind the items before it. -/
theorem expression_iff_due {s rest : List Char} {before : List (List (Piece Kind))}
    {position : Position} (h : Comes (item embed strict) {} s before position rest) :
    position.expression ↔ Due before.reverse := by
  induction h with
  | start => exact iff_of_true rfl .start
  | turn _ hrest hstep ih =>
    rw [List.reverse_concat]
    exact due_item_iff hrest ih hstep

/-! ## Slashes and angle brackets -/

/-- The operator at the front of the text is read. -/
def Operates (s : List Char) (ps : List (Piece Kind)) : Prop :=
  ∃ op, operator? s = some op ∧ ps = [.token .symOp op.toList]

/-- Where `here` holds the construct is read, and an operator where it does not. -/
def Chooses (construct : Construct Kind) (here : Prop) (s : List Char) (ps : List (Piece Kind)) :
    Prop :=
  (construct s = some ps ↔ here) ∧ (¬ here → Operates s ps)

omit [Text.IdentifierClasses] in
/-- A slash and an angle bracket can always be read as operators. -/
theorem exists_operator {c : Char} (hc : c = '/' ∨ c = '<') (s : List Char) :
    ∃ op, operator? (c :: s) = some op ∧ Operator.kind op = .symOp := by
  have hfind : (Operator.find? operators (c :: s)).isSome := by
    have hsign : ∃ op ∈ operators, op.toList = [c] := by
      rcases hc with rfl | rfl
      · exact ⟨"/", by decide, rfl⟩
      · exact ⟨"<", by decide, rfl⟩
    obtain ⟨op, hop, hsingle⟩ := hsign
    refine List.find?_isSome.2 ⟨op, hop, Text.startsWith_iff.2 ?_⟩
    rw [hsingle]
    exact List.prefix_append [c] s
  obtain ⟨found, hfound⟩ := Option.isSome_iff_exists.1 hfind
  have hsome : (operator? (c :: s)).isSome := by
    simp only [operator?, hfound, Option.bind_eq_bind, Option.bind_some]
    split_ifs <;> rfl
  obtain ⟨op, hop⟩ := Option.isSome_iff_exists.1 hsome
  -- Both signs begin operators of one kind only, however long the operator is.
  have hkind : ∀ op ∈ operators, op.toList.head? = some '/' ∨ op.toList.head? = some '<' →
      Operator.kind op = .symOp := by
    decide
  obtain ⟨hne, rest, hfront⟩ := prefix_of_operator? hop
  obtain ⟨d, more, hmore⟩ := List.exists_cons_of_ne_nil hne
  rw [hmore] at hfront
  obtain rfl : d = c := (List.cons.inj hfront).1
  refine ⟨op, hop, hkind op (mem_of_operator? hop) ?_⟩
  rw [hmore]
  exact hc.imp (congrArg some) (congrArg some)

theorem tag?_eq_none {c : Char} (hc : c ≠ '<') (s : List Char) : tag? (c :: s) = none := by
  rw [Option.eq_none_iff_forall_ne_some]
  rintro ⟨kind, parts⟩ htag
  obtain ⟨v, hv⟩ := exists_cons_of_tag? htag
  have hwhole := (fits_tag? htag).textOf_append_drop
  rw [hv] at hwhole
  exact hc (List.cons.inj hwhole).1.symm

/-- At a slash no operand but a regular expression is there. -/
theorem operand_slash (embed : Reader) (strict expression : Bool) (s : List Char) :
    operand embed strict expression ('/' :: s) = Construct.onlyIf expression regex ('/' :: s) := by
  have helement : element embed ('/' :: s) = none := by
    simp only [element, tag?_eq_none (by decide : '/' ≠ '<')]
  rw [operand_eq, number_eq_none (by decide) (by decide), Construct.onlyIf_of_none helement,
    privateName_eq_none (by decide)]
  simp [string, template, Text.isQuote]

/-- A slash or a `<` that begins no comment begins an operand or else an operator. -/
theorem exists_item {c : Char} (hc : c = '/' ∨ c = '<') {s : List Char}
    (hcomment : comment (c :: s) = none) (embed : Reader) (strict : Bool) (position : Position) :
    ∃ ps next, item embed strict position (c :: s) = some (ps, next) ∧
      (operand embed strict position.expression (c :: s) = some ps ∨
        operand embed strict position.expression (c :: s) = none ∧ Operates (c :: s) ps) := by
  have hblank : isSpace c = false := by rcases hc with rfl | rfl <;> decide
  have hspace : Construct.skipSome (Text.spanLength isSpace) (c :: s) =
      (none : Option (List (Piece Kind))) := by
    have hlength : Text.spanLength isSpace (c :: s) = 0 := Text.spanLength_eq_zero_iff.2 hblank
    simp [Construct.skipSome, hlength]
  have hword : word position.member (c :: s) = none := by
    have hstart : isIdentifierStart c = false := by
      rcases hc with rfl | rfl <;> rfl
    exact word_eq_none (identifierLength_eq_zero hstart s) _
  obtain ⟨op, hop, hkind⟩ := exists_operator hc s
  obtain ⟨next, hoperator⟩ : ∃ next, operator position.expression (c :: s) =
      some ([.token .symOp op.toList], next) := by
    simp [operator, hop, hkind]
  rw [item, hspace, hcomment, hword, hoperator]
  cases operand embed strict position.expression (c :: s) with
  | some ps => exact ⟨ps, .operand, rfl, .inl rfl⟩
  | none => exact ⟨_, next, rfl, .inr ⟨rfl, op, hop, rfl⟩⟩

omit [Text.IdentifierClasses] in
/-- Where a construct and an operator may begin, the construct is read exactly if it is allowed and
there. -/
theorem chooses_of_onlyIf {c : Construct Kind} {allowed : Bool} {s : List Char}
    {ps : List (Piece Kind)} (h : Construct.onlyIf allowed c s = some ps ∨
      Construct.onlyIf allowed c s = none ∧ Operates s ps)
    (hother : ∀ op : String, c s ≠ some [.token .symOp op.toList]) :
    Chooses c (allowed ∧ (c s).isSome) s ps := by
  rcases h with hread | ⟨hnone, hoperates⟩
  · obtain ⟨hallowed, hps⟩ := Construct.onlyIf_eq_some.1 hread
    have hhere : allowed ∧ (c s).isSome := ⟨hallowed, Option.isSome_of_mem hps⟩
    exact ⟨iff_of_true hps hhere, absurd hhere⟩
  · have hhere : ¬ (allowed ∧ (c s).isSome) := by
      rintro ⟨hallowed, hsome⟩
      obtain ⟨ps, hps⟩ := Option.isSome_iff_exists.1 hsome
      rw [Construct.onlyIf_eq_some.2 ⟨hallowed, hps⟩] at hnone
      exact absurd hnone (Option.some_ne_none ps)
    refine ⟨iff_of_false ?_ hhere, fun _ ↦ hoperates⟩
    obtain ⟨op, -, rfl⟩ := hoperates
    exact hother op

theorem isSome_regex_iff {s : List Char} : (regex s).isSome ↔ regexLength s ≠ 0 := by
  simp [Option.isSome_iff_exists, regex, Construct.measured_eq_some]

theorem isSome_element_iff (embed : Reader) (s : List Char) : (element embed s).isSome ↔
    ∃ kind parts, tag? s = some (kind, parts) ∧ kind.closes = false := by
  unfold element
  simp only
  cases htag : tag? s with
  | none => simp
  | some found =>
    obtain ⟨kind, parts⟩ := found
    simp only
    split_ifs <;> simp_all

theorem chooses_regex {expression : Bool} {s : List Char} {ps : List (Piece Kind)}
    (h : operand embed strict expression ('/' :: s) = some ps ∨
      operand embed strict expression ('/' :: s) = none ∧ Operates ('/' :: s) ps) :
    Chooses regex (expression ∧ regexLength ('/' :: s) ≠ 0) ('/' :: s) ps := by
  rw [operand_slash] at h
  rw [← isSome_regex_iff]
  refine chooses_of_onlyIf h fun op hop ↦ ?_
  simpa using (Construct.measured_eq_some.1 hop).2

theorem chooses_element {expression : Bool} {s : List Char} {ps : List (Piece Kind)}
    (h : operand embed strict expression ('<' :: s) = some ps ∨
      operand embed strict expression ('<' :: s) = none ∧ Operates ('<' :: s) ps) :
    Chooses (element embed) ((expression && !strict) ∧ ∃ kind parts,
      tag? ('<' :: s) = some (kind, parts) ∧ kind.closes = false) ('<' :: s) ps := by
  rw [operand_angle] at h
  rw [← isSome_element_iff embed]
  refine chooses_of_onlyIf h fun op hop ↦ ?_
  obtain ⟨behind, hbehind⟩ := exists_cons_of_element hop
  simp at hbehind

end JavaScript

open JavaScript

/-- Wherever a script or the code embedded in it is read, a slash that begins no comment begins a
regular expression exactly if one is there and an expression is due behind what was read before in
the same code. A `<` begins an element exactly if the same is due and a tag is there that closes
nothing, but never in strict mode. Otherwise each of them begins an operator. -/
theorem scriptTokens_expression [Text.IdentifierClasses]
    {strict : Bool} {source : List Char} {level : Nat}
    (hlevel : level < levelLimit) {code : Code} (hcode : code ∈ codesBelow strict level 0 source)
    {before : List (List (Piece Kind))} {position : Position} {rest : List Char}
    (hcomes : Comes (itemBelow strict level) {} code.text before position rest) (sink : Sink) :
    let embed := scanLevels strict (levelLimit - (level + 1))
    let begin := code.begin + Text.byteLength (textOf before.flatten)
    let due := Due before.reverse
    let shown := fun pieces ↦ Among (scriptTokens strict source sink) begin
      (begin + Text.byteLength (textOf pieces)) (tokens begin pieces)
    (rest.head? = some '/' → comment rest = none →
      ∃ pieces, shown pieces ∧ Chooses regex (due ∧ regexLength rest ≠ 0) rest pieces) ∧
    (rest.head? = some '<' →
      ∃ pieces, shown pieces ∧ Chooses (element embed) (due ∧ strict = false ∧
        ∃ kind parts, tag? rest = some (kind, parts) ∧ kind.closes = false) rest pieces) := by
  intro embed begin due shown
  have hdue : position.expression ↔ due := expression_iff_due hcomes
  -- What is read at either sign stands in its place among the tokens of the script.
  have hread {c : Char} {s : List Char} (hrest : rest = c :: s) (hc : c = '/' ∨ c = '<')
      (hcomment : comment (c :: s) = none) : ∃ pieces, shown pieces ∧
        (operand embed strict position.expression (c :: s) = some pieces ∨
          operand embed strict position.expression (c :: s) = none ∧
            Operates (c :: s) pieces) := by
    subst hrest
    obtain ⟨pieces, next, hitem, hpieces⟩ := exists_item hc hcomment embed strict position
    refine ⟨pieces, ?_, hpieces⟩
    have hamong := among_item hlevel hcode hcomes (List.cons_ne_nil c s) hitem
    rwa [← scriptTokens_eq strict source sink] at hamong
  constructor
  · intro hhead hcomment
    obtain ⟨s, rfl⟩ := List.head?_eq_some_iff.1 hhead
    obtain ⟨pieces, hshown, hpieces⟩ := hread rfl (.inl rfl) hcomment
    rw [← hdue]
    exact ⟨pieces, hshown, chooses_regex hpieces⟩
  · intro hhead
    obtain ⟨s, rfl⟩ := List.head?_eq_some_iff.1 hhead
    obtain ⟨pieces, hshown, hpieces⟩ := hread rfl (.inr rfl) (comment_eq_none (by decide) s)
    have hchooses := chooses_element hpieces
    rw [Bool.and_eq_true, Bool.not_eq_true', and_assoc, hdue] at hchooses
    exact ⟨pieces, hshown, hchooses⟩

/-- A slash at the front of embedded code begins a regular expression, and one behind a number
divides. -/
theorem scriptTokens_expression_slash :
    Among (scriptTokens false "`$\x7b/2/\x7d`".toList .empty) 3 6 [⟨3, 3, .string⟩] ∧
      Among (scriptTokens false "`$\x7b1/2/3\x7d`".toList .empty) 4 5 [⟨4, 1, .symOp⟩] := by
  constructor
  · have hcode : ⟨3, "/2/".toList⟩ ∈ codesBelow false 1 0 "`$\x7b/2/\x7d`".toList := by
      decide +kernel
    obtain ⟨pieces, hshown, hregex, -⟩ :=
      (scriptTokens_expression (by decide) hcode .start .empty).1 rfl rfl
    obtain rfl : [.token .string "/2/".toList] = pieces :=
      Option.some.inj (hregex.2 ⟨.start, by decide +kernel⟩)
    exact hshown
  · have hcode : ⟨3, "1/2/3".toList⟩ ∈ codesBelow false 1 0 "`$\x7b1/2/3\x7d`".toList := by
      decide +kernel
    have hnumber : itemBelow false 1 {} "1/2/3".toList =
        some ([.token .number "1".toList], .operand) := by
      rfl
    have hcomes := Comes.turn .start (List.cons_ne_nil _ _) hnumber
    have hdue : ¬ Due [[.token .number "1".toList]] :=
      not_due_of_mem (List.mem_singleton_self _) (by decide)
    obtain ⟨pieces, hshown, -, hoperator⟩ :=
      (scriptTokens_expression (by decide) hcode hcomes .empty).1 rfl rfl
    obtain ⟨op, hop, rfl⟩ := hoperator fun hhere ↦ hdue hhere.1
    obtain rfl : "/" = op := Option.some.inj hop
    exact hshown

end Highlight
