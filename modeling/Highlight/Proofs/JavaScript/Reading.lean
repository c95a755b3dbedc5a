import Highlight.JavaScript.Scan
import Highlight.Proofs.JavaScript.Tag
import Highlight.Proofs.Operator

/-!
# Reading scripts piece by piece

Code may stand in a template and between tags, so what is said of the constructs of a script takes
for granted that embedded code is covered by its pieces. A script with one more level of embedding
is then covered too, and so by induction every script is.
-/

namespace Highlight.JavaScript

open Piece (Covers width)

variable {embed : List Char → List (Piece Kind)}

/-- An escape is at least its backslash. -/
theorem escape_length_pos (rest : List Char) : 0 < (escape ('\\' :: rest)).length := by
  cases rest with
  | nil => exact Nat.one_pos
  | cons c after =>
    rw [escape]
    split_ifs
    · simp only [fixedEscape]
      omega
    · unfold bracedEscape
      split
      · split_ifs <;> simp only <;> omega
      · exact Nat.succ_pos _
    · simp only [fixedEscape]
      omega
    · exact Nat.add_pos_left Nat.one_pos _
    · exact Nat.add_pos_left Nat.one_pos _
    · exact Nat.succ_pos 2
    · exact Nat.succ_pos 1

theorem fits_escapePieces (s : List Char) : Piece.Fits (escapePieces s) s :=
  Construct.fits_take _ _ s

theorem width_escapePieces_pos (rest : List Char) : 0 < width (escapePieces ('\\' :: rest)) := by
  have hpos := escape_length_pos rest
  exact Piece.width_take_pos rfl (Nat.ne_of_gt hpos) (List.cons_ne_nil _ _)

/-- Nothing but escapes is set into a string. -/
theorem escape_of_stringTurn {quote : Char} {s : List Char} {ps : List (Piece Kind)}
    (h : stringTurn quote s = .aside ps) : ∃ rest, s = '\\' :: rest ∧ ps = escapePieces s := by
  unfold stringTurn at h
  split at h
  · simp at h
  · next c rest =>
    split_ifs at h with hend hquote hbackslash
    obtain rfl := Turn.aside.inj h
    exact ⟨rest, by rw [hbackslash], rfl⟩

theorem fits_stringTurn (quote : Char) : Turn.Fits (stringTurn quote) := by
  intro s ps h
  obtain ⟨rest, -, rfl⟩ := escape_of_stringTurn h
  exact fits_escapePieces s

theorem advances_stringTurn (quote : Char) : Turn.Advances (stringTurn quote) := by
  intro s ps h
  obtain ⟨rest, rfl, rfl⟩ := escape_of_stringTurn h
  exact width_escapePieces_pos rest

theorem parts_of_string {s : List Char} {ps : List (Piece Kind)} (h : string s = some ps) :
    ∃ quote rest, s = quote :: rest ∧ Construct.parts .string 1 (stringTurn quote) s = some ps := by
  unfold string at h
  simp only at h
  split at h
  · simp at h
  · next quote rest =>
    split_ifs at h
    exact ⟨quote, rest, rfl, h⟩

@[simp]
theorem fits_string : string.Fits := by
  apply Construct.fits_of_read fun _ ↦ rfl
  intro s ps h
  obtain ⟨quote, rest, -, hparts⟩ := parts_of_string h
  exact (Construct.fits_parts (fits_stringTurn quote)).read s ps hparts

theorem advances_string : string.Advances := by
  intro s ps h
  obtain ⟨quote, rest, rfl, hparts⟩ := parts_of_string h
  have hle := Construct.le_width_parts (fits_stringTurn quote) hparts
  rw [List.length_cons] at hle
  omega

theorem fits_substitution (hembed : ∀ s, Covers (embed s) s) (s : List Char) :
    Piece.Fits (substitution embed s) s := by
  have hopening : Covers [Piece.token Kind.symPunc (s.take 2)] (s.take 2) := Piece.covers_token _ _
  unfold substitution
  simp only
  split_ifs
  · exact hopening.append_fits (hembed _).1
  · exact hopening.append_fits ((hembed _).append_fits (Construct.fits_take _ _ _))

theorem width_substitution_pos {s : List Char} (hs : s ≠ []) :
    0 < width (substitution embed s) := by
  have hpos := List.length_pos_iff.2 hs
  unfold substitution
  simp only
  split_ifs <;> simp only [Piece.width_cons, Piece.text, List.length_take] <;> omega

/-- Escapes and substitutions are set into a template. -/
theorem aside_of_templateTurn {s : List Char} {ps : List (Piece Kind)}
    (h : templateTurn embed s = .aside ps) :
    (∃ rest, s = '\\' :: rest ∧ ps = escapePieces s) ∨
      "$\x7b".toList <+: s ∧ ps = substitution embed s := by
  unfold templateTurn at h
  split at h
  · simp at h
  · next c rest =>
    split_ifs at h with hquote hbackslash hopening
    · obtain rfl := Turn.aside.inj h
      exact .inl ⟨rest, by rw [hbackslash], rfl⟩
    · obtain rfl := Turn.aside.inj h
      exact .inr ⟨Text.startsWith_iff.1 hopening, rfl⟩

theorem fits_templateTurn (hembed : ∀ s, Covers (embed s) s) : Turn.Fits (templateTurn embed) := by
  intro s ps h
  rcases aside_of_templateTurn h with ⟨rest, -, rfl⟩ | ⟨-, rfl⟩
  · exact fits_escapePieces s
  · exact fits_substitution hembed s

theorem advances_templateTurn : Turn.Advances (templateTurn embed) := by
  intro s ps h
  rcases aside_of_templateTurn h with ⟨rest, rfl, rfl⟩ | ⟨hopening, rfl⟩
  · exact width_escapePieces_pos rest
  · exact width_substitution_pos (hopening.ne_nil (List.cons_ne_nil _ _))

theorem parts_of_template {s : List Char} {ps : List (Piece Kind)}
    (h : template embed s = some ps) :
    s ≠ [] ∧ Construct.parts .string 1 (templateTurn embed) s = some ps := by
  unfold template at h
  simp only at h
  split_ifs at h with hquote
  refine ⟨?_, h⟩
  rintro rfl
  simp at hquote

theorem fits_template (hembed : ∀ s, Covers (embed s) s) : (template embed).Fits :=
  Construct.fits_of_read (fun _ ↦ rfl) fun s ps h ↦
    (Construct.fits_parts (fits_templateTurn hembed)).read s ps (parts_of_template h).2

theorem advances_template (hembed : ∀ s, Covers (embed s) s) : (template embed).Advances := by
  intro s ps h
  obtain ⟨hs, hparts⟩ := parts_of_template h
  have hle := Construct.le_width_parts (fits_templateTurn hembed) hparts
  have hpos := List.length_pos_iff.2 hs
  omega

/-- The parts of a literal make up its length. -/
theorem numericLiteral_length (s : List Char) :
    let literal := numericLiteral s
    literal.length = literal.radixMark +
      (literal.integer + literal.fraction + literal.exponent + literal.suffix) := by
  unfold numericLiteral
  split
  · simp only [radixLiteral]
    omega
  · unfold decimalLiteral
    extract_lets integer rest digits fraction length behind sign more exponent suffix literal
    unfold literal
    split_ifs
    · rfl
    · simp only [length]
      omega
    · simp only [length]
      omega

/-- A number is covered by its pieces. -/
theorem covers_number {s : List Char} {ps : List (Piece Kind)} (h : number s = some ps) :
    (numericLiteral s).length ≠ 0 ∧ Covers ps (s.take (numericLiteral s).length) := by
  unfold number at h
  simp only at h
  split_ifs at h with hn herror
  · obtain rfl := Option.some.inj h
    exact ⟨hn, Piece.covers_token _ _⟩
  · obtain rfl := Option.some.inj h
    refine ⟨hn, ?_⟩
    have hlength := numericLiteral_length s
    generalize numericLiteral s = literal at hlength ⊢
    simp only at hlength
    generalize literal.integer + literal.fraction + literal.exponent = digits at hlength ⊢
    rw [hlength, List.take_add, List.take_add (l := s.drop literal.radixMark), List.append_assoc]
    exact (Piece.covers_shown _ _).append ((Piece.covers_shown _ _).append (Piece.covers_shown _ _))

/-- A number that lacks digits is an error as a whole; another one has digits with marks on either
side. -/
theorem cases_of_number {s : List Char} {ps : List (Piece Kind)} (h : number s = some ps) :
    (numericLiteral s).erroneous ∧ ps = [.token .error (s.take (numericLiteral s).length)] ∨
      ∃ mark digits suffix, ps = Piece.shown .numberDecor mark ++ Piece.shown .number digits ++
        Piece.shown .numberDecor suffix := by
  unfold number at h
  simp only at h
  split_ifs at h with hn herror <;> obtain rfl := Option.some.inj h
  · exact .inl ⟨herror, rfl⟩
  · exact .inr ⟨_, _, _, rfl⟩

@[simp]
theorem fits_number : number.Fits :=
  Construct.fits_of_covers (fun _ _ ↦ covers_number) fun _ ↦ rfl

theorem numericLiteral_nil : (numericLiteral []).length = 0 := rfl

theorem advances_number : number.Advances :=
  Construct.advances_of_covers (fun _ _ ↦ covers_number) numericLiteral_nil

/-- Code in curly brackets is covered, whatever its last character is. -/
theorem covers_container (hembed : ∀ s, Covers (embed s) s) (text : List Char) :
    Covers (container embed text) text := by
  unfold container
  rw [List.append_assoc]
  exact (Piece.covers_token _ _).append_drop ((hembed _).append_drop (Piece.covers_shown _ _))

theorem covers_commentPieces (text : List Char) : Covers (commentPieces text) text := by
  unfold commentPieces
  split_ifs
  · exact Comment.covers_linePieces text
  · exact Comment.covers_blockPieces true text

/-- Each part of a tag is covered by what it is shown as. -/
theorem covers_showPart (hembed : ∀ s, Covers (embed s) s) (piece : Piece TagPart) :
    Covers (showPart embed piece) piece.text := by
  cases piece with
  | gap text => exact Piece.covers_gap text
  | withdrawn reported => exact Piece.covers_nil
  | token label text =>
    cases label with
    | comment => exact covers_commentPieces text
    | code => exact covers_container hembed text
    | _ => exact Piece.covers_token _ _

section

variable [Text.IdentifierClasses]

theorem fits_showTag (hembed : ∀ s, Covers (embed s) s) {s : List Char} {kind : TagKind}
    {parts : List (Piece TagPart)} (h : tag? s = some (kind, parts)) :
    Piece.Fits (showTag embed parts) s ∧ width (showTag embed parts) = width parts :=
  (fits_tag? h).flatMap fun piece _ ↦ covers_showPart hembed piece

theorem fits_child (hembed : ∀ s, Covers (embed s) s) : StepFits (child embed) := by
  intro depth s ps next h
  unfold child at h
  simp only at h
  split_ifs at h with hdepth hbrace hn hangle hand hreference
  · obtain ⟨rfl, -⟩ := Prod.mk.inj (Option.some.inj h)
    exact (Piece.covers_token _ _).append_fits (hembed _).1
  · obtain ⟨rfl, -⟩ := Prod.mk.inj (Option.some.inj h)
    exact (covers_container hembed _).1.mono (List.take_prefix _ _)
  · split at h
    · next kind parts htag =>
      obtain ⟨rfl, -⟩ := Prod.mk.inj (Option.some.inj h)
      exact (fits_showTag hembed htag).1
    · obtain ⟨rfl, -⟩ := Prod.mk.inj (Option.some.inj h)
      exact (Piece.fits_gap _ _).2 (List.take_prefix _ _)
  · obtain ⟨rfl, -⟩ := Prod.mk.inj (Option.some.inj h)
    exact (Piece.fits_gap _ _).2 (List.take_prefix _ _)
  · obtain ⟨rfl, -⟩ := Prod.mk.inj (Option.some.inj h)
    exact Construct.fits_take _ _ s
  · obtain ⟨rfl, -⟩ := Prod.mk.inj (Option.some.inj h)
    exact (Piece.fits_hidden _ _).2 (List.takeWhile_prefix _)

/-- A child covers at least one character: text between tags ends before a character that begins
something else. -/
theorem advances_child (hembed : ∀ s, Covers (embed s) s) : StepAdvances (child embed) := by
  intro depth s ps next hs h
  obtain ⟨c, t, rfl⟩ := List.exists_cons_of_ne_nil hs
  unfold child at h
  simp only at h
  split_ifs at h with hdepth hbrace hn hangle hand hreference
  · obtain ⟨rfl, -⟩ := Prod.mk.inj (Option.some.inj h)
    rw [Piece.width_cons]
    exact Nat.add_pos_left Nat.one_pos _
  · obtain ⟨rfl, -⟩ := Prod.mk.inj (Option.some.inj h)
    rw [(covers_container hembed _).2, List.length_take, List.length_cons]
    omega
  · split at h
    · next kind parts htag =>
      obtain ⟨rfl, -⟩ := Prod.mk.inj (Option.some.inj h)
      rw [(fits_showTag hembed htag).2]
      exact advances_tag? htag
    · obtain ⟨rfl, -⟩ := Prod.mk.inj (Option.some.inj h)
      exact Nat.succ_pos _
  · obtain ⟨rfl, -⟩ := Prod.mk.inj (Option.some.inj h)
    exact Nat.succ_pos _
  · obtain ⟨rfl, -⟩ := Prod.mk.inj (Option.some.inj h)
    exact Piece.width_take_pos rfl hreference hs
  · obtain ⟨rfl, -⟩ := Prod.mk.inj (Option.some.inj h)
    have hplain : endsText c = false := by
      rw [Text.startsWith_iff] at hbrace hangle hand
      rw [Bool.eq_false_iff]
      intro hends
      rcases by simpa [endsText, or_assoc] using hends with rfl | rfl | rfl
      · exact hbrace (List.prefix_append ['\x7b'] t)
      · exact hangle (List.prefix_append ['<'] t)
      · exact hand (List.prefix_append ['&'] t)
    rw [Piece.width_hidden, List.takeWhile_cons_of_pos (by simp [hplain])]
    exact Nat.succ_pos _

theorem fits_element (hembed : ∀ s, Covers (embed s) s) : (element embed).Fits := by
  apply Construct.fits_of_read fun _ ↦ rfl
  intro s ps h
  unfold element at h
  simp only at h
  split at h
  · simp at h
  · next kind parts htag =>
    obtain ⟨hfits, hwidth⟩ := fits_showTag hembed htag
    split_ifs at h <;> obtain rfl := Option.some.inj h
    · rw [Piece.fits_append, hwidth]
      exact ⟨hfits, fits_run (fits_child hembed) 1 _⟩
    · exact hfits

theorem advances_element (hembed : ∀ s, Covers (embed s) s) : (element embed).Advances := by
  intro s ps h
  unfold element at h
  simp only at h
  split at h
  · simp at h
  · next kind parts htag =>
    have hpos := advances_tag? htag
    rw [← (fits_showTag hembed htag).2] at hpos
    split_ifs at h <;> obtain rfl := Option.some.inj h
    · rw [Piece.width_append]
      exact Nat.add_pos_left hpos _
    · exact hpos

theorem fits_operand (hembed : ∀ s, Covers (embed s) s) (strict expression : Bool) :
    (operand embed strict expression).Fits := by
  apply Construct.fits_firstOf
  simp only [List.forall_mem_cons]
  exact ⟨fits_string, fits_template hembed, fits_number,
    Construct.fits_onlyIf (Construct.fits_measured _ _), Construct.fits_onlyIf (fits_element hembed),
    Construct.fits_measured _ _, List.forall_mem_nil _⟩

theorem advances_operand (hembed : ∀ s, Covers (embed s) s) (strict expression : Bool) :
    (operand embed strict expression).Advances := by
  apply Construct.advances_firstOf
  simp only [List.forall_mem_cons]
  exact ⟨advances_string, advances_template hembed, advances_number,
    Construct.advances_onlyIf (Construct.advances_measured rfl),
    Construct.advances_onlyIf (advances_element hembed),
    Construct.advances_measured rfl, List.forall_mem_nil _⟩

/-- No construct leaves a trace where it is not there. -/
theorem operand_eq (embed : List Char → List (Piece Kind)) (strict expression : Bool)
    (s : List Char) :
    operand embed strict expression s =
      (string s).or ((template embed s).or ((number s).or
        ((Construct.onlyIf expression regex s).or
          ((Construct.onlyIf (expression && !strict) (element embed) s).or
            (Construct.measured .identifier privateNameLength s))))) := by
  have hregex : (Construct.onlyIf expression regex).trail s = [] :=
    Construct.trail_onlyIf _ (fun _ ↦ rfl) s
  have helement : (Construct.onlyIf (expression && !strict) (element embed)).trail s = [] :=
    Construct.trail_onlyIf _ (fun _ ↦ rfl) s
  rw [operand, Construct.firstOf_cons_of_trail rfl, Construct.firstOf_cons_of_trail rfl,
    Construct.firstOf_cons_of_trail rfl, Construct.firstOf_cons_of_trail hregex,
    Construct.firstOf_cons_of_trail helement, Construct.firstOf_cons_of_trail rfl]
  simp [Construct.firstOf, Construct.readFirst]

omit [Text.IdentifierClasses] in
/-- A number begins with a digit or a point. -/
theorem number_eq_none {c : Char} (hdigit : c.isDigit = false) (hpoint : c ≠ '.') (s : List Char) :
    number (c :: s) = none := by
  have hlength : (numericLiteral (c :: s)).length = 0 := by
    have hzero : c ≠ '0' := by
      rintro rfl
      exact absurd hdigit (by decide)
    have hradix : radix? (c :: s) = none := by
      unfold radix?
      split
      · next h => exact absurd (List.cons.inj h).1 hzero
      · rfl
    have hpointed : Text.startsWith "." (c :: s) = false :=
      Text.startsWith_cons_eq_false (by rfl) hpoint s
    have hdigits : digitsLength Char.isDigit (c :: s) = 0 := by
      rw [digitsLength, Text.wordLength_eq_zero_iff, Text.startsIn_cons, hdigit]
    simp [numericLiteral, hradix, decimalLiteral, hdigits, hpointed]
  simp only [number, hlength, if_true]

theorem privateName_eq_none {c : Char} (hc : c ≠ '#') (s : List Char) :
    (Construct.measured .identifier privateNameLength : Construct Kind) (c :: s) = none := by
  apply Construct.measured_of_eq_zero
  rw [privateNameLength, Text.startsWith_cons_eq_false (by rfl) hc]
  rfl

/-- At a `<` no operand but an element is there. -/
theorem operand_angle (embed : List Char → List (Piece Kind)) (strict expression : Bool)
    (s : List Char) :
    operand embed strict expression ('<' :: s) =
      Construct.onlyIf (expression && !strict) (element embed) ('<' :: s) := by
  have hregex : regex ('<' :: s) = none := Construct.measured_of_eq_zero rfl
  rw [operand_eq, number_eq_none (by decide) (by decide), Construct.onlyIf_of_none hregex,
    privateName_eq_none (by decide)]
  simp [string, template, Text.isQuote]

/-! ## Words and operators -/

theorem word_eq_some {member : Bool} {s : List Char} {ps : List (Piece Kind)} {next : Position}
    (h : word member s = some (ps, next)) : ∃ kind, s.take (identifierLength s) ≠ [] ∧
      ps = [.token kind (s.take (identifierLength s))] := by
  unfold word at h
  simp only at h
  generalize (if member then Kind.identifier else
    (keyword? (s.take (identifierLength s))).getD .identifier) = kind at h
  split_ifs at h with hempty
  obtain ⟨rfl, -⟩ := Prod.mk.inj (Option.some.inj h)
  exact ⟨kind, fun hnil ↦ hempty (List.isEmpty_iff.2 hnil), rfl⟩

theorem identifierLength_eq_zero {c : Char} (hc : isIdentifierStart c = false) (s : List Char) :
    identifierLength (c :: s) = 0 :=
  Text.wordLength_eq_zero_iff.2 hc

theorem word_eq_none {s : List Char} (h : identifierLength s = 0) (member : Bool) :
    word member s = none := by
  simp [word, h]

end

theorem toList_ne_nil_of_mem_operators : ∀ op ∈ operators, op.toList ≠ [] := by
  decide

/-- The operator that is read stands at the front of the text, also where it is cut short. -/
theorem prefix_of_operator? {s : List Char} {op : String} (h : operator? s = some op) :
    op.toList ≠ [] ∧ op.toList <+: s := by
  obtain ⟨found, hfind, hop⟩ := Option.bind_eq_some_iff.1 h
  obtain ⟨hmem, hfront⟩ := Operator.prefix_of_find? hfind
  split_ifs at hop with hchain
  · obtain rfl := Option.some.inj hop
    have hfound : found = "?." := by
      rw [Bool.and_eq_true, beq_iff_eq] at hchain
      exact hchain.1
    subst hfound
    exact ⟨by decide, (List.prefix_append ['?'] ['.']).trans hfront⟩
  · obtain rfl := Option.some.inj hop
    exact ⟨toList_ne_nil_of_mem_operators _ hmem, hfront⟩

theorem operator_eq_some {expression : Bool} {s : List Char} {ps : List (Piece Kind)}
    {next : Position} (h : operator expression s = some (ps, next)) :
    ∃ op, operator? s = some op ∧ ps = [.token (Operator.kind op) op.toList] := by
  obtain ⟨op, hop, hps⟩ := Option.bind_eq_some_iff.1 h
  obtain ⟨rfl, -⟩ := Prod.mk.inj (Option.some.inj hps)
  exact ⟨op, hop, rfl⟩

variable [Text.IdentifierClasses]

/-! ## Scripts -/

/-- An item is a piece of white space, a comment, an operand, a word, an operator or an error, and
tells about the place behind it accordingly. -/
theorem item_next {strict : Bool} {position next : Position} {s : List Char}
    {ps : List (Piece Kind)} (h : item embed strict position s = some (ps, next)) :
    (Construct.skipSome (Text.spanLength isSpace) s = some ps ∨ comment s = some ps) ∧
        next = position ∨
      operand embed strict position.expression s = some ps ∧ next = .operand ∨
      word position.member s = some (ps, next) ∨
      operator position.expression s = some (ps, next) ∨
      junk s = some ps ∧ next = {} := by
  unfold item at h
  simp only [Option.orElse_eq_orElse, Option.orElse_eq_or, Option.or_eq_some_iff,
    Option.map_eq_some_iff, Prod.mk.injEq] at h
  rcases h with ⟨qs, hspace, rfl, rfl⟩ | ⟨-, h⟩
  · exact .inl ⟨.inl hspace, rfl⟩
  rcases h with ⟨qs, hcomment, rfl, rfl⟩ | ⟨-, h⟩
  · exact .inl ⟨.inr hcomment, rfl⟩
  rcases h with ⟨qs, hoperand, rfl, rfl⟩ | ⟨-, h⟩
  · exact .inr (.inl ⟨hoperand, rfl⟩)
  rcases h with hword | ⟨-, h⟩
  · exact .inr (.inr (.inl hword))
  rcases h with hoperator | ⟨-, qs, hjunk, rfl, rfl⟩
  · exact .inr (.inr (.inr (.inl hoperator)))
  · exact .inr (.inr (.inr (.inr ⟨hjunk, rfl⟩)))

theorem item_eq_some {strict : Bool} {position next : Position} {s : List Char}
    {ps : List (Piece Kind)} (h : item embed strict position s = some (ps, next)) :
    Construct.skipSome (Text.spanLength isSpace) s = some ps ∨ comment s = some ps ∨
      operand embed strict position.expression s = some ps ∨
      (∃ kind, s.take (identifierLength s) ≠ [] ∧
        ps = [.token kind (s.take (identifierLength s))]) ∨
      (∃ op, operator? s = some op ∧ ps = [.token (Operator.kind op) op.toList]) ∨
      junk s = some ps := by
  rcases item_next h with ⟨hspace | hcomment, -⟩ | ⟨hoperand, -⟩ | hword | hoperator | ⟨hjunk, -⟩
  · exact .inl hspace
  · exact .inr (.inl hcomment)
  · exact .inr (.inr (.inl hoperand))
  · exact .inr (.inr (.inr (.inl (word_eq_some hword))))
  · exact .inr (.inr (.inr (.inr (.inl (operator_eq_some hoperator)))))
  · exact .inr (.inr (.inr (.inr (.inr hjunk))))

theorem fits_item (hembed : ∀ s, Covers (embed s) s) (strict : Bool) :
    StepFits (item embed strict) := by
  intro position s ps next h
  rcases item_eq_some h with hspace | hcomment | hoperand | ⟨kind, -, rfl⟩ | ⟨op, hop, rfl⟩ | hjunk
  · exact (Construct.fits_skipSome _).read s ps hspace
  · exact fits_comment.read s ps hcomment
  · exact (fits_operand hembed _ _).read s ps hoperand
  · exact Construct.fits_take _ _ s
  · exact (Piece.fits_token _ _ _).2 (prefix_of_operator? hop).2
  · exact (Construct.fits_measured _ _).read s ps hjunk

theorem advances_item (hembed : ∀ s, Covers (embed s) s) (strict : Bool) :
    StepAdvances (item embed strict) := by
  intro position s ps next _ h
  rcases item_eq_some h with hspace | hcomment | hoperand | ⟨kind, hname, rfl⟩ | ⟨op, hop, rfl⟩ |
    hjunk
  · exact Construct.advances_skipSome rfl s ps hspace
  · exact advances_comment s ps hcomment
  · exact advances_operand hembed _ _ s ps hoperand
  · exact Piece.width_single_pos hname
  · exact Piece.width_single_pos (prefix_of_operator? hop).1
  · exact Construct.advances_measured rfl s ps hjunk

/-- A character that begins nothing else is there as an error. -/
theorem isSome_item (strict : Bool) (position : Position) (c : Char) (s : List Char) :
    (item embed strict position (c :: s)).isSome := by
  simp [item, junk, Construct.measured]

theorem covers_scanLevels (strict : Bool) (levels : Nat) (s : List Char) :
    Covers (scanLevels strict levels s) s := by
  induction levels generalizing s with
  | zero => exact Piece.covers_hidden s
  | succ levels ih =>
    exact covers_run (fits_item ih strict) (advances_item ih strict) (isSome_item strict) {} s

/-- A script is covered by its pieces, however deep its code is embedded. -/
theorem covers_scan (strict : Bool) (s : List Char) : Covers (scan strict s) s :=
  (Comment.covers_linePieces _).append_drop (covers_scanLevels strict levelLimit _)

end Highlight.JavaScript
