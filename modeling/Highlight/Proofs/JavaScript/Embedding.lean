import Highlight.Proofs.JavaScript.Braced
import Highlight.Proofs.JavaScript.Depth
import Highlight.Proofs.Search
import Highlight.Text.Unicode

/-!
# Scripts that are embedded

Code whose brackets balance is read in a template and in an element as if it stood alone: the scan
of the script around it hands it on whole, and nothing is left of its surroundings while it is read.
-/

namespace Highlight

open Construct (seq_cons_of_drop)
open Piece (Covers textOf tokens width)

namespace JavaScript

variable {embed : Reader} {strict : Bool}

/-- An operand is reached where neither white space nor a comment begins. -/
theorem item_of_operand [Text.IdentifierClasses]
    {c : Char} {s : List Char} (hspace : isSpace c = false) (hslash : c ≠ '/')
    {position : Position} {ps : List (Piece Kind)}
    (h : operand embed strict position.expression (c :: s) = some ps) :
    item embed strict position (c :: s) = some (ps, .operand) := by
  have hlength : Text.spanLength isSpace (c :: s) = 0 := Text.spanLength_eq_zero_iff.2 hspace
  have hnone : (Construct.skipSome (Text.spanLength isSpace) : Construct Kind) (c :: s) = none := by
    simp [Construct.skipSome, hlength]
  rw [item, hnone, comment_eq_none hslash, h]
  rfl

/-- A loop whose first step reads all of the text reads nothing else. -/
theorem run_of_step {σ : Type} {step : σ → List Char → Option (List (Piece Kind) × σ)}
    {state next : σ} {c : Char} {s : List Char} {ps : List (Piece Kind)}
    (h : step state (c :: s) = some (ps, next)) (hwidth : width ps = (c :: s).length) :
    run step state (c :: s) = ps := by
  rw [run_cons, h]
  simp only [hwidth, List.drop_length, run_nil, ite_self, List.append_nil]

theorem hashbangLength_eq_zero {s : List Char} (h : ¬ "#!".toList <+: s) :
    hashbangLength s = 0 := by
  have hafter : Text.after? "#!" s = none := by
    rw [Text.after?, if_neg (Text.startsWith_iff.not.2 h)]
  rw [hashbangLength, restOfLine, hafter]

section

variable [Text.IdentifierClasses]

/-- A script without a hashbang line is read like embedded code. -/
theorem scan_eq_scanLevels {s : List Char} (h : ¬ "#!".toList <+: s) :
    scan strict s = scanLevels strict levelLimit s := by
  rw [scan, hashbangLength_eq_zero h]
  rfl

/-- A script that embeds fewer levels than it may leaves the same tokens with one level less. -/
theorem tokens_scanLevels_eq {levels : Nat} {s : List Char} (h : codesAt strict levels 0 s = []) :
    tokens 0 (scanLevels strict levels s) = tokens 0 (scanLevels strict (levels + 1) s) := by
  rw [tokens_scanLevels_eq_outside strict levels 1, h]
  exact List.filter_eq_self.2 (by simp)

/-- Code that is not too deep for one level less leaves the tokens of a script. -/
theorem tokens_code {code : List Char} (hhashbang : ¬ "#!".toList <+: code)
    (hdepth : ∀ level > 255, codesBelow strict level 0 code = []) :
    tokens 0 (scanLevels strict 256 code) = tokens 0 (scan strict code) := by
  have hnone : codesAt strict 256 0 code = [] := by
    simpa [codesBelow, hashbangAt, hashbangLength_eq_zero hhashbang] using hdepth 256 (by decide)
  rw [tokens_scanLevels_eq hnone, scan_eq_scanLevels hhashbang, levelLimit]

end

/-- The template whose only text is a substitution. -/
def inTemplate (code : List Char) : List Char := "`$\x7b".toList ++ code ++ "\x7d`".toList

theorem inTemplate_eq (code : List Char) :
    inTemplate code = '\x60' :: '$' :: '\x7b' :: (code ++ ['\x7d', '\x60']) := by
  simp [inTemplate]

def templateFront : List (Piece Kind) :=
  [.token .string "`".toList, .token .symPunc "$\x7b".toList]

def templateBehind : List (Piece Kind) :=
  [.token .symPunc "\x7d".toList, .token .string "`".toList]

variable {code : List Char}
  (hbraced : bracedLength ('\x7b' :: (code ++ ['\x7d'])) = code.length + 2)

/-- The pieces of code are between those of what stands around it. -/
def between (front : List (Piece Kind)) (embed : Reader) (code : List Char)
    (behind : List (Piece Kind)) : List (Piece Kind) :=
  front ++ embed code ++ behind

/-- The tokens of code stand behind those of what is in front of it, and are those of the code
alone. -/
theorem tokens_between (hembed : embed.Covering) (front behind : List (Piece Kind))
    (code : List Char) :
    tokens 0 (between front embed code behind) =
      tokens 0 front ++
        (tokens 0 (embed code)).map (Token.shift (Text.byteLength (textOf front))) ++
        tokens (Text.byteLength (textOf front) + Text.byteLength code) behind := by
  rw [between, Piece.tokens_append, Piece.tokens_append, Piece.textOf_append,
    (hembed code).textOf_eq, Text.byteLength_append, Nat.zero_add, Nat.zero_add,
    ← Piece.tokens_add, Nat.add_zero]

include hbraced

theorem bracedLength_code (t : List Char) :
    bracedLength ('\x7b' :: (code ++ '\x7d' :: t)) = code.length + 2 := by
  have happend := bracedLength_append (by rw [hbraced]; exact Nat.succ_ne_zero _) t
  rw [hbraced] at happend
  simpa using happend

theorem substitution_code (t : List Char) :
    substitution embed ("$\x7b".toList ++ (code ++ '\x7d' :: t)) =
      between [.token .symPunc "$\x7b".toList] embed code [.token .symPunc "\x7d".toList] := by
  have hlength : bracedLength (("$\x7b".toList ++ (code ++ '\x7d' :: t)).drop 1) =
      code.length + 2 := bracedLength_code hbraced t
  unfold substitution
  simp only [hlength]
  simp [between]

/-- A template around code is what it shows in front of the code, the code, and what it shows
behind. -/
theorem template_code (hembed : embed.Covering) :
    template embed (inTemplate code) =
      some (between templateFront embed code templateBehind) := by
  let inside : List (Piece Kind) :=
    between [.token .symPunc "$\x7b".toList] embed code [.token .symPunc "\x7d".toList]
  have hturn :
      templateTurn embed ('$' :: '\x7b' :: (code ++ ['\x7d', '\x60'])) = .aside inside := by
    have hsubstitution : substitution embed _ = _ := substitution_code hbraced ['\x60']
    simpa [templateTurn, Text.startsWith, inside] using hsubstitution
  have hwidth : width inside = code.length + 3 := by
    simp [inside, between, (hembed code).2, Piece.text]
    omega
  have hdrop : ('$' :: '\x7b' :: (code ++ ['\x7d', '\x60'])).drop (code.length + 3) = ['\x60'] := by
    simp
  have hclose : partsFrom .string (templateTurn embed) [] [] ['\x60'] =
      some [.token .string "`".toList] := by
    simp [partsFrom, templateTurn, Piece.shown]
  rw [inTemplate_eq]
  simp only [template, Construct.parts, Text.startsIn_cons, beq_self_eq_true, if_true]
  change partsFrom .string (templateTurn embed) [] ['\x60']
    ('$' :: '\x7b' :: (code ++ ['\x7d', '\x60'])) = _
  rw [partsFrom, hturn]
  simp only [hwidth, hdrop, Nat.succ_ne_zero, if_false]
  rw [partsFrom_eq, hclose]
  simp [inside, between, templateFront, templateBehind, Piece.shown]

omit hbraced

/-- The name `a` is an identifier, and the bracket behind it does not belong to one. -/
theorem identifier_a [Text.IdentifierClasses]
    : isIdentifierStart 'a' ∧ isIdentifierStart '>' = false ∧
    isIdentifierPart '>' = false :=
  ⟨rfl, rfl, rfl⟩

theorem trivia_eq_nil {c : Char} (hspace : isSpace c = false) (hslash : c ≠ '/') (s : List Char) :
    trivia (c :: s) = some [] := by
  have hlength : Text.spanLength isSpace (c :: s) = 0 := Text.spanLength_eq_zero_iff.2 hspace
  have hline := Text.after?_cons_eq_none "//" rfl hslash s
  have hblock := Text.after?_cons_eq_none "/*" rfl hslash s
  refine Construct.many_of_none (Construct.firstOf_eq_none_iff.2 ?_) rfl
  simp only [List.forall_mem_cons]
  refine ⟨?_, Construct.measured_of_eq_zero ?_, Construct.measured_of_eq_zero ?_,
    List.forall_mem_nil _⟩
  · simp [Construct.skipSome, hlength]
  · simp [lineCommentLength, restOfLine, hline]
  · simp [closedCommentLength, Comment.blockExtent, hblock]

theorem tagName_a [Text.IdentifierClasses] (s : List Char) :
    tagName ('a' :: '>' :: s) = some [.token .tagName "a".toList] := by
  have hname : markupIdentifierLength ('a' :: '>' :: s) = 1 := by
    simp [markupIdentifierLength, Text.wordLength, Text.spanLength_cons, identifier_a]
  have hlength : tagNameLength ('a' :: '>' :: s) = 1 := by
    simp [tagNameLength, qualifiedLength, hname, membersLengthFrom, Text.startsWith]
  refine Construct.measured_eq_some.2 ⟨by rw [hlength]; exact Nat.one_ne_zero, ?_⟩
  rw [hlength]
  rfl

theorem tagAttributes_angle [Text.IdentifierClasses]
    (s : List Char) : tagAttributes ('>' :: s) = some [] := by
  have hcode : bracedLength ('>' :: s) = 0 := by
    simp [bracedLength, Text.startsWith]
  have hlength : attributeNameLength ('>' :: s) = 0 := by
    simp [attributeNameLength, qualifiedLength, markupIdentifierLength, Text.wordLength,
      identifier_a]
  have hname : Construct.measured TagPart.attributeName attributeNameLength ('>' :: s) = none :=
    Construct.measured_of_eq_zero hlength
  obtain ⟨hseq, hseqTrail⟩ := Construct.seq_cons_of_none hname
    [trivia, .ifNext "=" (.seq [.skipLiteral "=", trivia, attributeValue])]
  have hattribute : tagAttribute ('>' :: s) = none := by
    refine Construct.firstOf_eq_none_iff.2 ?_
    simp only [List.forall_mem_cons]
    exact ⟨Construct.measured_of_eq_zero hcode, hseq, List.forall_mem_nil _⟩
  have htrail : tagAttribute.trail ('>' :: s) = [] := by
    simp only [tagAttribute, Construct.firstOf, Construct.withdrawAll, List.flatMap_cons, hseqTrail]
    rfl
  obtain ⟨hspaced, hspacedTrail⟩ :=
    Construct.seq_cons_of_some (trivia_eq_nil (c := '>') (by decide) (by decide) s) [tagAttribute]
  obtain ⟨hnone, hnoneTrail⟩ := Construct.seq_cons_of_none hattribute []
  refine Construct.many_of_none ?_ ?_
  · rw [spacedAttribute, hspaced, Piece.width_nil, List.drop_zero, hnone]
    rfl
  · rw [spacedAttribute, hspacedTrail, Piece.width_nil, List.drop_zero, hnoneTrail, htrail]
    rfl

theorem mark_eq_some {lit : String} {s : List Char} (h : lit.toList <+: s) :
    mark lit s = some [.token .punctuation lit.toList] :=
  Construct.literal_eq_some.2 ⟨h, rfl⟩

theorem seq_angle (s : List Char) :
    Construct.seq [trivia, mark ">"] ('>' :: s) = some [.token .punctuation ">".toList] :=
  seq_cons_of_drop (trivia_eq_nil (by decide) (by decide) s) rfl <|
    seq_cons_of_drop (mark_eq_some (by simp)) rfl (Construct.seq_nil_eq_some.2 rfl)

/-- A name is no closing bracket. -/
theorem seq_trivia_angle_a (s : List Char) :
    Construct.seq [trivia, mark ">"] ('a' :: s) = none := by
  have htrivia := trivia_eq_nil (c := 'a') (by decide) (by decide) s
  have hmark : mark ">" ('a' :: s) = none := by
    simp [mark, Construct.literal, Text.startsWith]
  rw [(Construct.seq_cons_of_some htrivia _).1, Piece.width_nil, List.drop_zero,
    (Construct.seq_cons_of_none hmark _).1]
  rfl

/-- The plainest tag that opens an element is read in front of any text. -/
theorem tag?_opening [Text.IdentifierClasses] (s : List Char) :
    tag? ('<' :: 'a' :: '>' :: s) = some (.opening, [.token .punctuation "<".toList,
      .token .tagName "a".toList, .token .punctuation ">".toList]) := by
  have hbracket : mark "<" ('<' :: 'a' :: '>' :: s) = some [.token .punctuation "<".toList] :=
    mark_eq_some (by simp)
  have hfragment : Construct.seq [mark "<", trivia, mark ">"] ('<' :: 'a' :: '>' :: s) = none := by
    rw [(Construct.seq_cons_of_some hbracket _).1]
    exact congrArg (Option.map _) (seq_trivia_angle_a ('>' :: s))
  have htrivia := trivia_eq_nil (c := 'a') (by decide) (by decide) ('>' :: s)
  have hopening := seq_cons_of_drop hbracket rfl <| seq_cons_of_drop htrivia rfl <|
    seq_cons_of_drop (tagName_a s) rfl <| seq_cons_of_drop (tagAttributes_angle s) rfl (seq_angle s)
  simp only [List.nil_append, List.cons_append] at hopening
  have hforms : tagForms ('<' :: 'a' :: '>' :: s) =
      openingForms ++ closingForms [mark "<", trivia, mark "/"] := by
    simp [tagForms, Text.startsWith]
  rw [tag?, hforms, openingForms]
  simp only [List.cons_append, List.findSome?_cons, hfragment, hopening, Option.map_none,
    Option.map_some]

/-- The plainest tag that closes an element is read in front of any text. -/
theorem tag?_closing [Text.IdentifierClasses] (s : List Char) :
    tag? ('<' :: '/' :: 'a' :: '>' :: s) = some (.closing, [.token .punctuation "</".toList,
      .token .tagName "a".toList, .token .punctuation ">".toList]) := by
  have hbracket :
      mark "</" ('<' :: '/' :: 'a' :: '>' :: s) = some [.token .punctuation "</".toList] :=
    mark_eq_some (by simp)
  have hfragment :
      Construct.seq [mark "</", trivia, mark ">"] ('<' :: '/' :: 'a' :: '>' :: s) = none := by
    rw [(Construct.seq_cons_of_some hbracket _).1]
    exact congrArg (Option.map _) (seq_trivia_angle_a ('>' :: s))
  have htrivia := trivia_eq_nil (c := 'a') (by decide) (by decide) ('>' :: s)
  have hclosing := seq_cons_of_drop hbracket rfl <| seq_cons_of_drop htrivia rfl <|
    seq_cons_of_drop (tagName_a s) rfl (seq_angle s)
  simp only [List.nil_append, List.cons_append] at hclosing
  have hforms : tagForms ('<' :: '/' :: 'a' :: '>' :: s) = closingForms [mark "</"] := by
    simp [tagForms, Text.startsWith]
  rw [tag?, hforms, closingForms]
  simp only [List.cons_append, List.nil_append, List.findSome?_cons, hfragment, hclosing,
    Option.map_none, Option.map_some]

/-- The element whose only child is code. -/
def inElement (code : List Char) : List Char := "<a>\x7b".toList ++ code ++ "\x7d</a>".toList

theorem inElement_eq (code : List Char) : inElement code =
    '<' :: 'a' :: '>' :: '\x7b' :: (code ++ ['\x7d', '<', '/', 'a', '>']) := by
  simp [inElement]

def elementFront : List (Piece Kind) :=
  [.token .symPunc "<".toList, .token .markupTag "a".toList, .token .symPunc ">".toList,
    .token .symBrace "\x7b".toList]

def elementBehind : List (Piece Kind) :=
  [.token .symBrace "\x7d".toList, .token .symPunc "</".toList, .token .markupTag "a".toList,
    .token .symPunc ">".toList]

theorem container_code (code : List Char) :
    container embed ('\x7b' :: (code ++ ['\x7d'])) =
      between [.token .symBrace "\x7b".toList] embed code [.token .symBrace "\x7d".toList] := by
  simp [container, between, Piece.shown]

variable [Text.IdentifierClasses]

theorem run_child_closing :
    run (child embed) 1 ['<', '/', 'a', '>'] = [.token .symPunc "</".toList,
      .token .markupTag "a".toList, .token .symPunc ">".toList] := by
  refine run_of_step (?_ : child embed 1 _ = some (_, 0)) rfl
  simp [child, Text.startsWith, tag?_closing [], showTag, showPart, depthAfter, TagKind.opens,
    TagKind.closes]

include hbraced

/-- The children are the code and the tag that closes the element. -/
theorem run_child_code (hembed : embed.Covering) :
    run (child embed) 1 ('\x7b' :: (code ++ ['\x7d', '<', '/', 'a', '>'])) =
      between [.token .symBrace "\x7b".toList] embed code elementBehind := by
  have hlength := bracedLength_code hbraced ['<', '/', 'a', '>']
  have htake :
      (code ++ ['\x7d', '<', '/', 'a', '>']).take (code.length + 1) = code ++ ['\x7d'] := by
    rw [List.take_length_add_append]
    rfl
  have hdrop : ('\x7b' :: (code ++ ['\x7d', '<', '/', 'a', '>'])).drop (code.length + 2) =
      ['<', '/', 'a', '>'] := by
    simp
  have hstep : child embed 1 ('\x7b' :: (code ++ ['\x7d', '<', '/', 'a', '>'])) =
      some (container embed ('\x7b' :: (code ++ ['\x7d'])), 1) := by
    simp [child, Text.startsWith, hlength, htake]
  have hwidth : width (container embed ('\x7b' :: (code ++ ['\x7d']))) = code.length + 2 := by
    rw [(covers_container hembed _).2]
    simp
  rw [run_cons, hstep]
  simp only [hwidth, Nat.succ_ne_zero, if_false, hdrop]
  rw [run_child_closing, container_code]
  simp [between, elementBehind]

theorem element_code (hembed : embed.Covering) :
    element embed (inElement code) = some (between elementFront embed code elementBehind) := by
  rw [inElement_eq]
  simp only [element, tag?_opening]
  simp [TagKind.opens, TagKind.closes, Piece.text, showTag, showPart, between, elementFront,
    run_child_code hbraced hembed]

/-! ## Scripts around code -/

/-- A script that is a template around code is read as one item. -/
theorem run_inTemplate (hembed : embed.Covering) :
    run (item embed strict) {} (inTemplate code) =
      between templateFront embed code templateBehind := by
  have htemplate := template_code hbraced hembed
  have hstring : string (inTemplate code) = none := by
    simp [inTemplate, string, Text.isQuote]
  have hoperand : operand embed strict true (inTemplate code) =
      some (between templateFront embed code templateBehind) := by
    rw [operand_eq, hstring, htemplate]
    rfl
  rw [inTemplate_eq] at hoperand ⊢
  refine run_of_step (item_of_operand (by decide) (by decide) hoperand) ?_
  simp [between, templateFront, templateBehind, (hembed code).2, Piece.text]
  omega

theorem operand_inElement (hembed : embed.Covering) :
    operand embed false true (inElement code) =
      some (between elementFront embed code elementBehind) := by
  have helement := element_code hbraced hembed
  rw [inElement_eq] at helement ⊢
  rw [operand_angle]
  exact helement

theorem run_inElement (hembed : embed.Covering) :
    run (item embed false) {} (inElement code) = between elementFront embed code elementBehind := by
  have hoperand := operand_inElement hbraced hembed
  rw [inElement_eq] at hoperand ⊢
  refine run_of_step (item_of_operand (by decide) (by decide) hoperand) ?_
  simp [between, elementFront, elementBehind, (hembed code).2, Piece.text]
  omega

end JavaScript

open JavaScript

section

variable [Text.IdentifierClasses]

/-- What a script leaves without merging. -/
abbrev scriptTokens (strict : Bool) (source : List Char) (sink : Sink) : List Token :=
  (highlight .javaScript { coalescing := false, strict } source sink).1.currentScan.toList

theorem scriptTokens_eq (strict : Bool) (source : List Char) (sink : Sink) :
    scriptTokens strict source sink = tokens 0 (scan strict source) :=
  currentScan_highlight .javaScript _ source sink

/-- Code is shown in a template and in an element as if it stood alone, if its brackets balance, it
has no hashbang line, and no code stands too deep in it. -/
theorem scriptTokens_embedded (sink : Sink) {code : List Char} (hhashbang : ¬ "#!".toList <+: code)
    (hbraced : bracedLength ("\x7b".toList ++ code ++ "\x7d".toList) = code.length + 2) :
    let n := Text.byteLength code
    (∀ strict, (∀ level > 255, codesBelow strict level 0 code = []) →
      scriptTokens strict ("`$\x7b".toList ++ code ++ "\x7d`".toList) sink =
        [⟨0, 1, .string⟩, ⟨1, 2, .symPunc⟩] ++
          (scriptTokens strict code sink).map (Token.shift 3) ++
          [⟨3 + n, 1, .symPunc⟩, ⟨4 + n, 1, .string⟩]) ∧
    ((∀ level > 255, codesBelow false level 0 code = []) →
      scriptTokens false ("<a>\x7b".toList ++ code ++ "\x7d</a>".toList) sink =
        [⟨0, 1, .symPunc⟩, ⟨1, 1, .markupTag⟩, ⟨2, 1, .symPunc⟩, ⟨3, 1, .symBrace⟩] ++
          (scriptTokens false code sink).map (Token.shift 4) ++
          [⟨4 + n, 1, .symBrace⟩, ⟨5 + n, 2, .symPunc⟩, ⟨7 + n, 1, .markupTag⟩,
            ⟨8 + n, 1, .symPunc⟩]) := by
  intro n
  have hembed (strict : Bool) : Reader.Covering (scanLevels strict 256) :=
    covers_scanLevels strict 256
  have hcode : bracedLength ('\x7b' :: (code ++ ['\x7d'])) = code.length + 2 := by
    simpa using hbraced
  constructor
  · intro strict hdepth
    have hscan : scan strict (inTemplate code) = _ :=
      (scan_eq_scanLevels (by simp [inTemplate])).trans (run_inTemplate hcode (hembed strict))
    rw [scriptTokens_eq, scriptTokens_eq]
    change tokens 0 (scan strict (inTemplate code)) = _
    rw [hscan, tokens_between (hembed strict), tokens_code hhashbang hdepth, Nat.add_comm _ n,
      Nat.add_comm 3 n, Nat.add_comm 4 n]
    rfl
  · intro hdepth
    have hscan : scan false (inElement code) = _ :=
      (scan_eq_scanLevels (by simp [inElement])).trans (run_inElement hcode (hembed false))
    rw [scriptTokens_eq, scriptTokens_eq]
    change tokens 0 (scan false (inElement code)) = _
    rw [hscan, tokens_between (hembed false), tokens_code hhashbang hdepth, Nat.add_comm _ n,
      Nat.add_comm 4 n, Nat.add_comm 5 n, Nat.add_comm 7 n, Nat.add_comm 8 n]
    rfl

end

/-- A template is shown in another template and in an element as if it stood alone. -/
theorem scriptTokens_embedded_template :
    let code := "`$\x7b2\x7d`".toList
    scriptTokens true ("`$\x7b".toList ++ code ++ "\x7d`".toList) .empty =
        [⟨0, 1, .string⟩, ⟨1, 2, .symPunc⟩] ++
          (scriptTokens true code .empty).map (Token.shift 3) ++
          [⟨9, 1, .symPunc⟩, ⟨10, 1, .string⟩] ∧
      scriptTokens false ("<a>\x7b".toList ++ code ++ "\x7d</a>".toList) .empty =
        [⟨0, 1, .symPunc⟩, ⟨1, 1, .markupTag⟩, ⟨2, 1, .symPunc⟩, ⟨3, 1, .symBrace⟩] ++
          (scriptTokens false code .empty).map (Token.shift 4) ++
          [⟨10, 1, .symBrace⟩, ⟨11, 2, .symPunc⟩, ⟨13, 1, .markupTag⟩, ⟨14, 1, .symPunc⟩] := by
  intro code
  have htwo (strict : Bool) : codesBelow strict 2 0 code = [] := by
    cases strict <;> decide +kernel
  have hdepth (strict : Bool) : ∀ level > 255, codesBelow strict level 0 code = [] :=
    fun _ hlevel ↦ codesBelow_eq_nil (htwo strict) (by omega)
  have hhashbang : ¬ "#!".toList <+: code := by decide
  obtain ⟨htemplate, helement⟩ := scriptTokens_embedded .empty hhashbang (by decide +kernel)
  exact ⟨htemplate true (hdepth true), helement (hdepth false)⟩

end Highlight
