import Highlight.Proofs.JavaScript.Grammar
import Highlight.Proofs.JavaScript.Steady

/-!
# Code in brackets that balances

Measuring code in curly brackets finds the front that the grammar of such code gives, and finds none
exactly where the grammar gives none. What is open at a place is a stack, and a text closes the
stack if it closes one after the other what stands on it, each with items of its own kind in front
of its closing end. A step that reads some characters turns a text that closes the stack behind the
step into one that closes the stack before it, so whatever the measuring reads closes what was open.
The other way round the measuring reads items, however deep they nest, without touching the stack
they are read on.
-/

namespace Highlight.JavaScript

open Grammar

variable {u r : List Char}

theorem Grammar.QuotedRest.quotedLengthFrom_append {quote : Char} {s : List Char}
    (h : QuotedRest quote s) (hquote : Text.isQuote quote) (n : Nat) (r : List Char) :
    quotedLengthFrom quote n (s ++ r) = n + s.length := by
  have hbackslash : quote ≠ '\\' := by
    rintro rfl
    exact absurd hquote (by decide)
  induction h generalizing n with
  | close => rw [List.singleton_append, quotedLengthFrom_cons hbackslash, if_pos rfl]; rfl
  | @escaped c s hs ih =>
    change quotedLengthFrom quote (n + 2) (s ++ r) = n + (s.length + 2)
    rw [ih, Nat.add_assoc, Nat.add_comm 2]
  | @plain c s hc hplain hs ih =>
    rw [List.cons_append, quotedLengthFrom_cons hplain, if_neg hc, ih, List.length_cons,
      Nat.add_assoc, Nat.add_comm 1]

/-- What is measured behind a quote is a string in the sense of the grammar. -/
theorem exists_quotedRest {quote : Char} {n : Nat} {s : List Char}
    (h : quotedLengthFrom quote n s ≠ 0) :
    ∃ u r, s = u ++ r ∧ QuotedRest quote u ∧ quotedLengthFrom quote n s = n + u.length := by
  fun_induction quotedLengthFrom quote n s with
  | case1 | case2 => exact absurd rfl h
  | case3 n d rest ih =>
    obtain ⟨u, r, rfl, hu, hlength⟩ := ih h
    refine ⟨'\\' :: d :: u, r, rfl, .escaped hu, ?_⟩
    rw [hlength, List.length_cons, List.length_cons]
    omega
  | case4 n s => exact ⟨[quote], s, rfl, .close, rfl⟩
  | case5 n c s hbackslash hquote ih =>
    obtain ⟨u, r, rfl, hu, hlength⟩ := ih h
    refine ⟨c :: u, r, rfl, .plain hquote hbackslash hu, ?_⟩
    rw [hlength, List.length_cons]
    omega

/-- Behind a quote a string is measured as the grammar has it. -/
theorem quotedLength_append_iff {quote : Char} (hquote : Text.isQuote quote) :
    quotedLength (quote :: u ++ r) = (quote :: u).length ↔ Quoted (quote :: u) := by
  constructor
  · intro h
    change quotedLengthFrom quote 1 (u ++ r) = u.length + 1 at h
    have hne : quotedLengthFrom quote 1 (u ++ r) ≠ 0 := h.trans_ne (Nat.succ_ne_zero _)
    obtain ⟨v, rest, hsplit, hv, hlength⟩ := exists_quotedRest hne
    have hsame : u.length = v.length := by omega
    obtain ⟨rfl, -⟩ := List.append_inj hsplit hsame
    exact .mk hquote hv
  · rintro ⟨-, hu⟩
    change quotedLengthFrom quote 1 (u ++ r) = u.length + 1
    rw [hu.quotedLengthFrom_append hquote, Nat.add_comm]

/-- A line comment is as long as it can be. -/
theorem lineCommentLength_append_iff (hu : u ≠ []) :
    lineCommentLength (u ++ r) = u.length ↔
      LineComment u ∧ Text.startsIn (!isLineTerminator ·) r = false := by
  have hline (body r : List Char) : lineCommentLength ("//".toList ++ body ++ r) =
      2 + Text.spanLength (!isLineTerminator ·) (body ++ r) := by
    rw [List.append_assoc, lineCommentLength, restOfLine, Text.after?_eq_some.2 rfl]
    rfl
  have hspan {body : List Char} :
      2 + Text.spanLength (!isLineTerminator ·) (body ++ r) = ("//".toList ++ body).length ↔
        (∀ c ∈ body, isLineTerminator c = false) ∧
          Text.startsIn (!isLineTerminator ·) r = false := by
    rw [List.length_append, show "//".toList.length = 2 from rfl, Nat.add_left_cancel_iff,
      Text.spanLength_append_iff]
    simp only [Bool.not_eq_true']
  constructor
  · intro h
    cases hafter : Text.after? "//" (u ++ r) with
    | none =>
      rw [lineCommentLength, restOfLine, hafter] at h
      exact absurd (List.length_eq_zero_iff.1 h.symm) hu
    | some rest =>
      have htwo : 2 ≤ u.length := by
        rw [lineCommentLength, restOfLine, hafter] at h
        rw [← h]
        exact Nat.le_add_right 2 _
      obtain ⟨body, rfl⟩ : "//".toList <+: u := List.prefix_of_prefix_length_le
        ⟨rest, (Text.after?_eq_some.1 hafter).symm⟩ (List.prefix_append u r) htwo
      rw [hline, hspan] at h
      exact ⟨.mk h.1, h.2⟩
  · rintro ⟨⟨hbody⟩, hr⟩
    rw [hline, hspan]
    exact ⟨hbody, hr⟩

/-- A block comment ends at the first star and slash. -/
theorem closedCommentLength_append_iff (hu : u ≠ []) :
    closedCommentLength (u ++ r) = u.length ↔ BlockComment u := by
  constructor
  · intro h
    have hne : closedCommentLength (u ++ r) ≠ 0 := h.symm ▸ List.length_pos_iff.2 hu |>.ne'
    unfold closedCommentLength Comment.blockExtent at h hne
    cases hafter : Text.after? "/*" (u ++ r) with
    | none => simp [hafter] at hne
    | some rest =>
      cases hfind : Text.findLiteral? "*/" rest with
      | none => simp [hafter, hfind] at hne
      | some n =>
        simp only [hafter, hfind, if_true] at h
        obtain ⟨body, behind, hsplit, -, rfl, hfirst⟩ :=
          Text.exists_between (by decide) hafter hfind
        have hlength : u.length = ("/*".toList ++ body ++ "*/".toList).length := by
          rw [← h, List.length_append, List.length_append]
          rfl
        obtain ⟨rfl, -⟩ := List.append_inj hsplit hlength
        exact .mk hfirst
  · rintro ⟨hbody⟩
    rename_i body
    have hafter : Text.after? "/*" ("/*".toList ++ body ++ "*/".toList ++ r) =
        some (body ++ ("*/".toList ++ r)) :=
      Text.after?_eq_some.2 (by simp only [List.append_assoc])
    have hfind : Text.findLiteral? "*/" (body ++ ("*/".toList ++ r)) = some body.length :=
      (Text.findLiteral?_append_iff (by decide)).2 hbody
    simp only [closedCommentLength, Comment.blockExtent, hafter, hfind, if_true,
      List.length_append]
    rfl

theorem Grammar.LineComment.startsWith (h : LineComment u) (r : List Char) :
    Text.startsWith "//" (u ++ r) := by
  obtain ⟨-⟩ := h
  rw [Text.startsWith_iff, List.append_assoc]
  exact List.prefix_append _ _

theorem Grammar.BlockComment.startsWith (h : BlockComment u) (r : List Char) :
    Text.startsWith "/*" (u ++ r) := by
  obtain ⟨-⟩ := h
  rw [Text.startsWith_iff, List.append_assoc, List.append_assoc]
  exact List.prefix_append _ _

theorem not_startsWith_both {s : List Char} (hline : Text.startsWith "//" s) :
    ¬ Text.startsWith "/*" s := by
  intro hblock
  have hfirst := List.prefix_of_prefix_length_le (Text.startsWith_iff.1 hline)
    (Text.startsWith_iff.1 hblock) (by decide)
  exact absurd hfirst (by decide)

/-- A character begins a comment only as a slash with a slash or a star behind it. -/
theorem begins_no_comment_iff {c : Char} :
    (c = '/' → Text.startsIn (fun d ↦ d == '/' || d == '*') r = false) ↔
      ¬ Text.startsWith "//" (c :: r) ∧ ¬ Text.startsWith "/*" (c :: r) := by
  rw [Text.startsWith_pair (show "//".toList = ['/', '/'] from rfl),
    Text.startsWith_pair (show "/*".toList = ['/', '*'] from rfl)]
  cases r with
  | nil => simp
  | cons d r => by_cases hc : c = '/' <;> simp [hc]

theorem Grammar.PlainItem.exists_cons (h : PlainItem r u) :
    ∃ c v, u = c :: v ∧ c ≠ '\x7d' ∧ c ≠ '\x7b' ∧ c ≠ '\x60' := by
  cases h with
  | quoted h =>
    obtain ⟨hquote, -⟩ := h
    refine ⟨_, _, rfl, ?_, ?_, ?_⟩
    all_goals
      rintro rfl
      exact absurd hquote (by decide)
  | lineComment h =>
    obtain ⟨-⟩ := h
    exact ⟨'/', _, rfl, by decide, by decide, by decide⟩
  | blockComment h =>
    obtain ⟨-⟩ := h
    exact ⟨'/', _, rfl, by decide, by decide, by decide⟩
  | single hc =>
    simp only [List.mem_cons, List.not_mem_nil, or_false, not_or] at hc
    exact ⟨_, [], rfl, hc.2.1, hc.1, hc.2.2.2.2⟩

/-- What is no bracket is measured as the grammar has it, up to the end of the text. -/
theorem plainCodeLength_append_iff {c : Char} {v : List Char}
    (hc : c ≠ '\x7d' ∧ c ≠ '\x7b' ∧ c ≠ '\x60') (hr : r ≠ []) :
    plainCodeLength (c :: v ++ r) = (c :: v).length ↔ PlainItem r (c :: v) := by
  have hu : c :: v ≠ [] := List.cons_ne_nil c v
  -- Each form is told by how it begins.
  have hquoted : Quoted (c :: v) → Text.isQuote c := fun ⟨h, _⟩ ↦ h
  have hline (h : LineComment (c :: v)) := h.startsWith r
  have hblock (h : BlockComment (c :: v)) := h.startsWith r
  have hnoQuote : Text.startsWith "//" (c :: v ++ r) ∨ Text.startsWith "/*" (c :: v ++ r) →
      ¬ Text.isQuote c := by
    simp only [Text.startsWith_iff]
    rintro (h | h)
    all_goals
      obtain ⟨rfl, -⟩ := List.cons_prefix_cons.1 h
      decide
  rw [List.cons_append, plainCodeLength_cons, ← List.cons_append]
  split_ifs with isQuote isLine isBlock
  · rw [quotedLength_append_iff isQuote]
    refine ⟨.quoted, fun h ↦ ?_⟩
    cases h with
    | quoted h => exact h
    | lineComment h => exact absurd isQuote (hnoQuote (.inl (hline h)))
    | blockComment h => exact absurd isQuote (hnoQuote (.inr (hblock h)))
    | single hsingle =>
      rw [Text.isQuote] at isQuote
      simp_all
  · rw [lineCommentLength_append_iff hu, Text.startsIn_not_iff hr]
    refine ⟨fun h ↦ .lineComment h.1 h.2, fun h ↦ ?_⟩
    cases h with
    | quoted h => exact absurd (hquoted h) isQuote
    | lineComment h hr => exact ⟨h, hr⟩
    | blockComment h => exact absurd (hblock h) (not_startsWith_both isLine)
    | single _ hnone => exact absurd isLine (begins_no_comment_iff.1 hnone).1
  · rw [closedCommentLength_append_iff hu]
    refine ⟨.blockComment, fun h ↦ ?_⟩
    cases h with
    | quoted h => exact absurd (hquoted h) isQuote
    | lineComment h => exact absurd (hline h) isLine
    | blockComment h => exact h
    | single _ hnone => exact absurd isBlock (begins_no_comment_iff.1 hnone).2
  · rw [List.length_cons, eq_comm, Nat.add_eq_right, List.length_eq_zero_iff]
    constructor
    · rintro rfl
      refine .single ?_ (begins_no_comment_iff.2 ⟨isLine, isBlock⟩)
      rw [Text.isQuote] at isQuote
      simp_all
    · intro h
      cases h with
      | quoted h => exact absurd (hquoted h) isQuote
      | lineComment h => exact absurd (hline h) isLine
      | blockComment h => exact absurd (hblock h) isBlock
      | single => rfl

/-- The bracket that closes code behind an item is no part of the item. -/
theorem plainItem_append_iff {s : List Char} :
    PlainItem (s ++ '\x7d' :: r) u ↔ PlainItem s u := by
  have hend := Text.startsIn_append_cons (p := isLineTerminator) (c := '\x7d') (by decide) s r
  have hcomment := Text.startsIn_append_cons (p := fun d ↦ d == '/' || d == '*') (c := '\x7d')
    (by decide) s r
  constructor
  · rintro (h | ⟨h, hs⟩ | h | ⟨h, hs⟩)
    · exact .quoted h
    · exact .lineComment h (hend ▸ hs)
    · exact .blockComment h
    · exact .single h (hcomment ▸ hs)
  · rintro (h | ⟨h, hs⟩ | h | ⟨h, hs⟩)
    · exact .quoted h
    · exact .lineComment h (hend ▸ hs)
    · exact .blockComment h
    · exact .single h (hcomment ▸ hs)

/-- A text that closes one after the other what is open, the innermost first. -/
inductive Closes : List Nesting → List Char → Prop
  | nil : Closes [] []
  | braces {below : List Nesting} {items rest : List Char} : Items items → Closes below rest →
      Closes (.braces :: below) (items ++ '\x7d' :: rest)
  | template {below : List Nesting} {parts rest : List Char} : TemplateParts parts →
      Closes below rest → Closes (.template :: below) (parts ++ '\x60' :: rest)

theorem code_iff_closes {s : List Char} : Grammar.Code ('\x7b' :: s) ↔ Closes [.braces] s := by
  constructor
  · rintro ⟨hitems⟩
    exact .braces hitems .nil
  · intro h
    cases h with
    | braces hitems hrest =>
      cases hrest with
      | nil => exact .mk hitems

/-- A step that takes characters in front leaves the rest to be measured. -/
theorem bracedLengthFrom_of_step {top : Nesting} {below opened : List Nesting} (hu : u ≠ [])
    (h : nestingStep top below (u ++ r) = (opened, u.length)) (n : Nat) :
    bracedLengthFrom n (top :: below) (u ++ r) = bracedLengthFrom (n + u.length) opened r := by
  obtain ⟨c, v, rfl⟩ := List.exists_cons_of_ne_nil hu
  rw [List.cons_append] at h ⊢
  rw [bracedLengthFrom, h]
  simp only [List.length_cons, Nat.succ_ne_zero, if_false]
  rw [List.drop_succ_cons, List.drop_left]

theorem Grammar.PlainItem.bracedLengthFrom_append (h : PlainItem r u) (hr : r ≠ [])
    (below : List Nesting) (n : Nat) :
    bracedLengthFrom n (.braces :: below) (u ++ r) =
      bracedLengthFrom (n + u.length) (.braces :: below) r := by
  obtain ⟨c, v, rfl, hc⟩ := h.exists_cons
  apply bracedLengthFrom_of_step (List.cons_ne_nil c v)
  rw [List.cons_append, nestingStep]
  simp only [hc, if_false]
  rw [← List.cons_append, (plainCodeLength_append_iff hc hr).2 h]

theorem Grammar.Code.exists_cons {s : List Char} (h : Grammar.Code s) :
    ∃ v, s = '\x7b' :: v := by
  cases h with
  | mk h => exact ⟨_, rfl⟩

theorem Grammar.Template.exists_cons {s : List Char} (h : Template s) : ∃ v, s = '\x60' :: v := by
  cases h with
  | mk h => exact ⟨_, rfl⟩

mutual

/-- Code behind its opening bracket is taken off what is open. -/
theorem Grammar.Code.bracedLengthFrom_append : ∀ {s : List Char}, Grammar.Code s →
    ∀ (n : Nat) (below : List Nesting) (r : List Char),
      bracedLengthFrom n (.braces :: below) (s.tail ++ r) =
        bracedLengthFrom (n + s.tail.length) below r
  | _, .mk hitems, n, below, r => by
    rw [List.tail_cons, List.append_assoc, List.singleton_append, hitems.bracedLengthFrom_append,
      List.length_append, List.length_singleton, Nat.add_assoc]

/-- Items and the bracket behind them are taken off what is open. -/
theorem Grammar.Items.bracedLengthFrom_append : ∀ {items : List Char}, Items items →
    ∀ (n : Nat) (below : List Nesting) (r : List Char),
      bracedLengthFrom n (.braces :: below) (items ++ '\x7d' :: r) =
        bracedLengthFrom (n + items.length + 1) below r
  | _, .nil, n, below, r =>
    bracedLengthFrom_of_step (u := ['\x7d']) (List.cons_ne_nil _ _) rfl n
  | _, .code (s := s) (t := t) hs ht, n, below, r => by
    have hinside := hs.bracedLengthFrom_append (n + 1) (.braces :: below) (t ++ '\x7d' :: r)
    have hrest := ht.bracedLengthFrom_append (n + 1 + s.tail.length) below r
    obtain ⟨v, rfl⟩ := hs.exists_cons
    have hopen :
        bracedLengthFrom n (.braces :: below) (['\x7b'] ++ (v ++ (t ++ '\x7d' :: r))) = _ :=
      bracedLengthFrom_of_step (List.cons_ne_nil _ _) rfl n
    rw [List.append_assoc]
    refine (hopen.trans (hinside.trans hrest)).trans ?_
    congr 1
    simp only [List.length_append, List.length_cons, List.tail_cons]
    omega
  | _, .template (s := s) (t := t) hs ht, n, below, r => by
    have hinside := hs.bracedLengthFrom_append (n + 1) (.braces :: below) (t ++ '\x7d' :: r)
    have hrest := ht.bracedLengthFrom_append (n + 1 + s.tail.length) below r
    obtain ⟨v, rfl⟩ := hs.exists_cons
    have hopen :
        bracedLengthFrom n (.braces :: below) (['\x60'] ++ (v ++ (t ++ '\x7d' :: r))) = _ :=
      bracedLengthFrom_of_step (List.cons_ne_nil _ _) rfl n
    rw [List.append_assoc]
    refine (hopen.trans (hinside.trans hrest)).trans ?_
    congr 1
    simp only [List.length_append, List.length_cons, List.tail_cons]
    omega
  | _, .plain hs ht, n, below, r => by
    have hplain := (plainItem_append_iff (r := r)).2 hs
    rw [List.append_assoc, hplain.bracedLengthFrom_append (by simp), ht.bracedLengthFrom_append,
      List.length_append, Nat.add_assoc n]

/-- A template behind its opening quote is taken off what is open. -/
theorem Grammar.Template.bracedLengthFrom_append : ∀ {s : List Char}, Template s →
    ∀ (n : Nat) (below : List Nesting) (r : List Char),
      bracedLengthFrom n (.template :: below) (s.tail ++ r) =
        bracedLengthFrom (n + s.tail.length) below r
  | _, .mk hparts, n, below, r => by
    rw [List.tail_cons, List.append_assoc, List.singleton_append, hparts.bracedLengthFrom_append,
      List.length_append, List.length_singleton, Nat.add_assoc]

/-- The parts of a template and the quote behind them are taken off what is open. -/
theorem Grammar.TemplateParts.bracedLengthFrom_append : ∀ {parts : List Char},
    TemplateParts parts → ∀ (n : Nat) (below : List Nesting) (r : List Char),
      bracedLengthFrom n (.template :: below) (parts ++ '\x60' :: r) =
        bracedLengthFrom (n + parts.length + 1) below r
  | _, .nil, n, below, r =>
    bracedLengthFrom_of_step (u := ['\x60']) (List.cons_ne_nil _ _) rfl n
  | _, .escaped (c := c) (t := t) ht, n, below, r => by
    have hstep : bracedLengthFrom n (.template :: below) (['\\', c] ++ (t ++ '\x60' :: r)) = _ :=
      bracedLengthFrom_of_step (List.cons_ne_nil _ _) rfl n
    refine hstep.trans ?_
    rw [ht.bracedLengthFrom_append]
    congr 1
    simp only [List.length_cons, List.length_nil]
    omega
  | _, .substitution (s := s) (t := t) hs ht, n, below, r => by
    have hinside := hs.bracedLengthFrom_append (n + 2) (.template :: below) (t ++ '\x60' :: r)
    have hrest := ht.bracedLengthFrom_append (n + 2 + s.tail.length) below r
    obtain ⟨v, rfl⟩ := hs.exists_cons
    have hopen :
        bracedLengthFrom n (.template :: below) (['$', '\x7b'] ++ (v ++ (t ++ '\x60' :: r))) = _ :=
      bracedLengthFrom_of_step (List.cons_ne_nil _ _) rfl n
    rw [List.cons_append, List.append_assoc]
    refine (hopen.trans (hinside.trans hrest)).trans ?_
    congr 1
    simp only [List.length_append, List.length_cons, List.tail_cons]
    omega
  | _, .plain (c := c) (t := t) hquote hbackslash hdollar ht, n, below, r => by
    have hsubstitution : Text.startsWith "$\x7b" (c :: (t ++ '\x60' :: r)) = false := by
      rw [Text.startsWith_pair (show "$\x7b".toList = ['$', '\x7b'] from rfl),
        Text.startsIn_append_cons (by decide), Bool.and_eq_false_imp]
      exact fun hc ↦ hdollar (beq_iff_eq.1 hc)
    have hsame : nestingStep .template below ([c] ++ (t ++ '\x60' :: r)) =
        (.template :: below, [c].length) := by
      simp [nestingStep, hquote, hbackslash, hsubstitution]
    have hstep := bracedLengthFrom_of_step (List.cons_ne_nil _ _) hsame n
    refine hstep.trans ?_
    rw [ht.bracedLengthFrom_append]
    congr 1
    simp only [List.length_cons, List.length_nil]
    omega

end

/-! ## Measured code is in the grammar -/

theorem Closes.exists_template {below : List Nesting} (h : Closes (.template :: below) u) :
    ∃ parts rest, u = parts ++ '\x60' :: rest ∧ TemplateParts parts ∧ Closes below rest := by
  cases h with
  | template hparts hrest => exact ⟨_, _, rfl, hparts, hrest⟩

theorem Closes.exists_braces {below : List Nesting} (h : Closes (.braces :: below) u) :
    ∃ items rest, u = items ++ '\x7d' :: rest ∧ Items items ∧ Closes below rest := by
  cases h with
  | braces hitems hrest => exact ⟨_, _, rfl, hitems, hrest⟩

/-- What a step in a template reads stands in front of what closes the stack behind it. -/
theorem closes_of_templateStep {below opened : List Nesting} {v : List Char} (hv : v ≠ [])
    (h : nestingStep .template below (v ++ (u ++ r)) = (opened, v.length)) (hu : Closes opened u) :
    Closes (.template :: below) (v ++ u) := by
  obtain ⟨c, v, rfl⟩ := List.exists_cons_of_ne_nil hv
  simp only [List.cons_append, nestingStep] at h
  split_ifs at h with hquote hbackslash hopening
  · obtain ⟨rfl, hlength⟩ := Prod.mk.inj h
    obtain rfl : v = [] := List.length_eq_zero_iff.1 (Nat.succ.inj hlength).symm
    subst hquote
    exact .template .nil hu
  · obtain ⟨rfl, hlength⟩ := Prod.mk.inj h
    obtain ⟨parts, rest, rfl, hparts, hrest⟩ := hu.exists_template
    subst hbackslash
    -- The text is closed behind the step, so there is a character that the backslash protects.
    have hone : v.length = 1 := by
      simp only [List.length_take, List.length_append, List.length_cons] at hlength
      omega
    obtain ⟨d, rfl⟩ := List.length_eq_one_iff.1 hone
    exact .template (.escaped hparts) hrest
  · obtain ⟨rfl, hlength⟩ := Prod.mk.inj h
    obtain ⟨items, behind, rfl, hitems, hbehind⟩ := hu.exists_braces
    obtain ⟨parts, rest, rfl, hparts, hrest⟩ := hbehind.exists_template
    obtain ⟨d, rfl⟩ := List.length_eq_one_iff.1 (Nat.succ.inj hlength).symm
    rw [Text.startsWith_pair (show "$\x7b".toList = ['$', '\x7b'] from rfl), List.singleton_append,
      Text.startsIn_cons, Bool.and_eq_true, beq_iff_eq, beq_iff_eq] at hopening
    obtain ⟨rfl, rfl⟩ := hopening
    have hsubstitution := Closes.template (.substitution (.mk hitems) hparts) hrest
    simpa only [List.append_assoc, List.cons_append, List.nil_append] using hsubstitution
  · obtain ⟨rfl, hlength⟩ := Prod.mk.inj h
    obtain rfl : v = [] := List.length_eq_zero_iff.1 (Nat.succ.inj hlength).symm
    obtain ⟨parts, rest, rfl, hparts, hrest⟩ := hu.exists_template
    refine .template (.plain hquote hbackslash ?_ hparts) hrest
    rintro rfl
    rw [List.nil_append, List.append_assoc, List.cons_append,
      Text.startsWith_pair (show "$\x7b".toList = ['$', '\x7b'] from rfl),
      Text.startsIn_append_cons (by decide)] at hopening
    simpa using hopening

/-- What a step in code reads stands in front of what closes the stack behind it. -/
theorem closes_of_bracesStep {below opened : List Nesting} {v : List Char} (hv : v ≠ [])
    (h : nestingStep .braces below (v ++ (u ++ r)) = (opened, v.length)) (hu : Closes opened u) :
    Closes (.braces :: below) (v ++ u) := by
  obtain ⟨c, v, rfl⟩ := List.exists_cons_of_ne_nil hv
  simp only [List.cons_append, nestingStep] at h
  split_ifs at h with hclose hopen htemplate
  · obtain ⟨rfl, hlength⟩ := Prod.mk.inj h
    obtain rfl : v = [] := List.length_eq_zero_iff.1 (Nat.succ.inj hlength).symm
    subst hclose
    exact .braces .nil hu
  · obtain ⟨rfl, hlength⟩ := Prod.mk.inj h
    obtain rfl : v = [] := List.length_eq_zero_iff.1 (Nat.succ.inj hlength).symm
    obtain ⟨inside, behind, rfl, hinside, hbehind⟩ := hu.exists_braces
    obtain ⟨items, rest, rfl, hitems, hrest⟩ := hbehind.exists_braces
    subst hopen
    have hcode := Closes.braces (.code (.mk hinside) hitems) hrest
    simpa only [List.append_assoc, List.cons_append, List.nil_append] using hcode
  · obtain ⟨rfl, hlength⟩ := Prod.mk.inj h
    obtain rfl : v = [] := List.length_eq_zero_iff.1 (Nat.succ.inj hlength).symm
    obtain ⟨parts, behind, rfl, hparts, hbehind⟩ := hu.exists_template
    obtain ⟨items, rest, rfl, hitems, hrest⟩ := hbehind.exists_braces
    subst htemplate
    have htemplate := Closes.braces (.template (.mk hparts) hitems) hrest
    simpa only [List.append_assoc, List.cons_append, List.nil_append] using htemplate
  · obtain ⟨rfl, hlength⟩ := Prod.mk.inj h
    obtain ⟨items, rest, rfl, hitems, hrest⟩ := hu.exists_braces
    rw [← List.cons_append, plainCodeLength_append_iff ⟨hclose, hopen, htemplate⟩ (by simp),
      List.append_assoc, List.cons_append, plainItem_append_iff] at hlength
    rw [← List.append_assoc]
    exact .braces (.plain hlength hitems) hrest

theorem closes_of_step {top : Nesting} {below opened : List Nesting} {v : List Char} (hv : v ≠ [])
    (h : nestingStep top below (v ++ (u ++ r)) = (opened, v.length)) (hu : Closes opened u) :
    Closes (top :: below) (v ++ u) := by
  cases top with
  | braces => exact closes_of_bracesStep hv h hu
  | template => exact closes_of_templateStep hv h hu

/-- Where something is open and its end is found, a step is taken first. -/
theorem exists_step {n : Nat} {top : Nesting} {below : List Nesting} {s : List Char}
    (h : bracedLengthFrom n (top :: below) s ≠ 0) :
    ∃ v w opened, s = v ++ w ∧ v ≠ [] ∧ nestingStep top below (v ++ w) = (opened, v.length) ∧
      bracedLengthFrom (n + v.length) opened w ≠ 0 := by
  cases s with
  | nil => simp [bracedLengthFrom] at h
  | cons c rest =>
    rw [bracedLengthFrom] at h
    have hle := nestingStep_le top below (c :: rest)
    cases hfound : nestingStep top below (c :: rest) with
    | mk opened step =>
      simp only [hfound] at h hle
      have hstep : step ≠ 0 := (ite_ne_left_iff.1 h).1
      rw [if_neg hstep] at h
      have hlength : ((c :: rest).take step).length = step := by
        rw [List.length_take, Nat.min_eq_left hle]
      have hread : (c :: rest).take step ≠ [] :=
        List.ne_nil_of_length_pos (hlength.symm ▸ Nat.pos_of_ne_zero hstep)
      refine ⟨(c :: rest).take step, (c :: rest).drop step, opened,
        (List.take_append_drop ..).symm, hread, ?_, ?_⟩
      · rw [List.take_append_drop, hlength, hfound]
      · rwa [hlength]

/-- What is measured closes all that is open. -/
theorem exists_closes {n : Nat} {opened : List Nesting} {s : List Char}
    (h : bracedLengthFrom n opened s ≠ 0) :
    ∃ u r, s = u ++ r ∧ Closes opened u ∧ bracedLengthFrom n opened s = n + u.length := by
  induction hs : s.length using Nat.strongRecOn generalizing n opened s with
  | ind m ih =>
    cases opened with
    | nil => exact ⟨[], s, rfl, .nil, by rw [bracedLengthFrom]; rfl⟩
    | cons top below =>
      obtain ⟨v, w, opened, rfl, hv, hstep, hrest⟩ := exists_step h
      have hshorter : w.length < m := by
        rw [← hs, List.length_append]
        exact Nat.lt_add_of_pos_left (List.length_pos_iff.2 hv)
      obtain ⟨u, r, rfl, hu, hcount⟩ := ih _ hshorter hrest rfl
      refine ⟨v ++ u, r, (List.append_assoc ..).symm, closes_of_step hv hstep hu, ?_⟩
      rw [bracedLengthFrom_of_step hv hstep, hcount, List.length_append, Nat.add_assoc]

/-! ## The measure and the grammar -/

/-- Code is measured up to its last bracket whatever follows. -/
theorem Grammar.Code.bracedLength_append {s : List Char} (h : Grammar.Code s) (r : List Char) :
    bracedLength (s ++ r) = s.length := by
  have hcount := h.bracedLengthFrom_append 1 [] r
  obtain ⟨v, rfl⟩ := h.exists_cons
  rw [List.tail_cons, bracedLengthFrom] at hcount
  refine hcount.trans ?_
  rw [List.length_cons, Nat.add_comm]

/-- What is measured is code. -/
theorem exists_code {s : List Char} (h : bracedLength s ≠ 0) :
    ∃ u r, s = u ++ r ∧ Grammar.Code u := by
  unfold bracedLength at h
  obtain ⟨hopening, hne⟩ := ite_ne_right_iff.1 h
  obtain ⟨rest, rfl⟩ := Text.startsWith_iff.1 hopening
  obtain ⟨u, r, hsplit, hu, -⟩ := exists_closes hne
  refine ⟨'\x7b' :: u, r, ?_, code_iff_closes.2 hu⟩
  change '\x7b' :: rest = '\x7b' :: (u ++ r)
  rw [← hsplit]
  rfl

theorem bracedLength_append_iff (hu : u ≠ []) :
    bracedLength (u ++ r) = u.length ↔ Grammar.Code u := by
  refine ⟨fun h ↦ ?_, fun h ↦ h.bracedLength_append r⟩
  obtain ⟨v, rest, hsplit, hv⟩ := exists_code (h.trans_ne (List.length_eq_zero_iff.not.2 hu))
  have hlength : u.length = v.length := by rw [← h, hsplit, hv.bracedLength_append]
  obtain ⟨rfl, -⟩ := List.append_inj hsplit hlength
  exact hv

/-- The measure of code in curly brackets is the length of the front that the grammar derives, and 0
exactly where it derives none. -/
theorem bracedLength_eq_iff_code (s : List Char) :
    (∀ n, 0 < n ∧ bracedLength s = n ↔ n ≤ s.length ∧ Grammar.Code (s.take n)) ∧
      (bracedLength s = 0 ↔ ∀ front, front <+: s → ¬ Grammar.Code front) := by
  have hfront {front : List Char} (hfirst : front <+: s) (hcode : Grammar.Code front) :
      bracedLength s = front.length := by
    obtain ⟨r, rfl⟩ := hfirst
    exact hcode.bracedLength_append r
  constructor
  · intro n
    constructor
    · rintro ⟨hpos, hn⟩
      obtain ⟨u, r, rfl, hu⟩ := exists_code (hn.trans_ne hpos.ne')
      have hlength : n = u.length := hn.symm.trans (hu.bracedLength_append r)
      rw [hlength, List.take_left]
      exact ⟨(List.prefix_append u r).length_le, hu⟩
    · rintro ⟨hn, hcode⟩
      have hlength := hfront (List.take_prefix n s) hcode
      rw [List.length_take, Nat.min_eq_left hn] at hlength
      obtain ⟨v, hv⟩ := hcode.exists_cons
      refine ⟨Nat.pos_of_ne_zero ?_, hlength⟩
      rintro rfl
      exact absurd hv (List.cons_ne_nil _ _).symm
  · constructor
    · intro hzero front hfirst hcode
      have hlength := hfront hfirst hcode
      obtain ⟨v, rfl⟩ := hcode.exists_cons
      exact absurd (hzero.symm.trans hlength) (Nat.succ_ne_zero _).symm
    · intro hnone
      by_contra hne
      obtain ⟨u, r, rfl, hu⟩ := exists_code hne
      exact hnone u (List.prefix_append u r) hu

end Highlight.JavaScript
