import Mathlib.Logic.Relation
import Highlight.Proofs.Piece.Steady
import Highlight.Text.Quoted

/-!
# Where quoted literals end

A quoted literal is a row of characters, of which a backslash protects the one behind it. It ends
with its quote, or else in front of the end of its line. A literal in parts is read by escapes
instead. A short escape takes what the backslash protects and some plain characters with it, so it
ends within the literal. A code in brackets is closed by a search, and that may find a bracket
behind the end of the literal. So the two ways to read a literal agree exactly if it comes to no code
in brackets behind which it does not come.
-/

namespace Highlight.Literal

open Piece (textOf width)

variable {κ : Type} {quote : Char} {s t u r : List Char}

/-- A character that ends a literal unless a backslash protects it. -/
def isEnd (quote c : Char) : Bool := c == quote || c == '\n' || c == '\r'

/-- A character that stands for itself in a literal. -/
def IsPlain (quote c : Char) : Prop := c ≠ '\\' ∧ isEnd quote c = false

/-- A step through a literal: a character, or a backslash with what it protects. That is the next
character, or the two that end a line together. -/
inductive Step (quote : Char) : List Char → List Char → Prop
  | plain {c : Char} {s : List Char} : IsPlain quote c → Step quote (c :: s) s
  | lineEnd {s : List Char} : Step quote ('\\' :: '\r' :: '\n' :: s) s
  | escaped {c : Char} {s : List Char} : (c = '\r' → s.head? ≠ some '\n') →
      Step quote ('\\' :: c :: s) s
  | lone : Step quote ['\\'] []

/-- From the front of the one text a literal comes to the other text. -/
def Passes (quote : Char) : List Char → List Char → Prop := Relation.ReflTransGen (Step quote)

/-- What belongs to the literal that the text goes on with: all up to the first quote that is not
protected and that quote, or else up to the end of the line. -/
def extent (quote : Char) : List Char → List Char
  | '\\' :: '\r' :: '\n' :: s => '\\' :: '\r' :: '\n' :: extent quote s
  | '\\' :: c :: s => '\\' :: c :: extent quote s
  | ['\\'] => ['\\']
  | c :: s => if c = '\n' ∨ c = '\r' then [] else if c = quote then [c] else c :: extent quote s
  | [] => []

/-- A literal goes on from a place in one way only. -/
theorem step_rightUnique (quote : Char) : Relator.RightUnique (Step quote) := by
  intro s t u ht hu
  cases ht with
  | plain hplain => cases hu <;> first | rfl | exact absurd rfl hplain.1
  | lineEnd => cases hu with
    | plain hplain => exact absurd rfl hplain.1
    | lineEnd => rfl
    | escaped hnext => exact absurd rfl (hnext rfl)
  | escaped hnext => cases hu with
    | plain hplain => exact absurd rfl hplain.1
    | lineEnd => exact absurd rfl (hnext rfl)
    | escaped _ => rfl
  | lone => cases hu with
    | plain hplain => exact absurd rfl hplain.1
    | lone => rfl

/-- A backslash never ends a literal. -/
theorem exists_step_backslash (quote : Char) (s : List Char) : ∃ t, Step quote ('\\' :: s) t := by
  cases s with
  | nil => exact ⟨[], .lone⟩
  | cons c s =>
    by_cases hline : c = '\r' ∧ s.head? = some '\n'
    · obtain ⟨rfl, hnext⟩ := hline
      obtain ⟨rest, rfl⟩ := List.head?_eq_some_iff.1 hnext
      exact ⟨rest, .lineEnd⟩
    · exact ⟨s, .escaped fun hreturn hnext ↦ hline ⟨hreturn, hnext⟩⟩

theorem extent_front (quote : Char) (s : List Char) : extent quote s <+: s := by
  fun_induction extent quote s with
  | case1 s ih => simpa using ih
  | case2 c s _ ih => simpa using ih
  | case3 => exact List.prefix_refl _
  | case4 => exact List.nil_prefix
  | case5 => simp
  | case6 c s _ _ _ _ _ ih => simpa using ih
  | case7 => exact List.nil_prefix

theorem not_step_nil (t : List Char) : ¬ Step quote [] t := by
  intro h
  cases h

theorem not_step_of_isEnd {c : Char} (hend : isEnd quote c) (hbackslash : c ≠ '\\')
    (t : List Char) : ¬ Step quote (c :: s) t := by
  intro h
  cases h with
  | plain hplain => simp [hplain.2] at hend
  | _ => exact hbackslash rfl

theorem extent_cons {c : Char} (hbackslash : c ≠ '\\') (s : List Char) :
    extent quote (c :: s) =
      if c = '\n' ∨ c = '\r' then [] else if c = quote then [c] else c :: extent quote s := by
  rw [extent]
  · exact fun t h ↦ absurd h hbackslash
  · exact fun d t h ↦ absurd h hbackslash
  · exact fun h ↦ absurd h hbackslash

/-- A literal ends where it has no step, with its quote if that is there. -/
theorem extent_of_no_step (h : ∀ t, ¬ Step quote s t) :
    extent quote s = [] ∨ ∃ t, s = quote :: t ∧ extent quote s = [quote] := by
  cases s with
  | nil => exact .inl rfl
  | cons c s =>
    have hbackslash : c ≠ '\\' := by
      rintro rfl
      obtain ⟨t, hstep⟩ := exists_step_backslash quote s
      exact h t hstep
    rw [extent_cons hbackslash]
    split_ifs with hline hquote
    · exact .inl rfl
    · exact .inr ⟨s, by rw [hquote], by rw [hquote]⟩
    · refine absurd (.plain ⟨hbackslash, ?_⟩) (h s)
      simp only [isEnd, Bool.or_eq_false_iff, beq_eq_false_iff_ne]
      exact ⟨⟨hquote, fun hfeed ↦ hline (.inl hfeed)⟩, fun hreturn ↦ hline (.inr hreturn)⟩

theorem extent_of_isPlain {c : Char} (h : IsPlain quote c) (s : List Char) :
    extent quote (c :: s) = c :: extent quote s := by
  obtain ⟨hbackslash, hend⟩ := h
  simp only [isEnd, Bool.or_eq_false_iff, beq_eq_false_iff_ne] at hend
  rw [extent_cons hbackslash, if_neg (not_or.2 ⟨hend.1.2, hend.2⟩), if_neg hend.1.1]

/-- A step leaves what the literal is made of. -/
theorem Step.extent_eq (h : Step quote s t) :
    ∃ u, u ≠ [] ∧ s = u ++ t ∧ extent quote s = u ++ extent quote t := by
  cases h with
  | @plain c _ hplain => exact ⟨[c], by simp, rfl, extent_of_isPlain hplain t⟩
  | lineEnd => exact ⟨['\\', '\r', '\n'], by simp, rfl, by rw [extent]; rfl⟩
  | @escaped c _ hnext =>
    refine ⟨['\\', c], by simp, rfl, ?_⟩
    rw [extent]
    · rfl
    · rintro rest rfl rfl
      exact hnext rfl rfl
  | lone => exact ⟨['\\'], by simp, rfl, rfl⟩

theorem Passes.extent_append (h : Passes quote s t) :
    ∃ u, s = u ++ t ∧ extent quote s = u ++ extent quote t := by
  induction h using Relation.ReflTransGen.head_induction_on with
  | refl => exact ⟨[], rfl, rfl⟩
  | head hstep _ ih =>
    obtain ⟨u, -, rfl, hextent⟩ := hstep.extent_eq
    obtain ⟨v, rfl, hrest⟩ := ih
    exact ⟨u ++ v, (List.append_assoc u v t).symm, by rw [hextent, hrest, List.append_assoc]⟩

theorem Passes.extent_eq (h : Passes quote (u ++ t) t) :
    extent quote (u ++ t) = u ++ extent quote t := by
  obtain ⟨v, hv, hextent⟩ := h.extent_append
  rw [hextent, List.append_cancel_right hv]

/-- Of two places that a literal comes to, it comes from the one in front to the other. -/
theorem Passes.between (h : Passes quote s t) (h' : Passes quote s r)
    (hle : r.length ≤ t.length) : Passes quote t r := by
  rcases Relation.ReflTransGen.total_of_right_unique (step_rightUnique quote) h h' with
    hforward | hbackward
  · exact hforward
  · obtain ⟨u, hu, -⟩ := Passes.extent_append hbackward
    have hlength := congrArg List.length hu
    rw [List.length_append] at hlength
    obtain rfl := List.length_eq_zero_iff.1 (show u.length = 0 by omega)
    rw [hu]
    exact .refl

/-- Plain characters are passed one by one. -/
theorem passes_plain {more : List Char} (hmore : ∀ c ∈ more, IsPlain quote c) (r : List Char) :
    Passes quote (more ++ r) r := by
  induction more with
  | nil => exact .refl
  | cons c more ih =>
    rw [List.forall_mem_cons] at hmore
    exact (ih hmore.2).head (.plain hmore.1)

/-- A literal that comes to a backslash behind plain characters comes to it from behind them. -/
theorem Passes.behind_plain {more : List Char} (hmore : ∀ c ∈ more, IsPlain quote c)
    (h : Passes quote (more ++ r) ('\\' :: s)) : Passes quote r ('\\' :: s) := by
  induction more with
  | nil => exact h
  | cons c more ih =>
    rw [List.forall_mem_cons] at hmore
    rcases h.cases_head with heq | ⟨t, hstep, ht⟩
    · exact absurd (List.cons.inj heq).1 hmore.1.1
    · obtain rfl := step_rightUnique quote hstep (.plain hmore.1)
      exact ih hmore.2 ht

/-- A bracket is passed by itself, or together with the backslash that protects it. -/
theorem Step.bracket {p b : List Char} (h : Step quote (p ++ '\x7d' :: b) t) :
    t = b ∨ ∃ q, q.length < p.length ∧ t = q ++ '\x7d' :: b := by
  generalize hs : p ++ '\x7d' :: b = s at h
  cases h with
  | plain _ =>
    rcases p with _ | ⟨c, q⟩
    · exact .inl (List.cons.inj hs).2.symm
    · exact .inr ⟨q, Nat.lt_succ_self _, (List.cons.inj hs).2.symm⟩
  | lineEnd =>
    rcases p with _ | ⟨c, _ | ⟨d, _ | ⟨e, q⟩⟩⟩
    · simp at hs
    · simp at hs
    · simp at hs
    · simp only [List.cons_append, List.cons.injEq] at hs
      exact .inr ⟨q, by simp only [List.length_cons]; omega, hs.2.2.2.symm⟩
  | escaped _ =>
    rcases p with _ | ⟨c, _ | ⟨d, q⟩⟩
    · simp at hs
    · simp only [List.cons_append, List.nil_append, List.cons.injEq] at hs
      exact .inl hs.2.2.symm
    · simp only [List.cons_append, List.cons.injEq] at hs
      exact .inr ⟨q, by simp only [List.length_cons]; omega, hs.2.2.symm⟩
  | lone =>
    rcases p with _ | ⟨c, q⟩ <;> simp at hs

/-- A literal that comes to a place behind a bracket comes to the one right behind it. -/
theorem Passes.behind_bracket {p b : List Char} (h : Passes quote (p ++ '\x7d' :: b) t)
    (hle : t.length ≤ b.length) : Passes quote (p ++ '\x7d' :: b) b := by
  generalize hs : p ++ '\x7d' :: b = s at h
  induction h using Relation.ReflTransGen.head_induction_on generalizing p with
  | refl =>
    rw [← hs, List.length_append, List.length_cons] at hle
    omega
  | head hstep _ ih =>
    subst hs
    rcases hstep.bracket with rfl | ⟨q, -, rfl⟩
    · exact .single hstep
    · exact (ih rfl).head hstep

/-- A bracket that belongs to the literal is passed. -/
theorem passes_of_lt_extent {p b : List Char} (hquote : quote ≠ '\x7d')
    (h : p.length < (extent quote (p ++ '\x7d' :: b)).length) :
    Passes quote (p ++ '\x7d' :: b) b := by
  induction hn : p.length using Nat.strongRecOn generalizing p with
  | ind n ih =>
    by_cases hnone : ∀ t, ¬ Step quote (p ++ '\x7d' :: b) t
    · rcases extent_of_no_step hnone with hends | ⟨t, hclosed, hends⟩
      · simp [hends] at h
      · rw [hends] at h
        obtain rfl := List.length_eq_zero_iff.1 (Nat.lt_one_iff.1 h)
        exact absurd (List.cons.inj hclosed).1.symm hquote
    · obtain ⟨t, hstep⟩ := not_forall_not.1 hnone
      obtain ⟨u, -, hsplit, hextent⟩ := hstep.extent_eq
      rcases hstep.bracket with rfl | ⟨q, hlt, rfl⟩
      · exact .single hstep
      · have hlength := congrArg List.length hsplit
        rw [hextent] at h
        simp only [List.length_append, List.length_cons] at hlength h
        exact (ih q.length (hn ▸ hlt) (by omega) rfl).head hstep

/-- Which escapes have a code in brackets: those with one of the letters. The closing bracket is
searched for up to a character that stops the search. -/
structure Coding where
  letters : List Char
  stops : Char → Bool
  not_bracket : '\x7d' ∉ letters

/-- An escape with a code in brackets that are closed. -/
inductive Coding.Closed (coding : Coding) : List Char → Prop
  | mk {letter : Char} {code : List Char} : letter ∈ coding.letters →
      (∀ c ∈ code, c ≠ '\x7d' ∧ coding.stops c = false) →
      Closed coding ('\\' :: letter :: '\x7b' :: (code ++ ['\x7d']))

/-- The literal comes to a code in brackets of which the closing one does not belong to it. -/
def Overruns (quote : Char) (coding : Coding) (s : List Char) : Prop :=
  ∃ u r, coding.Closed u ∧ Passes quote s (u ++ r) ∧ ¬ Passes quote s r

variable {coding : Coding}

/-- The only closing bracket stands at the end. -/
theorem Coding.Closed.exists_inside (h : coding.Closed u) :
    ∃ inside, u = '\\' :: inside ++ ['\x7d'] ∧ '\x7d' ∉ '\\' :: inside := by
  cases h with
  | @mk letter code hletter hcode =>
    refine ⟨letter :: '\x7b' :: code, rfl, ?_⟩
    simp only [List.mem_cons, not_or]
    refine ⟨by decide, ?_, by decide, fun hmem ↦ (hcode _ hmem).1 rfl⟩
    rintro rfl
    exact coding.not_bracket hletter

theorem Coding.Closed.not_mem_front {v w : List Char} (h : coding.Closed (v ++ w)) (hw : w ≠ []) :
    '\x7d' ∉ v := by
  obtain ⟨inside, hsplit, hinside⟩ := h.exists_inside
  obtain ⟨z, d, rfl⟩ := (List.eq_nil_or_concat' w).resolve_left hw
  rw [← List.append_assoc] at hsplit
  rw [← (List.append_inj' hsplit rfl).1] at hinside
  exact fun hmem ↦ hinside (List.mem_append_left _ hmem)

theorem Coding.Closed.mem_back {v w : List Char} (h : coding.Closed (v ++ w)) (hw : w ≠ []) :
    '\x7d' ∈ w := by
  obtain ⟨inside, hsplit, -⟩ := h.exists_inside
  have hlast := congrArg List.getLast? hsplit
  rw [List.getLast?_append_of_ne_nil _ hw, List.getLast?_concat] at hlast
  exact List.mem_of_getLast? hlast

/-- No code in brackets ends within another one. -/
theorem Coding.Closed.length_le {v w x : List Char} (hu : coding.Closed u) (hv : coding.Closed v)
    (hsplit : v ++ w = x ++ (u ++ r)) (hlt : r.length < w.length) :
    (u ++ r).length ≤ w.length := by
  rcases List.append_eq_append_iff.1 hsplit with ⟨z, -, rfl⟩ | ⟨y, rfl, hy⟩
  · exact (List.suffix_append z _).length_le
  · by_contra hlong
    have hbehind : y ≠ [] := by
      rintro rfl
      exact hlong (Nat.le_of_eq (congrArg List.length hy))
    rcases List.append_eq_append_iff.1 hy with ⟨z, -, rfl⟩ | ⟨z, rfl, rfl⟩
    · rw [List.length_append] at hlt
      omega
    · have hfront : z ≠ [] := by
        rintro rfl
        exact Nat.lt_irrefl _ hlt
      exact hu.not_mem_front hfront (hv.mem_back hbehind)

/-- The number of characters before the closing bracket of a code. -/
def Coding.find? (coding : Coding) (body : List Char) : Option Nat :=
  Text.findClosing? (fun c ↦ c == '\x7d' || coding.stops c) '\x7d' body

theorem Coding.find?_eq_some_iff {body : List Char} {n : Nat} :
    coding.find? body = some n ↔ ∃ code r, body = code ++ '\x7d' :: r ∧ code.length = n ∧
      ∀ c ∈ code, c ≠ '\x7d' ∧ coding.stops c = false := by
  rw [find?, Text.findClosing?, Option.filter_eq_some_iff, Text.findIn?_eq_some_iff]
  constructor
  · rintro ⟨⟨code, c, r, rfl, rfl, -, hcode⟩, hbracket⟩
    rw [List.drop_left, Text.startsIn_cons, beq_iff_eq] at hbracket
    exact ⟨code, r, by rw [hbracket], rfl, fun d hd ↦ by simpa using hcode d hd⟩
  · rintro ⟨code, r, rfl, rfl, hcode⟩
    refine ⟨⟨code, '\x7d', r, rfl, rfl, by simp, fun d hd ↦ by simp [hcode d hd]⟩, ?_⟩
    rw [List.drop_left, Text.startsIn_cons, beq_self_eq_true]

/-- The width of an escape that has the text behind an opening bracket. -/
def Coding.width (coding : Coding) (body : List Char) : Nat := (coding.find? body).elim 3 (· + 4)

/-! ## Literals in parts -/

/-- An escape that takes plain characters with what its backslash protects, and no more. -/
def IsShort (quote : Char) (s r : List Char) : Prop :=
  ∃ more, Step quote s (more ++ r) ∧ ∀ c ∈ more, IsPlain quote c

/-- The characters that may stand for something else in a literal. -/
def specials : List Char := ['\\', '"', '\'', '\n', '\r']

/-- A class without special characters has plain characters only. -/
theorem isPlain_of_class (hquote : Text.isQuote quote) {p : Char → Bool}
    (hp : specials.any p = false) {c : Char} (hc : p c) : IsPlain quote c := by
  have hne (d : Char) (hd : d ∈ specials) : c ≠ d := by
    rintro rfl
    exact absurd hc (List.any_eq_false.1 hp c hd)
  simp only [Text.isQuote, Bool.or_eq_true, beq_iff_eq] at hquote
  refine ⟨hne _ (by decide), ?_⟩
  simp only [isEnd, Bool.or_eq_false_iff, beq_eq_false_iff_ne]
  rcases hquote with rfl | rfl <;>
    exact ⟨⟨hne _ (by decide), hne _ (by decide)⟩, hne _ (by decide)⟩

/-- An escape that takes a run of plain characters behind its letter is short. -/
theorem isShort_span {p : Char → Bool} (hp : ∀ c, p c → IsPlain quote c) {c : Char} (hc : c ≠ '\r')
    {front after : List Char} (hfront : front <+: after) :
    IsShort quote ('\\' :: c :: after) (after.drop (Text.spanLength p front)) := by
  have htake : after.take (Text.spanLength p front) = front.takeWhile p :=
    (List.prefix_iff_eq_take.1 ((List.takeWhile_prefix p).trans hfront)).symm
  refine ⟨front.takeWhile p, ?_, fun d hd ↦ hp d (Text.forall_mem_takeWhile d hd)⟩
  rw [← htake, List.take_append_drop]
  exact .escaped (absurd · hc)

/-- An escape of which the end of a line takes two characters is short. -/
theorem isShort_lineEnd (quote : Char) (after : List Char) :
    IsShort quote ('\\' :: '\r' :: after)
      (after.drop (if Text.startsWith "\n" after then 1 else 0)) := by
  refine ⟨[], ?_, List.forall_mem_nil _⟩
  rw [List.nil_append, Text.startsWith_single (c := '\n') rfl]
  cases after with
  | nil => exact .escaped fun _ ↦ by simp
  | cons c after =>
    by_cases hfeed : c = '\n'
    · subst hfeed
      exact .lineEnd
    · rw [if_neg (by simpa using hfeed)]
      exact .escaped fun _ ↦ by simpa using hfeed

/-- A code in brackets is closed, or else the escape ends behind the opening bracket. -/
theorem Coding.ends_width (hquote : Text.isQuote quote) {letter : Char}
    (hletter : letter ∈ coding.letters) (hreturn : letter ≠ '\r') (body : List Char) :
    let s := '\\' :: letter :: '\x7b' :: body
    coding.Closed (s.take (coding.width body)) ∨ IsShort quote s (s.drop (coding.width body)) := by
  intro s
  rw [width]
  cases hfind : coding.find? body with
  | some n =>
    obtain ⟨code, r, hbody, rfl, hcode⟩ := find?_eq_some_iff.1 hfind
    have hsplit : s = '\\' :: letter :: '\x7b' :: (code ++ ['\x7d']) ++ r := by simp [s, hbody]
    rw [Option.elim_some, hsplit, List.take_left' (by simp)]
    exact .inl (.mk hletter hcode)
  | none =>
    refine .inr ⟨['\x7b'], .escaped (absurd · hreturn), ?_⟩
    rw [List.forall_mem_singleton]
    exact @isPlain_of_class _ hquote (· == '\x7b') (by decide) _ rfl

theorem Coding.width_code {code : List Char}
    (hcode : ∀ c ∈ code, c ≠ '\x7d' ∧ coding.stops c = false) (r : List Char) :
    coding.width (code ++ '\x7d' :: r) = code.length + 4 := by
  rw [width, find?_eq_some_iff.2 ⟨code, r, rfl, rfl, hcode⟩, Option.elim_some]

/-- The turns of a literal in parts go through the literal, but that a code in brackets is one turn
if its closing bracket is found. -/
structure Reads (quote : Char) (coding : Coding) (turn : List Char → Turn κ) : Prop where
  close : ∀ s n, turn s = .close n → (∀ t, ¬ Step quote s t) ∧ extent quote s = s.take n
  plain : ∀ c s, turn (c :: s) = .plain → IsPlain quote c
  aside : ∀ s pieces, turn s = .aside pieces → ∃ r, s = textOf pieces ++ r ∧
    (coding.Closed (textOf pieces) ∨ IsShort quote s r)
  closed : ∀ u r, coding.Closed u → ∃ pieces, turn (u ++ r) = .aside pieces ∧ textOf pieces = u

/-- A turn does not take a part of a code in brackets that the literal comes to, unless it takes all
of it. -/
theorem Reads.passes_behind {turn : List Char → Turn κ} {pieces : List (Piece κ)}
    (h : Reads quote coding turn) (hturn : turn (textOf pieces ++ t) = .aside pieces)
    (hescape : coding.Closed (textOf pieces) ∨ IsShort quote (textOf pieces ++ t) t)
    (hu : coding.Closed u) (hs : Passes quote (textOf pieces ++ t) (u ++ r))
    (hlt : r.length < t.length) : Passes quote t (u ++ r) := by
  rcases hescape with hclosed | ⟨more, hmore, hplain⟩
  · obtain ⟨x, hsplit, -⟩ := hs.extent_append
    have hle := hu.length_le hclosed hsplit hlt
    obtain ⟨inside, hinside, -⟩ := hclosed.exists_inside
    rw [hinside, List.append_assoc] at hs
    exact (hs.behind_bracket hle).between hs hle
  · rcases hs.cases_head with heq | ⟨v, hstep, hv⟩
    · obtain ⟨found, hfound, htext⟩ := h.closed u r hu
      rw [heq, hfound] at hturn
      obtain rfl := Turn.aside.inj hturn
      rw [htext] at heq
      exact absurd (congrArg List.length (List.append_cancel_left heq)) (Nat.ne_of_gt hlt)
    · obtain rfl := step_rightUnique quote hstep hmore
      obtain ⟨inside, rfl, -⟩ := hu.exists_inside
      exact Passes.behind_plain hplain hv

section

variable {label : κ} {turn : List Char → Turn κ} {part : List Char} {ps : List (Piece κ)}
  (h : Reads quote coding turn) (hps : partsFrom label turn [] part s = some ps)

include h hps

/-- Where no code in brackets overruns the literal, its parts are what belongs to it. -/
theorem Reads.textOf_eq {whole : List Char} (hover : ¬ Overruns quote coding whole)
    (hs : Passes quote whole s) : textOf ps = part.reverse ++ extent quote s := by
  refine partsFrom_induction (motive := fun part s ps ↦
    Passes quote whole s → textOf ps = part.reverse ++ extent quote s) ?_ ?_ ?_ hps hs
  · intro part s n hturn _
    rw [Piece.textOf_shown, (h.close s n hturn).2]
  · intro part c s ps hturn hind hs
    have hplain := h.plain c s hturn
    rw [hind (hs.tail (.plain hplain)), extent_of_isPlain hplain]
    simp
  · intro part s pieces ps hturn hind hs
    obtain ⟨r, hsplit, hescape⟩ := h.aside s pieces hturn
    have hdrop : s.drop (width pieces) = r := by
      rw [hsplit, ← Piece.length_textOf, List.drop_left]
    have hr : Passes quote whole r := by
      rcases hescape with hclosed | ⟨more, hstep, hmore⟩
      · by_contra hnot
        exact hover ⟨_, r, hclosed, hsplit ▸ hs, hnot⟩
      · exact (hs.tail hstep).trans (passes_plain hmore r)
    have hbetween := hs.between hr (by rw [hsplit]; exact (List.suffix_append _ r).length_le)
    rw [hdrop] at hind
    rw [hsplit] at hbetween ⊢
    rw [Piece.textOf_append, Piece.textOf_append, Piece.textOf_shown, hind hr, hbetween.extent_eq,
      List.reverse_nil, List.nil_append]

/-- The parts of a literal reach behind every code in brackets that it comes to. -/
theorem Reads.add_length_le (hclosed : coding.Closed u) (hs : Passes quote s (u ++ r)) :
    part.length + s.length ≤ width ps + r.length := by
  obtain ⟨found, hfound, htext⟩ := h.closed u r hclosed
  refine partsFrom_induction (motive := fun part s ps ↦
    Passes quote s (u ++ r) → part.length + s.length ≤ width ps + r.length) ?_ ?_ ?_ hps hs
  · intro part s n hturn hs
    rcases hs.cases_head with rfl | ⟨t, hstep, -⟩
    · simp [hfound] at hturn
    · exact absurd hstep ((h.close s n hturn).1 t)
  · intro part c s ps hturn hind hs
    rcases hs.cases_head with heq | ⟨t, hstep, ht⟩
    · simp [heq, hfound] at hturn
    · obtain rfl := step_rightUnique quote hstep (.plain (h.plain c s hturn))
      have hle := hind ht
      rw [List.length_cons] at hle ⊢
      omega
  · intro part s pieces ps hturn hind hs
    obtain ⟨w, hsplit, hescape⟩ := h.aside s pieces hturn
    have hdrop : s.drop (width pieces) = w := by
      rw [hsplit, ← Piece.length_textOf, List.drop_left]
    have hlength := congrArg List.length hsplit
    rw [List.length_append, Piece.length_textOf] at hlength
    rw [hdrop, List.length_nil, Nat.zero_add] at hind
    rw [Piece.width_append, Piece.width_append, Piece.width_shown, List.length_reverse]
    rcases Nat.lt_or_ge r.length w.length with hlt | hge
    · subst hsplit
      have hle := hind (h.passes_behind hturn hescape hclosed hs hlt)
      omega
    · omega

/-- Where a code in brackets overruns the literal, its parts reach behind what belongs to it. -/
theorem Reads.lt_width (hquote : quote ≠ '\x7d') (hover : Overruns quote coding s) :
    part.length + (extent quote s).length < width ps := by
  obtain ⟨u, r, hclosed, hcomes, hstuck⟩ := hover
  have hle := h.add_length_le hps hclosed hcomes
  obtain ⟨x, rfl, -⟩ := hcomes.extent_append
  obtain ⟨inside, rfl, -⟩ := hclosed.exists_inside
  have hsplit : x ++ ('\\' :: inside ++ ['\x7d'] ++ r) = (x ++ '\\' :: inside) ++ '\x7d' :: r := by
    simp
  rw [hsplit] at hle hstuck ⊢
  generalize x ++ '\\' :: inside = p at *
  have hlength : (p ++ '\x7d' :: r).length = p.length + (r.length + 1) := List.length_append
  have hextent := Nat.le_of_not_lt fun hlt ↦ hstuck (passes_of_lt_extent hquote hlt)
  omega

/-- A literal in parts is what belongs to it exactly if no code in brackets overruns it. -/
theorem Reads.textOf_eq_iff (hquote : quote ≠ '\x7d') :
    textOf ps = part.reverse ++ extent quote s ↔ ¬ Overruns quote coding s := by
  constructor
  · intro htext hover
    have hlt := h.lt_width hps hquote hover
    rw [← Piece.length_textOf, htext, List.length_append, List.length_reverse] at hlt
    exact Nat.lt_irrefl _ hlt
  · exact fun hover ↦ h.textOf_eq hps hover .refl

/-- What belongs to a literal is a front of its parts. -/
theorem Reads.extent_prefix_textOf (hquote : quote ≠ '\x7d') (hfits : Turn.Fits turn) :
    part.reverse ++ extent quote s <+: textOf ps := by
  by_cases hover : Overruns quote coding s
  · have hlt := h.lt_width hps hquote hover
    apply List.prefix_of_prefix_length_le
      ((List.prefix_append_right_inj part.reverse).2 (extent_front quote s))
      (fits_partsFrom hfits hps).1.textOf_front
    rw [List.length_append, List.length_reverse, Piece.length_textOf]
    exact Nat.le_of_lt hlt
  · rw [(h.textOf_eq_iff hps hquote).2 hover]

end

/-! ## Escapes as turns -/

/-- What a literal finds where it stands, if all that is set into it are escapes. -/
def turnOf (quote : Char) (escape : List Char → List (Piece κ)) : List Char → Turn κ
  | [] => .close 0
  | s@(c :: _) =>
    if c = '\n' ∨ c = '\r' then .close 0
    else if c = quote then .close 1
    else if c = '\\' then .aside (escape s)
    else .plain

/-- The turns read a literal if its escapes do. -/
theorem reads_turnOf (hquote : Text.isQuote quote) {escape : List Char → List (Piece κ)}
    (hescape : ∀ rest, ∃ r, '\\' :: rest = textOf (escape ('\\' :: rest)) ++ r ∧
      (coding.Closed (textOf (escape ('\\' :: rest))) ∨ IsShort quote ('\\' :: rest) r))
    (hclosed : ∀ u r, coding.Closed u → textOf (escape (u ++ r)) = u) :
    Reads quote coding (turnOf quote escape) := by
  have hbackslash : '\\' ≠ quote := by
    rintro rfl
    exact absurd hquote (by decide)
  constructor
  · intro s n hturn
    cases s with
    | nil => exact ⟨not_step_nil, List.take_nil.symm⟩
    | cons c s =>
      simp only [turnOf] at hturn
      split_ifs at hturn with hline hend
      · obtain rfl := Turn.close.inj hturn
        have hne : c ≠ '\\' := by rcases hline with rfl | rfl <;> decide
        refine ⟨not_step_of_isEnd ?_ hne, by rw [extent_cons hne, if_pos hline, List.take_zero]⟩
        rcases hline with rfl | rfl <;> simp [isEnd]
      · obtain rfl := Turn.close.inj hturn
        subst hend
        refine ⟨not_step_of_isEnd (by simp [isEnd]) hbackslash.symm, ?_⟩
        rw [extent_cons hbackslash.symm, if_neg hline, if_pos rfl]
        rfl
  · intro c s hturn
    simp only [turnOf] at hturn
    split_ifs at hturn with hline hend hescape
    simp only [IsPlain, isEnd, Bool.or_eq_false_iff, beq_eq_false_iff_ne]
    rw [not_or] at hline
    exact ⟨hescape, ⟨hend, hline.1⟩, hline.2⟩
  · intro s pieces hturn
    cases s with
    | nil => simp [turnOf] at hturn
    | cons c rest =>
      simp only [turnOf] at hturn
      split_ifs at hturn with hline hend hslash
      obtain rfl := Turn.aside.inj hturn
      subst hslash
      exact hescape rest
  · intro u r hu
    refine ⟨_, ?_, hclosed u r hu⟩
    obtain ⟨inside, rfl, -⟩ := hu.exists_inside
    simp [turnOf, hbackslash]

end Highlight.Literal
