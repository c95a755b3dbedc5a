import Highlight.Proofs.Piece.Places
import Highlight.Proofs.Piece.Shown

/-!
# Tokens in view of what is behind them

Much of what a token is depends on what stands behind it: a word is maximal if none of its
characters follows, and a name is that of an attribute with the value behind it. A view says this of
a label and its text, with the pieces behind them and the text that is not read yet. It holds of all
that a construct reads if it holds of what its parts read, as long as more pieces behind those it
speaks of do no harm. A token of a scan is found again as a piece of one of its items.
-/

namespace Highlight

open Piece (labelled textOf tokens width)

variable {κ σ : Type}

/-- Where an element of two joined lists stands. -/
theorem append_eq_append_cons {α : Type} {xs ys before after : List α} {x : α}
    (h : xs ++ ys = before ++ x :: after) :
    (∃ back, xs = before ++ x :: back ∧ after = back ++ ys) ∨
      ∃ front, before = xs ++ front ∧ ys = front ++ x :: after := by
  rcases List.append_eq_append_iff.1 h with ⟨front, rfl, rfl⟩ | ⟨inside, rfl, hinside⟩
  · exact .inr ⟨front, rfl, rfl⟩
  · rcases List.append_eq_cons_iff.1 hinside.symm with ⟨rfl, rfl⟩ | ⟨back, rfl, rfl⟩
    · exact .inr ⟨[], by simp, rfl⟩
    · exact .inl ⟨back, rfl, rfl⟩

/-- A token that pieces leave is the text of one of them, and the tokens on either side of it are
those of the pieces there. -/
theorem Piece.exists_of_tokens_eq {begin : Nat} {ps : List (Piece Kind)} {left right : List Token}
    {token : Token} (h : tokens begin ps = left ++ token :: right) :
    ∃ before text after, ps = before ++ .token token.kind text :: after ∧ text ≠ [] ∧
      left = tokens begin before ∧ token.begin = begin + Text.byteLength (textOf before) ∧
      token.length = Text.byteLength text ∧ right = tokens token.stop after := by
  induction ps generalizing begin left with
  | nil => simp at h
  | cons piece ps ih =>
    -- Where the first piece leaves no token, or a token that stands on the left.
    have hbehind {left : List Token}
        (h : tokens (begin + Text.byteLength piece.text) ps = left ++ token :: right) :
        ∃ before text after, piece :: ps = piece :: before ++ .token token.kind text :: after ∧
          text ≠ [] ∧ left = tokens (begin + Text.byteLength piece.text) before ∧
          token.begin = begin + Text.byteLength (textOf (piece :: before)) ∧
          token.length = Text.byteLength text ∧ right = tokens token.stop after := by
      obtain ⟨before, text, after, rfl, htext, hleft, hbegin, hlength, hright⟩ := ih h
      refine ⟨before, text, after, rfl, htext, hleft, ?_, hlength, hright⟩
      rw [hbegin, textOf_cons, Text.byteLength_append, Nat.add_assoc]
    cases piece with
    | gap passed =>
      obtain ⟨before, text, after, hps, htext, hleft, hplace⟩ := hbehind h
      exact ⟨gap passed :: before, text, after, hps, htext, hleft, hplace⟩
    | withdrawn reported =>
      obtain ⟨before, text, after, hps, htext, hleft, hplace⟩ := hbehind h
      exact ⟨withdrawn reported :: before, text, after, hps, htext, hleft, hplace⟩
    | token kind text =>
      rw [tokens_token] at h
      split_ifs at h with hempty
      · obtain ⟨before, other, after, hps, htext, hleft, hplace⟩ := hbehind h
        refine ⟨.token kind text :: before, other, after, hps, htext, ?_, hplace⟩
        rw [tokens_token, if_pos hempty]
        exact hleft
      · cases left with
        | nil =>
          obtain ⟨rfl, rfl⟩ := List.cons.inj h
          exact ⟨[], text, ps, rfl, mt Text.byteLength_eq_zero.2 hempty, rfl, rfl, rfl, rfl⟩
        | cons first left =>
          obtain ⟨rfl, hlater⟩ := List.cons.inj h
          obtain ⟨before, other, after, hps, htext, hleft, hplace⟩ := hbehind hlater
          refine ⟨.token kind text :: before, other, after, hps, htext, ?_, hplace⟩
          rw [tokens_token, if_neg hempty, hleft]
          rfl

/-- What a token shows is an entry of the pieces that leave it. -/
theorem Piece.exists_entry_of_mem {begin : Nat} {ps : List (Piece Kind)} {token : Token}
    (h : token ∈ tokens begin ps) : ∃ text, (token.kind, text) ∈ labelled ps := by
  obtain ⟨left, right, htokens⟩ := List.append_of_mem h
  obtain ⟨before, text, after, rfl, htext, -⟩ := exists_of_tokens_eq htokens
  exact ⟨text, mem_labelled.2 ⟨by simp, htext⟩⟩

/-- Pieces that show nothing leave no token. -/
theorem Piece.tokens_eq_nil {begin : Nat} {ps : List (Piece Kind)} (h : labelled ps = []) :
    tokens begin ps = [] := by
  rw [List.eq_nil_iff_forall_not_mem]
  intro token htoken
  obtain ⟨text, hmem⟩ := exists_entry_of_mem htoken
  rw [h] at hmem
  exact absurd hmem List.not_mem_nil

/-- Where a token of pieces lies in a source that goes on behind them. -/
theorem Piece.text_of_eq {ps before after : List (Piece Kind)} {text rest source : List Char}
    {token : Token} (hps : ps = before ++ .token token.kind text :: after)
    (hbegin : token.begin = Text.byteLength (textOf before))
    (hlength : token.length = Text.byteLength text) (hsource : source = textOf ps ++ rest) :
    source = textOf before ++ text ++ (textOf after ++ rest) ∧ token.text source = text := by
  have hsplit : source = textOf before ++ (text ++ (textOf after ++ rest)) := by
    rw [hsource, hps]
    simp [Piece.text]
  refine ⟨by rw [hsplit, List.append_assoc], ?_⟩
  have htext := text_token token.kind (textOf before) text (textOf after ++ rest)
  rwa [← hsplit, ← hbegin, ← hlength] at htext

/-- A token of a source is one of the pieces that cover it. -/
theorem Piece.Covers.exists_of_mem {ps : List (Piece Kind)} {source : List Char} {token : Token}
    (h : Covers ps source) (hmem : token ∈ tokens 0 ps) :
    ∃ before text after, ps = before ++ .token token.kind text :: after ∧ text ≠ [] ∧
      token.begin = Text.byteLength (textOf before) ∧
      source = textOf before ++ text ++ (textOf after ++ []) ∧ token.text source = text := by
  obtain ⟨left, right, htokens⟩ := List.append_of_mem hmem
  obtain ⟨before, text, after, hps, htext, -, hbegin, hlength, -⟩ := exists_of_tokens_eq htokens
  have hsource : source = textOf ps ++ [] := by rw [h.textOf_eq, List.append_nil]
  rw [Nat.zero_add] at hbegin
  exact ⟨before, text, after, hps, htext, hbegin, text_of_eq hps hbegin hlength hsource⟩

/-- What is said of a label and its text, the pieces behind them, and the text behind those. -/
abbrev View (κ : Type) := κ → List Char → List (Piece κ) → List Char → Prop

/-- What is said holds as well where more of the text is read behind the pieces. -/
def View.Extends (view : View κ) : Prop :=
  ∀ label text after more rest, view label text after (textOf more ++ rest) →
    view label text (after ++ more) rest

variable {view : View κ}

namespace Piece

/-- The view holds of every labelled text among the pieces in front of `rest`. -/
def InView (view : View κ) (ps : List (Piece κ)) (rest : List Char) : Prop :=
  ∀ before label text after, ps = before ++ token label text :: after → text ≠ [] →
    view label text after rest

theorem inView_nil (rest : List Char) : InView view [] rest := by
  intro before label text after h
  simp at h

theorem inView_cons {piece : Piece κ} {ps : List (Piece κ)} {rest : List Char}
    (hpiece : ∀ label text, piece = token label text → text ≠ [] → view label text ps rest)
    (hps : InView view ps rest) : InView view (piece :: ps) rest := by
  intro before label text after h htext
  cases before with
  | nil =>
    obtain ⟨rfl, rfl⟩ := List.cons.inj h
    exact hpiece label text rfl htext
  | cons first before =>
    obtain ⟨rfl, rfl⟩ := List.cons.inj h
    exact hps before label text after rfl htext

theorem inView_token {label : κ} {text rest : List Char}
    (h : text ≠ [] → view label text [] rest) : InView view [token label text] rest := by
  refine inView_cons (fun label' text' heq htext ↦ ?_) (inView_nil rest)
  obtain ⟨rfl, rfl⟩ := token.inj heq
  exact h htext

/-- Pieces none of which is labelled need no view. -/
theorem inView_of_forall {ps : List (Piece κ)} {rest : List Char}
    (h : ∀ label text, token label text ∉ ps) : InView view ps rest := by
  rintro before label text after rfl
  exact absurd (by simp) (h label text)

theorem inView_withdrawal (reported : List (Piece κ)) (rest : List Char) :
    InView view (withdrawal reported) rest := by
  apply inView_of_forall
  intro label text hmem
  unfold withdrawal at hmem
  split at hmem <;> simp at hmem

theorem InView.withdrawal_append {reported ps : List (Piece κ)} {rest : List Char}
    (h : InView view ps rest) : InView view (withdrawal reported ++ ps) rest := by
  unfold withdrawal
  split
  · exact h
  · exact inView_cons (by simp) h

theorem InView.append (hview : view.Extends) {ps qs : List (Piece κ)} {rest : List Char}
    (hps : InView view ps (textOf qs ++ rest)) (hqs : InView view qs rest) :
    InView view (ps ++ qs) rest := by
  intro before label text after h htext
  rcases append_eq_append_cons h with ⟨back, hback, rfl⟩ | ⟨front, -, hfront⟩
  · exact hview _ _ _ _ _ (hps before label text back hback htext)
  · exact hqs front label text after hfront htext

end Piece

namespace Construct

/-- Wherever the construct is there, the view holds of what it reads in front of the rest. -/
def InView (view : View κ) (c : Construct κ) : Prop :=
  ∀ s ps, c s = some ps → Piece.InView view ps (s.drop (width ps))

/-- A construct is in view if nothing that it shows has to be looked at. -/
theorem inView_of_shows {view : View Kind} {quiet : Entry → Prop}
    (hquiet : ∀ entry, quiet entry → ∀ after rest, view entry.1 entry.2 after rest)
    {c : Construct Kind} (h : c.Shows fun es ↦ ∀ entry ∈ es, quiet entry) : c.InView view := by
  rintro s ps hps before label text after rfl htext
  exact hquiet _ (h s _ hps (label, text) (Piece.mem_labelled.2 ⟨by simp, htext⟩)) _ _

theorem inView_seq_cons (hview : view.Extends) {c : Construct κ} {cs : List (Construct κ)}
    (hfits : (seq cs).Fits) (hc : c.InView view) (hcs : (seq cs).InView view) :
    (seq (c :: cs)).InView view := by
  intro s ps hps
  obtain ⟨qs, rs, hqs, hrs, rfl⟩ := seq_cons_eq_some.1 hps
  have hsplit := (hfits.read _ rs hrs).textOf_append_drop
  have hrest := hcs _ rs hrs
  rw [Piece.width_append, ← List.drop_drop]
  refine .append hview ?_ hrest
  rw [hsplit]
  exact hc s qs hqs

theorem inView_seq_singleton {c : Construct κ} (h : c.InView view) : (seq [c]).InView view := by
  intro s ps hps
  obtain ⟨qs, rs, hqs, hrs, rfl⟩ := seq_cons_eq_some.1 hps
  obtain rfl := seq_nil_eq_some.1 hrs
  rw [List.append_nil]
  exact h s qs hqs

theorem inView_firstOf {cs : List (Construct κ)} (h : ∀ c ∈ cs, c.InView view) :
    (firstOf cs).InView view := by
  induction cs with
  | nil =>
    intro s ps hps
    simp [firstOf, readFirst] at hps
  | cons c cs ih =>
    intro s ps hps
    rw [List.forall_mem_cons] at h
    rcases firstOf_cons_eq_some.1 hps with hc | ⟨-, qs, hqs, rfl⟩
    · exact h.1 s ps hc
    · rw [Piece.width_append, Piece.width_withdrawal, Nat.zero_add]
      exact (ih h.2 s qs hqs).withdrawal_append

theorem inView_choose {construct : List Char → Construct κ}
    (h : ∀ s, (construct s).InView view) : (choose construct).InView view :=
  fun s ↦ h s s

end Construct

/-- A view of what the steps of a loop read is one of all that it reads. -/
theorem inView_run (hview : view.Extends) {step : σ → List Char → Option (List (Piece κ) × σ)}
    (hfits : StepFits step)
    (h : ∀ state s ps next, step state s = some (ps, next) →
      Piece.InView view ps (s.drop (width ps))) (state : σ) (s : List Char) :
    Piece.InView view (run step state s) (s.drop (width (run step state s))) := by
  refine run_induction (motive := fun _ s ps ↦ Piece.InView view ps (s.drop (width ps)))
    ?_ ?_ ?_ state s
  · intro _ s _
    exact Piece.inView_nil _
  · intro state s ps next _ hstep _
    exact h state s ps next hstep
  · intro state s ps next _ hstep hrest
    rw [Piece.width_append, ← List.drop_drop]
    refine .append hview ?_ hrest
    rw [(fits_run hfits next _).textOf_append_drop]
    exact h state s ps next hstep

theorem Construct.inView_repeated (hview : view.Extends) {c : Construct κ} (hfits : c.Fits)
    (h : c.InView view) (s : List Char) :
    Piece.InView view (c.repeated s) (s.drop (width (c.repeated s))) :=
  inView_run hview (fun _ t ps _ hturn ↦ hfits.read t ps (read_of_turn hturn))
    (fun _ t ps _ hturn ↦ h t ps (read_of_turn hturn)) () s

theorem Construct.inView_many (hview : view.Extends) {c : Construct κ} (hfits : c.Fits)
    (h : c.InView view) : c.many.InView view := by
  intro s ps hps
  obtain rfl := Option.some.inj hps
  rw [Piece.width_append, Piece.width_withdrawal, Nat.add_zero]
  refine .append hview ?_ (Piece.inView_withdrawal _ _)
  rw [Piece.textOf_withdrawal, List.nil_append]
  exact inView_repeated hview hfits h s

/-- A piece of what a loop reads is a piece of one of its turns, to which the loop comes. -/
theorem exists_turn {step : σ → List Char → Option (List (Piece κ) × σ)}
    (hadvances : StepAdvances step) {state : σ} {s : List Char} {before after : List (Piece κ)}
    {piece : Piece κ} (h : run step state s = before ++ piece :: after) :
    ∃ items now rest ps next front back, Comes step state s items now rest ∧ rest ≠ [] ∧
      step now rest = some (ps, next) ∧ ps = front ++ piece :: back ∧
      before = items.flatten ++ front ∧
      after = back ++ run step next (rest.drop (width ps)) := by
  refine run_induction (motive := fun now rest qs ↦ ∀ items before,
    Comes step state s items now rest → qs = before ++ piece :: after →
      ∃ items' now rest ps next front back, Comes step state s items' now rest ∧ rest ≠ [] ∧
        step now rest = some (ps, next) ∧ ps = front ++ piece :: back ∧
        items.flatten ++ before = items'.flatten ++ front ∧
        after = back ++ run step next (rest.drop (width ps)))
    ?_ ?_ ?_ state s [] before .start h
  · intro now rest _ items before _ hnil
    simp at hnil
  · intro now rest ps next hrest hstep hwidth
    exact absurd hwidth (Nat.ne_of_gt (hadvances now rest ps next hrest hstep))
  · intro now rest ps next hrest hstep hind items before hcomes hsplit
    rcases append_eq_append_cons hsplit with ⟨back, hback, hafter⟩ | ⟨front, rfl, hfront⟩
    · exact ⟨items, now, rest, ps, next, before, back, hcomes, hrest, hstep, hback, rfl, hafter⟩
    · obtain ⟨items', now', rest', found⟩ := hind (items ++ [ps]) front (hcomes.turn hrest hstep)
        hfront
      rw [List.flatten_concat, List.append_assoc] at found
      exact ⟨items', now', rest', found⟩

end Highlight
