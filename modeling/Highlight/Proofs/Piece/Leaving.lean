import Highlight.Proofs.Piece.Layout
import Highlight.Proofs.Piece.Taking

/-!
# What a construct leaves

Besides how much of a text a construct takes, it matters which pieces it makes of that. Those that
are withdrawn are left out, since nothing is seen of them. A construct is settled if it leaves the
same pieces where the text is cut off somewhere behind them: what it takes is decided by what it
takes, and by what follows only as far as that is there. A sequence of settled constructs is
settled, and so is a repetition in front of something at which it ends.
-/

namespace Highlight

open Piece (textOf width)

variable {κ : Type}

namespace Piece

/-- The pieces that are not withdrawn. -/
def lasting (pieces : List (Piece κ)) : List (Piece κ) :=
  pieces.filter fun
    | withdrawn _ => false
    | _ => true

@[simp]
theorem lasting_nil : lasting ([] : List (Piece κ)) = [] := rfl

@[simp]
theorem lasting_gap (text : List Char) (ps : List (Piece κ)) :
    lasting (gap text :: ps) = gap text :: lasting ps := rfl

@[simp]
theorem lasting_token (label : κ) (text : List Char) (ps : List (Piece κ)) :
    lasting (token label text :: ps) = token label text :: lasting ps := rfl

@[simp]
theorem lasting_withdrawn (reported ps : List (Piece κ)) :
    lasting (withdrawn reported :: ps) = lasting ps := rfl

@[simp]
theorem lasting_append (ps qs : List (Piece κ)) : lasting (ps ++ qs) = lasting ps ++ lasting qs :=
  List.filter_append ..

@[simp]
theorem lasting_withdrawal (reported : List (Piece κ)) : lasting (withdrawal reported) = [] := by
  unfold withdrawal
  split <;> rfl

@[simp]
theorem lasting_shown (label : κ) (text : List Char) :
    lasting (shown label text) = shown label text := by
  cases text <;> rfl

@[simp]
theorem lasting_hidden (text : List Char) :
    lasting (hidden text : List (Piece κ)) = hidden text := by
  cases text <;> rfl

@[simp]
theorem lasting_framed (frame inner : κ) (opening closing : Nat) (text : List Char) :
    lasting (framed frame inner opening closing text) =
      framed frame inner opening closing text := by
  simp [framed]

@[simp]
theorem textOf_lasting (ps : List (Piece κ)) : textOf (lasting ps) = textOf ps := by
  induction ps with
  | nil => rfl
  | cons piece ps ih => cases piece <;> simp [ih, Piece.text]

@[simp]
theorem tokens_lasting (begin : Nat) (ps : List (Piece Kind)) :
    tokens begin (lasting ps) = tokens begin ps := by
  induction ps generalizing begin with
  | nil => rfl
  | cons piece ps ih =>
    cases piece with
    | gap text => rw [lasting_gap, tokens_gap, tokens_gap, ih]
    | token kind text => rw [lasting_token, tokens_token, tokens_token, ih]
    | withdrawn reported => rw [lasting_withdrawn, tokens_withdrawn, ih]

/-- Nothing is seen of what is withdrawn. -/
theorem alike_lasting (ps : List (Piece Kind)) : Alike ps (lasting ps) :=
  ⟨(textOf_lasting ps).symm, fun begin ↦ (tokens_lasting begin ps).symm⟩

end Piece

open Piece (lasting)

namespace Construct

variable {c : Construct κ} {cs : List (Construct κ)} {ps qs : List (Piece κ)} {r : List Char}

/-- Of a text that ends with `r` the construct takes all that is in front, and leaves the pieces. -/
def Leaves (c : Construct κ) (ps : List (Piece κ)) (r : List Char) : Prop :=
  ∃ qs, c (textOf ps ++ r) = some qs ∧ lasting qs = ps

theorem Leaves.takes (h : c.Leaves ps r) : c.Takes (textOf ps) r := by
  obtain ⟨qs, hqs, rfl⟩ := h
  exact ⟨qs, hqs, (Piece.textOf_lasting qs).symm⟩

theorem Takes.exists_leaves {i : List Char} (h : c.Takes i r) :
    ∃ ps, textOf ps = i ∧ c.Leaves ps r := by
  obtain ⟨qs, hqs, rfl⟩ := h
  refine ⟨lasting qs, Piece.textOf_lasting qs, qs, ?_, rfl⟩
  rw [Piece.textOf_lasting]
  exact hqs

theorem Fits.leaves (hc : c.Fits) {s : List Char} (h : c s = some ps) :
    c.Leaves (lasting ps) (s.drop (width ps)) := by
  refine ⟨ps, ?_, rfl⟩
  rw [Piece.textOf_lasting, (hc.read s ps h).textOf_append_drop]
  exact h

/-- A construct leaves one list of pieces at most. -/
theorem Leaves.unique (h : c.Leaves ps r) (h' : c.Leaves qs r) (htext : textOf ps = textOf qs) :
    ps = qs := by
  obtain ⟨us, hus, rfl⟩ := h
  obtain ⟨vs, hvs, rfl⟩ := h'
  rw [htext, hvs] at hus
  rw [Option.some.inj hus]

theorem Leaves.textOf_ne_nil (h : c.Leaves ps r) (hc : c.Advances) : textOf ps ≠ [] := by
  obtain ⟨qs, hqs, rfl⟩ := h
  rw [Piece.textOf_lasting, ← List.length_pos_iff, Piece.length_textOf]
  exact hc _ qs hqs

/-- The construct leaves the same where the text is cut off behind what it takes. -/
def Settled (c : Construct κ) : Prop := ∀ ps t r, c.Leaves ps (t ++ r) → c.Leaves ps t

/-- What the construct leaves is told by the text that it takes. -/
def Renders (c : Construct κ) (pieces : List Char → List (Piece κ)) : Prop :=
  ∀ s ps, c s = some ps → lasting ps = pieces (textOf ps)

/-- Where the text tells the pieces, it is enough that the same text is taken. -/
theorem Renders.leaves {pieces : List Char → List (Piece κ)} (hc : c.Renders pieces)
    (h : c.Leaves ps r) {t : List Char} (ht : c.Takes (textOf ps) t) : c.Leaves ps t := by
  obtain ⟨us, hus, htext⟩ := ht
  obtain ⟨qs, hqs, rfl⟩ := h
  refine ⟨us, hus, ?_⟩
  rw [hc _ us hus, hc _ qs hqs, htext, Piece.textOf_lasting]

theorem Renders.settled {pieces : List Char → List (Piece κ)} (hc : c.Renders pieces)
    (h : ∀ i t r, c.Takes i (t ++ r) → c.Takes i t) : c.Settled :=
  fun _ t r hleaves ↦ hc.leaves hleaves (h _ t r hleaves.takes)

/-- Where the text tells the pieces, to leave them is to take their text. -/
theorem Renders.leaves_iff {pieces : List Char → List (Piece κ)} (hc : c.Renders pieces)
    (htext : ∀ u, textOf (pieces u) = u) : c.Leaves ps r ↔ ∃ u, ps = pieces u ∧ c.Takes u r := by
  constructor
  · intro h
    refine ⟨textOf ps, ?_, h.takes⟩
    obtain ⟨qs, hqs, rfl⟩ := h
    rw [hc _ qs hqs, htext]
  · rintro ⟨u, rfl, qs, hqs, rfl⟩
    refine ⟨qs, ?_, hc _ qs hqs⟩
    rw [htext]
    exact hqs

theorem renders_measured (label : κ) (length : List Char → Nat) :
    (measured label length).Renders fun text ↦ [.token label text] := by
  intro s ps h
  obtain ⟨-, rfl⟩ := measured_eq_some.1 h
  simp [Piece.text]

theorem renders_skip (length : List Char → Nat) :
    (skip length : Construct κ).Renders Piece.hidden := by
  intro s ps h
  obtain rfl := Option.some.inj h
  rw [Piece.lasting_hidden, Piece.textOf_hidden]

theorem renders_skipSome (length : List Char → Nat) :
    (skipSome length : Construct κ).Renders fun text ↦ [.gap text] := by
  intro s ps h
  obtain ⟨-, rfl⟩ := skipSome_eq_some.1 h
  simp [Piece.text]

theorem renders_literal (label : κ) (lit : String) :
    (literal label lit).Renders fun text ↦ [.token label text] := by
  intro s ps h
  obtain ⟨-, rfl⟩ := literal_eq_some.1 h
  simp [Piece.text]

theorem leaves_measured_iff {label : κ} {length : List Char → Nat}
    (hle : ∀ s, length s ≤ s.length) : (measured label length).Leaves ps r ↔
      ∃ u, ps = [.token label u] ∧ u ≠ [] ∧ length (u ++ r) = u.length := by
  have htext (u : List Char) : textOf [Piece.token label u] = u := by simp [Piece.text]
  simp only [(renders_measured label length).leaves_iff htext,
    (measures_measured label length).takes_iff hle]

theorem leaves_skipSome_iff {length : List Char → Nat} (hle : ∀ s, length s ≤ s.length) :
    (skipSome length : Construct κ).Leaves ps r ↔
      ∃ u, ps = [.gap u] ∧ u ≠ [] ∧ length (u ++ r) = u.length := by
  have htext (u : List Char) : textOf [(Piece.gap u : Piece κ)] = u := by simp [Piece.text]
  simp only [(renders_skipSome length).leaves_iff htext,
    (measures_skipSome length).takes_iff hle]

theorem leaves_literal_iff {label : κ} {lit : String} :
    (literal label lit).Leaves ps r ↔ ps = [.token label lit.toList] := by
  have htext (u : List Char) : textOf [Piece.token label u] = u := by simp [Piece.text]
  simp only [(renders_literal label lit).leaves_iff htext, takes_literal_iff, exists_eq_right]

/-- A literal leaves the same whatever follows it. -/
theorem leaves_literal {label : κ} {lit : String} (h : (literal label lit).Leaves ps r)
    (t : List Char) : (literal label lit).Leaves ps t := by
  apply (renders_literal label lit).leaves h
  rw [takes_literal_iff]
  exact takes_literal_iff.1 h.takes

theorem renders_skipLiteral (lit : String) :
    (skipLiteral lit : Construct κ).Renders fun text ↦ [.gap text] := by
  intro s ps h
  obtain ⟨-, rfl⟩ := skipLiteral_eq_some.1 h
  simp [Piece.text]

theorem leaves_skipLiteral_iff {lit : String} :
    (skipLiteral lit : Construct κ).Leaves ps r ↔ ps = [.gap lit.toList] := by
  have htext (u : List Char) : textOf [(Piece.gap u : Piece κ)] = u := by simp [Piece.text]
  simp only [(renders_skipLiteral lit).leaves_iff htext, takes_skipLiteral_iff, exists_eq_right]

@[simp]
theorem settled_literal (label : κ) (lit : String) : (literal label lit).Settled :=
  fun _ t _ h ↦ leaves_literal h t

@[simp]
theorem settled_skipLiteral (lit : String) : (skipLiteral lit : Construct κ).Settled := by
  apply (renders_skipLiteral lit).settled
  intro i t r h
  rw [takes_skipLiteral_iff] at h ⊢
  exact h

theorem leaves_seq_nil_iff : (seq [] : Construct κ).Leaves ps r ↔ ps = [] := by
  constructor
  · rintro ⟨qs, hqs, rfl⟩
    rw [seq_nil_eq_some.1 hqs, Piece.lasting_nil]
  · rintro rfl
    exact ⟨[], seq_nil_eq_some.2 rfl, rfl⟩

/-- A sequence leaves what its first construct and then the others leave. -/
theorem leaves_seq_cons_iff : (seq (c :: cs)).Leaves ps r ↔
    ∃ qs rs, ps = qs ++ rs ∧ c.Leaves qs (textOf rs ++ r) ∧ (seq cs).Leaves rs r := by
  constructor
  · rintro ⟨us, hus, rfl⟩
    obtain ⟨qs, rs, hqs, hrs, rfl⟩ := seq_cons_eq_some.1 hus
    rw [Piece.textOf_lasting, Piece.textOf_append, List.append_assoc] at hqs hrs
    rw [← Piece.length_textOf, List.drop_left] at hrs
    refine ⟨lasting qs, lasting rs, Piece.lasting_append _ _, ⟨qs, ?_, rfl⟩, ⟨rs, ?_, rfl⟩⟩
    · rw [Piece.textOf_lasting, Piece.textOf_lasting]
      exact hqs
    · rw [Piece.textOf_lasting]
      exact hrs
  · rintro ⟨_, _, rfl, ⟨qs, hqs, rfl⟩, ⟨rs, hrs, rfl⟩⟩
    rw [Piece.textOf_lasting] at hqs hrs
    rw [Piece.textOf_lasting] at hqs
    refine ⟨qs ++ rs, ?_, Piece.lasting_append _ _⟩
    rw [Piece.textOf_append, Piece.textOf_lasting, Piece.textOf_lasting, List.append_assoc]
    apply seq_cons_eq_some.2
    refine ⟨qs, rs, hqs, ?_, rfl⟩
    rw [← Piece.length_textOf, List.drop_left]
    exact hrs

/-- The last construct of a sequence leaves what the sequence does. -/
theorem leaves_seq_singleton_iff : (seq [c]).Leaves ps r ↔ c.Leaves ps r := by
  rw [leaves_seq_cons_iff]
  constructor
  · rintro ⟨qs, rs, rfl, hqs, hrs⟩
    obtain rfl := leaves_seq_nil_iff.1 hrs
    rwa [List.append_nil]
  · intro h
    exact ⟨ps, [], (List.append_nil ps).symm, h, leaves_seq_nil_iff.2 rfl⟩

@[simp]
theorem settled_seq_nil : (seq [] : Construct κ).Settled := by
  intro ps t r h
  exact leaves_seq_nil_iff.2 (leaves_seq_nil_iff.1 h)

theorem settled_seq_cons (hc : c.Settled) (hcs : (seq cs).Settled) : (seq (c :: cs)).Settled := by
  intro ps t r h
  obtain ⟨qs, rs, rfl, hqs, hrs⟩ := leaves_seq_cons_iff.1 h
  rw [← List.append_assoc] at hqs
  exact leaves_seq_cons_iff.2 ⟨qs, rs, rfl, hc _ _ r hqs, hcs _ _ r hrs⟩

theorem settled_seq (h : ∀ c ∈ cs, c.Settled) : (seq cs).Settled := by
  induction cs with
  | nil => exact settled_seq_nil
  | cons c cs ih =>
    rw [List.forall_mem_cons] at h
    exact settled_seq_cons h.1 (ih h.2)

theorem leaves_choose_iff {construct : List Char → Construct κ} :
    (choose construct).Leaves ps r ↔ (construct (textOf ps ++ r)).Leaves ps r := Iff.rfl

/-- What the literal calls for is settled if it begins with the literal. -/
theorem settled_ifNext {lit : String} (h : c.Settled)
    (hfront : ∀ s, (c s).isSome → Text.startsWith lit s) : (ifNext lit c).Settled := by
  intro ps t r hleaves
  rw [ifNext, leaves_choose_iff] at hleaves ⊢
  split_ifs at hleaves with hnext
  · have hcut := h ps t r hleaves
    rw [if_pos (hfront _ hcut.takes.isSome)]
    exact hcut
  · have hnot : ¬ Text.startsWith lit (textOf ps ++ t) := by
      intro hstart
      rw [Text.startsWith_iff] at hnext hstart
      rw [← List.append_assoc] at hnext
      exact hnext (hstart.trans (List.prefix_append _ r))
    rw [if_neg hnot]
    exact leaves_seq_nil_iff.2 (leaves_seq_nil_iff.1 hleaves)

theorem leaves_optional_iff :
    (optional c).Leaves ps r ↔ c.Leaves ps r ∨ c r = none ∧ ps = [] := by
  constructor
  · rintro ⟨qs, hqs, rfl⟩
    have hread := Option.some.inj hqs
    cases hc : c (textOf (lasting qs) ++ r) with
    | none =>
      rw [hc, Option.getD_none] at hread
      have hnil : lasting qs = [] := by rw [← hread, Piece.lasting_withdrawal]
      rw [hnil] at hc
      exact .inr ⟨hc, hnil⟩
    | some us =>
      rw [hc, Option.getD_some] at hread
      exact .inl ⟨us, hc, by rw [hread]⟩
  · rintro (⟨qs, hqs, rfl⟩ | ⟨hnone, rfl⟩)
    · refine ⟨qs, ?_, rfl⟩
      simp only [optional, hqs, Option.getD_some]
    · refine ⟨_, rfl, ?_⟩
      rw [Piece.textOf_nil, List.nil_append, hnone, Option.getD_none, Piece.lasting_withdrawal]

/-- What one of several alternatives leaves is what the first that is there leaves. -/
theorem exists_leaves_of_firstOf (h : (firstOf cs).Leaves ps r) : ∃ c ∈ cs, c.Leaves ps r := by
  obtain ⟨us, hus, rfl⟩ := h
  rw [Piece.textOf_lasting] at hus
  generalize hs : textOf us ++ r = s at hus
  induction cs generalizing us with
  | nil => simp [firstOf, readFirst] at hus
  | cons c cs ih =>
    rcases firstOf_cons_eq_some.1 hus with hc | ⟨-, qs, hqs, rfl⟩
    · refine ⟨c, List.mem_cons_self, us, ?_, rfl⟩
      rw [Piece.textOf_lasting, hs]
      exact hc
    · rw [Piece.textOf_append, Piece.textOf_withdrawal, List.nil_append] at hs
      obtain ⟨d, hd, hleaves⟩ := ih qs hs hqs
      rw [Piece.lasting_append, Piece.lasting_withdrawal, List.nil_append]
      exact ⟨d, List.mem_cons_of_mem _ hd, hleaves⟩

/-- Where the text tells which alternative it calls for, the one that is there leaves what all of
them do. -/
theorem leaves_firstOf {called : List Char → Construct κ} (hfits : ∀ d ∈ cs, d.Fits)
    (honly : ∀ d ∈ cs, ∀ a b, d.Takes a b → called (a ++ b) = d) (hc : c ∈ cs)
    (h : c.Leaves ps r) : (firstOf cs).Leaves ps r := by
  obtain ⟨us, hus⟩ := Option.isSome_iff_exists.1 (isSome_firstOf hc h.takes.isSome)
  have hsplit := ((fits_firstOf hfits).read _ us hus).textOf_append_drop
  have hfirst := (fits_firstOf hfits).leaves hus
  obtain ⟨d, hd, hleaves⟩ := exists_leaves_of_firstOf hfirst
  have hsame : textOf ps ++ r = textOf (lasting us) ++ (textOf ps ++ r).drop (width us) := by
    rw [Piece.textOf_lasting, hsplit]
  have hcalled := honly c hc _ _ h.takes
  rw [hsame, honly d hd _ _ hleaves.takes] at hcalled
  subst hcalled
  obtain ⟨htext, hrest⟩ := h.takes.unique hleaves.takes hsame
  rw [← hrest] at hfirst hleaves
  rw [h.unique hleaves htext]
  exact hfirst

/-- Where no alternative in front of it is there, one leaves what all of them do. -/
theorem leaves_firstOf_of_none (front : List (Construct κ))
    (hfront : ∀ d ∈ front, d (textOf ps ++ r) = none) (h : c.Leaves ps r) :
    (firstOf (front ++ c :: cs)).Leaves ps r := by
  obtain ⟨us, hus, hlasting⟩ := h
  induction front with
  | nil => exact ⟨us, firstOf_cons_eq_some.2 (.inl hus), hlasting⟩
  | cons d front ih =>
    rw [List.forall_mem_cons] at hfront
    obtain ⟨vs, hvs, hbehind⟩ := ih hfront.2
    refine ⟨_, firstOf_cons_eq_some.2 (.inr ⟨hfront.1, vs, hvs, rfl⟩), ?_⟩
    rw [Piece.lasting_append, Piece.lasting_withdrawal, List.nil_append, hbehind]

theorem settled_firstOf {called : List Char → Construct κ} (hfits : ∀ d ∈ cs, d.Fits)
    (honly : ∀ d ∈ cs, ∀ a b, d.Takes a b → called (a ++ b) = d) (h : ∀ d ∈ cs, d.Settled) :
    (firstOf cs).Settled := by
  intro ps t r hleaves
  obtain ⟨d, hd, hdleaves⟩ := exists_leaves_of_firstOf hleaves
  exact leaves_firstOf hfits honly hd (h d hd ps t r hdleaves)

/-! ## Repetition -/

/-- One turn after another leaves its pieces, until the construct is not there. -/
inductive LeavesMany (c : Construct κ) : List (Piece κ) → List Char → Prop
  | nil {r : List Char} : c r = none → LeavesMany c [] r
  | cons {ps qs : List (Piece κ)} {r : List Char} :
      c.Leaves ps (textOf qs ++ r) → LeavesMany c qs r → LeavesMany c (ps ++ qs) r

theorem LeavesMany.ends (h : LeavesMany c ps r) : c r = none := by
  induction h with
  | nil hr => exact hr
  | cons _ _ ih => exact ih

theorem leavesMany_repeated (hc : c.Advances) (hfits : c.Fits) (s : List Char) :
    LeavesMany c (lasting (c.repeated s)) (s.drop (width (c.repeated s))) := by
  refine repeated_induction
    (motive := fun s ps ↦ LeavesMany c (lasting ps) (s.drop (width ps))) hc hfits ?_ ?_ s
  · intro s hnone
    exact .nil hnone
  · intro s ps hread hrest
    rw [Piece.lasting_append, Piece.width_append, ← List.drop_drop]
    refine .cons ?_ hrest
    rw [Piece.textOf_lasting, (fits_repeated hfits (s.drop (width ps))).textOf_append_drop]
    exact hfits.leaves hread

/-- The pieces that turns leave are those that reading again and again leaves. -/
theorem LeavesMany.lasting_repeated (hc : c.Advances) (hfits : c.Fits) (h : LeavesMany c ps r) :
    lasting (c.repeated (textOf ps ++ r)) = ps := by
  induction h with
  | nil hr =>
    rw [Piece.textOf_nil, List.nil_append, repeated_of_none hr]
    rfl
  | @cons ps qs r hps _ ih =>
    obtain ⟨us, hus, rfl⟩ := hps
    rw [Piece.textOf_lasting] at hus
    have hdrop : (textOf us ++ (textOf qs ++ r)).drop (width us) = textOf qs ++ r := by
      rw [← Piece.length_textOf, List.drop_left]
    rw [Piece.textOf_append, Piece.textOf_lasting, List.append_assoc,
      repeated_of_some hc hfits hus, hdrop, Piece.lasting_append, ih]

/-- A repetition leaves turn after turn, and ends where the construct is not there. -/
theorem leaves_many_iff (hc : c.Advances) (hfits : c.Fits) :
    c.many.Leaves ps r ↔ LeavesMany c ps r := by
  constructor
  · rintro ⟨us, hus, hlasting⟩
    obtain rfl := Option.some.inj hus
    rw [Piece.lasting_append, Piece.lasting_withdrawal, List.append_nil] at hlasting
    have hloop := leavesMany_repeated hc hfits (textOf ps ++ r)
    have hwidth : width (c.repeated (textOf ps ++ r)) = (textOf ps).length := by
      rw [← Piece.length_textOf, ← Piece.textOf_lasting, hlasting]
    rw [hlasting, hwidth, List.drop_left] at hloop
    exact hloop
  · intro h
    refine ⟨_, rfl, ?_⟩
    rw [Piece.lasting_append, Piece.lasting_withdrawal, List.append_nil,
      h.lasting_repeated hc hfits]

/-- Turns of a settled construct may be cut off behind where they end. -/
theorem LeavesMany.cut {t : List Char} (hc : c.Settled) (h : LeavesMany c ps (t ++ r))
    (ht : c t = none) : LeavesMany c ps t := by
  generalize hrest : t ++ r = rest at h
  induction h with
  | nil _ => exact .nil ht
  | cons hps _ ih =>
    subst hrest
    rw [← List.append_assoc] at hps
    exact .cons (hc _ _ r hps) (ih rfl)

/-- A repetition is settled in front of a sequence that is there only where the repetition ends. -/
theorem settled_many_seq (hadvances : c.Advances) (hfits : c.Fits) (hc : c.Settled)
    (hcs : (seq cs).Settled) (hends : ∀ s, (seq cs s).isSome → c s = none) :
    (seq (c.many :: cs)).Settled := by
  intro ps t r h
  obtain ⟨qs, rs, rfl, hqs, hrs⟩ := leaves_seq_cons_iff.1 h
  have hbehind := hcs _ _ r hrs
  rw [leaves_many_iff hadvances hfits, ← List.append_assoc] at hqs
  refine leaves_seq_cons_iff.2 ⟨qs, rs, rfl, ?_, hbehind⟩
  rw [leaves_many_iff hadvances hfits]
  exact hqs.cut hc (hends _ hbehind.takes.isSome)

end Construct

end Highlight
