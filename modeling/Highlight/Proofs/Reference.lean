import Highlight.Proofs.Text.Steady
import Highlight.Reference

/-!
# References and their ends

A reference lies within the text, and it is its mark, a body and the semicolon that follows it.
Nothing behind the semicolon is looked at.
-/

namespace Highlight.Reference

theorem closedLength_le {opening body : Nat} {s : List Char}
    (hle : opening + body ≤ s.length) : closedLength opening body s ≤ s.length := by
  unfold closedLength
  split_ifs with hbody hclosed
  · exact Nat.zero_le _
  · exact Text.add_le_length hle (Text.length_le_of_startsWith hclosed)
  · exact Nat.zero_le _

theorem length_le {hexMarks : List String} {nameLength : List Char → Nat}
    (hmarks : ∀ mark ∈ hexMarks, mark.toList.length = 3)
    (hname : ∀ s, nameLength s ≤ s.length) (s : List Char) :
    Reference.length hexMarks nameLength s ≤ s.length := by
  unfold Reference.length
  split_ifs with hhex hcode hentity
  · obtain ⟨mark, hmem, hmark⟩ := List.any_eq_true.1 hhex
    have hle := Text.length_le_of_startsWith hmark
    rw [hmarks mark hmem] at hle
    exact closedLength_le (Text.add_le_length hle (Text.spanLength_le _ _))
  · exact closedLength_le
      (Text.add_le_length (Text.length_le_of_startsWith hcode) (Text.spanLength_le _ _))
  · exact closedLength_le (Text.add_le_length (Text.length_le_of_startsWith hentity) (hname _))
  · exact Nat.zero_le _

section

variable {mark : String} {body : List Char → Nat} {i r : List Char}

/-- A closed reference is its mark, a body and a semicolon. -/
theorem eq_of_closedLength (hi : i ≠ []) (hmark : Text.startsWith mark (i ++ r))
    (h : closedLength mark.toList.length (body ((i ++ r).drop mark.toList.length)) (i ++ r) =
      i.length) :
    ∃ t, body t ≠ 0 ∧ i = mark.toList ++ t.take (body t) ++ ";".toList := by
  obtain ⟨t, ht⟩ := Text.startsWith_iff.1 hmark
  have hpos := List.length_pos_iff.2 hi
  rw [← ht, List.drop_left, closedLength, ← List.drop_drop, List.drop_left] at h
  split_ifs at h with hn hclosed
  · omega
  · obtain ⟨rest, hrest⟩ := Text.startsWith_iff.1 hclosed
    have hle : body t ≤ t.length := by
      have hlength := congrArg List.length hrest
      simp only [List.length_append, List.length_drop] at hlength
      change 1 + _ = _ at hlength
      omega
    have hsplit : mark.toList ++ t.take (body t) ++ ";".toList ++ rest = i ++ r :=
      calc
        _ = mark.toList ++ (t.take (body t) ++ (";".toList ++ rest)) := by
          rw [List.append_assoc, List.append_assoc]
        _ = mark.toList ++ t := by rw [hrest, List.take_append_drop]
        _ = i ++ r := ht
    refine ⟨t, hn, (List.append_inj hsplit ?_).1.symm⟩
    rw [List.length_append, List.length_append, List.length_take, Nat.min_eq_left hle, ← h]
    rfl
  · omega

theorem closedLength_append (mark : String) {inner : List Char} (hinner : inner ≠ [])
    (hbody : body (inner ++ (";".toList ++ r)) = inner.length) :
    closedLength mark.toList.length
        (body ((mark.toList ++ inner ++ ";".toList ++ r).drop mark.toList.length))
        (mark.toList ++ inner ++ ";".toList ++ r) =
      (mark.toList ++ inner ++ ";".toList).length := by
  have hpos := List.length_pos_iff.2 hinner
  rw [List.append_assoc, List.append_assoc, List.drop_left, hbody, closedLength, ← List.drop_drop,
    List.drop_left, List.drop_left, if_neg (Nat.ne_of_gt hpos),
    if_pos (Text.startsWith_iff.2 (List.prefix_append _ _)), List.length_append,
    List.length_append]
  rfl

end

section

variable {hexMarks : List String} {nameLength : List Char → Nat} {p : Char → Bool}
  (hmarks : ∀ mark ∈ hexMarks,
    mark.toList.length = 3 ∧ ∃ front, mark.toList = '&' :: front ∧ ∀ c ∈ front, p c)
  (hsigns : p '#' ∧ p ';') (hdigit : ∀ c, Text.isHexDigit c → p c)
  (hname : ∀ s : List Char, ∀ c ∈ s.take (nameLength s), p c)

include hmarks hsigns hdigit hname

/-- A reference is an ampersand and, behind it, what its mark and its body are made of. -/
theorem exists_of_length {i r : List Char} (hi : i ≠ [])
    (h : Reference.length hexMarks nameLength (i ++ r) = i.length) :
    ∃ inner, i = '&' :: inner ∧ ∀ c ∈ inner, p c := by
  have hclosed {mark : String} {body : List Char → Nat} (front : List Char)
      (hmark : mark.toList = '&' :: front) (hfront : ∀ c ∈ front, p c)
      (hbody : ∀ s : List Char, ∀ c ∈ s.take (body s), p c)
      (hform : ∃ t, body t ≠ 0 ∧ i = mark.toList ++ t.take (body t) ++ ";".toList) :
      ∃ inner, i = '&' :: inner ∧ ∀ c ∈ inner, p c := by
    obtain ⟨t, -, rfl⟩ := hform
    refine ⟨front ++ t.take (body t) ++ ";".toList, ?_, ?_⟩
    · rw [hmark, List.cons_append, List.cons_append]
    · exact List.forall_mem_append.2 ⟨List.forall_mem_append.2 ⟨hfront, hbody t⟩,
        List.forall_mem_singleton.2 hsigns.2⟩
  have hdigits (q : Char → Bool) (hq : ∀ c, q c → Text.isHexDigit c) (s : List Char) :
      ∀ c ∈ s.take (Text.spanLength q s), p c :=
    fun c hc ↦ hdigit c (hq c (Text.forall_mem_take_spanLength c hc))
  have hpos := List.length_pos_iff.2 hi
  unfold Reference.length at h
  split_ifs at h with hhex hcode hentity
  · obtain ⟨mark, hmem, hmark⟩ := List.any_eq_true.1 hhex
    obtain ⟨hthree, front, hfront, hall⟩ := hmarks mark hmem
    rw [← hthree] at h
    exact hclosed front hfront hall (hdigits _ fun _ hc ↦ hc) (eq_of_closedLength hi hmark h)
  · have hdecimal (c : Char) (hc : c.isDigit) : Text.isHexDigit c := by
      simp [Text.isHexDigit, hc]
    exact hclosed ['#'] rfl (List.forall_mem_singleton.2 hsigns.1) (hdigits _ hdecimal)
      (eq_of_closedLength hi hcode h)
  · exact hclosed [] rfl (List.forall_mem_nil _) hname (eq_of_closedLength hi hentity h)
  · omega

/-- A text in which a reference is found begins with it. -/
theorem exists_cons_of_length (hle : ∀ s, nameLength s ≤ s.length) {s : List Char}
    (h : Reference.length hexMarks nameLength s ≠ 0) :
    ∃ inner rest, s = '&' :: (inner ++ rest) ∧
      Reference.length hexMarks nameLength s = inner.length + 1 ∧ ∀ c ∈ inner, p c := by
  have hlength :=
    List.length_take_of_le (length_le (fun mark hmem ↦ (hmarks mark hmem).1) hle s)
  have hwhole := List.take_append_drop (Reference.length hexMarks nameLength s) s
  have hi : s.take (Reference.length hexMarks nameLength s) ≠ [] := by
    rw [← List.length_pos_iff, hlength]
    exact Nat.pos_of_ne_zero h
  obtain ⟨inner, hinner, hall⟩ :=
    exists_of_length hmarks hsigns hdigit hname hi (by rw [hwhole, hlength])
  rw [hinner] at hwhole hlength
  exact ⟨inner, _, hwhole.symm, hlength.symm, hall⟩

end

section

variable {opening : Nat} {here : List Char → Bool} {body rest : List Char → Nat}

/-- A closed reference has at least one character in front of its semicolon. -/
theorem closedLength_bound (opening body : Nat) (s : List Char) :
    closedLength opening body s = 0 ∨ opening + 2 ≤ closedLength opening body s := by
  unfold closedLength
  split_ifs with hbody hclosed
  · exact .inl rfl
  · exact .inr (by omega)
  · exact .inl rfl

theorem closedLength_of_short {body : Nat} {s : List Char} (h : s.length < opening + 2) :
    closedLength opening body s = 0 := by
  unfold closedLength
  split_ifs with hbody hclosed
  · rfl
  · have hle := Text.length_le_of_startsWith hclosed
    rw [List.length_drop] at hle
    change 1 ≤ _ at hle
    omega
  · rfl

/-- A reference that is closed within a text is closed there as well where the text is cut off. -/
theorem closedLength_of_append {u r : List Char} (hbody : Text.Greedy body)
    (hopening : opening ≤ u.length)
    (hle : closedLength opening (body ((u ++ r).drop opening)) (u ++ r) ≤ u.length) :
    closedLength opening (body (u.drop opening)) u =
      closedLength opening (body ((u ++ r).drop opening)) (u ++ r) := by
  have hcut := hbody (u.drop opening) r
  rw [Text.drop_append hopening] at hle ⊢
  rw [List.length_drop] at hcut
  generalize body (u.drop opening ++ r) = whole at hle hcut ⊢
  rcases Nat.le_or_ge whole (u.length - opening) with hfits | hcuts
  · rw [hcut, Nat.min_eq_right hfits]
    unfold closedLength at hle ⊢
    split_ifs at hle ⊢ with hzero hfront hwhole hwhole
    · rfl
    · rfl
    · rw [Text.drop_append (by omega)] at hwhole
      exact absurd (Text.startsWith_of_append hfront r) hwhole
    · rw [Text.drop_append (by omega), Text.startsWith_append] at hwhole
      · exact absurd hwhole hfront
      · rw [List.length_drop]
        change 1 ≤ _
        omega
    · rfl
  · -- The body goes on behind the cut, so neither text shows a semicolon in front of it.
    have hnone : closedLength opening whole (u ++ r) = 0 := by
      unfold closedLength at hle ⊢
      split_ifs at hle ⊢ <;> omega
    rw [hnone, hcut, Nat.min_eq_left hcuts]
    unfold closedLength
    rw [Nat.add_sub_cancel' hopening, List.drop_length]
    split_ifs with hzero hclosed
    · rfl
    · exact absurd hclosed (by decide)
    · rfl

theorem steady_closed_or (hhere : Text.Reaches opening here) (hbody : Text.Greedy body)
    (hrest : Text.Steady id rest) (hshort : ∀ s, s.length < opening → rest s = 0) :
    Text.Steady id fun s ↦
      if here s then closedLength opening (body (s.drop opening)) s else rest s := by
  intro u r hle
  simp only [id_eq] at hle ⊢
  by_cases hwhole : here (u ++ r)
  · rw [if_pos hwhole] at hle ⊢
    by_cases hopening : opening ≤ u.length
    · rw [hhere.decided u r hopening] at hwhole
      rw [if_pos hwhole]
      exact closedLength_of_append hbody hopening hle
    · have hfront : ¬ here u := fun hu ↦ hopening (hhere.needs u hu)
      rw [if_neg hfront, hshort u (Nat.lt_of_not_le hopening)]
      rcases closedLength_bound opening (body ((u ++ r).drop opening)) (u ++ r) with hzero | hlarge
      · exact hzero.symm
      · omega
  · have hfront : ¬ here u := by
      rw [Bool.not_eq_true] at hwhole ⊢
      exact hhere.eq_false_of_append hwhole
    rw [if_neg hwhole] at hle ⊢
    rw [if_neg hfront]
    exact hrest u r hle

/-- References of both kinds of markup are decided by what they are made of. -/
theorem steady_length {hexMarks : List String} {nameLength : List Char → Nat}
    (hmarks : ∀ mark ∈ hexMarks, mark.toList.length = 3) (hname : Text.Greedy nameLength) :
    Text.Steady id (Reference.length hexMarks nameLength) := by
  have hhex : Text.Reaches 3 fun s ↦ hexMarks.any (Text.startsWith · s) := by
    constructor
    · intro s h
      obtain ⟨mark, hmem, hmark⟩ := List.any_eq_true.1 h
      rw [← hmarks mark hmem]
      exact Text.length_le_of_startsWith hmark
    · intro s r h
      have hsame : ∀ mark ∈ hexMarks, Text.startsWith mark (s ++ r) = Text.startsWith mark s := by
        intro mark hmem
        rw [Text.startsWith_append mark (by rw [hmarks mark hmem]; exact h)]
      rw [Bool.eq_iff_iff, List.any_eq_true, List.any_eq_true]
      exact exists_congr fun mark ↦ and_congr_right fun hmem ↦ by rw [hsame mark hmem]
  refine steady_closed_or hhex (Text.greedy_spanLength _) (steady_closed_or
    (Text.reaches_startsWith "&#") (Text.greedy_spanLength _) (steady_closed_or
      (Text.reaches_startsWith "&") hname (fun _ _ _ ↦ rfl) fun _ _ ↦ rfl) ?_) ?_
  · intro s hs
    change s.length < 2 at hs
    change (if _ then closedLength 1 _ s else 0) = 0
    rw [closedLength_of_short (by omega), ite_self]
  · intro s hs
    change (if _ then closedLength 2 _ s else if _ then closedLength 1 _ s else 0) = 0
    rw [closedLength_of_short (by omega), closedLength_of_short (by omega), ite_self, ite_self]

end

end Highlight.Reference
