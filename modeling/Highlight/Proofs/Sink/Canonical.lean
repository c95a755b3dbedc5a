import Mathlib.Data.List.Chain
import Highlight.Proofs.Coalescing
import Highlight.Proofs.Piece.Layout

/-!
# Merged tokens as a normal form

Tokens give each byte a kind or none, and a run of bytes of one kind may be cut into tokens in many
ways. Merging leaves the runs uncut. They can be told from the kinds alone: the first token begins
at the first byte that has a kind, and it ends where the kind changes, because no token of its kind
goes on there. So two token lists are merged into the same one exactly if they give every byte the
same kind, and no list that does so is shorter.
-/

namespace Highlight

open Sink (InOrder merged)

/-- The kind that the tokens give a byte, if one of them covers it. -/
def kindAt (tokens : List Token) (n : Nat) : Option Kind :=
  (tokens.find? (·.covers n)).map Token.kind

/-- The second token goes on where the first one ends, in the same kind. -/
def Token.GoesOn (before after : Token) : Prop :=
  before.kind = after.kind ∧ before.stop = after.begin

instance (tokens : List Token) : Decidable (InOrder tokens) :=
  inferInstanceAs (Decidable (tokens.Pairwise _))

/-- Tokens as one scan may hold them: none is empty, and they are in order and do not overlap. -/
structure IsScan (tokens : List Token) : Prop where
  length_pos : ∀ token ∈ tokens, 0 < token.length
  inOrder : InOrder tokens

/-- Tokens of one scan that are not cut anywhere. -/
structure IsMerged (tokens : List Token) : Prop extends IsScan tokens where
  apart : tokens.IsChain fun before after ↦ ¬ before.GoesOn after

@[simp]
theorem kindAt_nil (n : Nat) : kindAt [] n = none := rfl

theorem kindAt_cons (token : Token) (tokens : List Token) (n : Nat) :
    kindAt (token :: tokens) n = if token.covers n then some token.kind else kindAt tokens n := by
  rw [kindAt, List.find?_cons]
  cases token.covers n <;> rfl

theorem kindAt_append (ts us : List Token) (n : Nat) :
    kindAt (ts ++ us) n = (kindAt ts n).or (kindAt us n) := by
  rw [kindAt, List.find?_append, Option.map_or]
  rfl

theorem isSome_kindAt (tokens : List Token) (n : Nat) :
    (kindAt tokens n).isSome = tokens.any (·.covers n) := by
  rw [kindAt, Option.isSome_map, List.isSome_find?]

/-- A byte in front of the tokens has no kind. -/
theorem kindAt_eq_none {tokens : List Token} {m n : Nat} (h : ∀ token ∈ tokens, m ≤ token.begin)
    (hn : n < m) : kindAt tokens n = none := by
  rw [← Option.not_isSome_iff_eq_none, isSome_kindAt, Bool.not_eq_true, List.any_eq_false]
  intro token htoken hcovers
  have hbegin := h token htoken
  have hle := (Token.covers_iff.1 hcovers).1
  omega

/-- A token is added to a list, or it goes on with the last one. -/
theorem merged_cases (tokens : List Token) (token : Token) :
    ((∀ last, tokens.getLast? = some last → ¬ last.GoesOn token) ∧
      merged tokens token = tokens ++ [token]) ∨
    ∃ front last, tokens = front ++ [last] ∧ last.GoesOn token ∧
      merged tokens token = front ++ [{ last with length := last.length + token.length }] := by
  unfold merged
  rcases List.eq_nil_or_concat' tokens with rfl | ⟨front, last, rfl⟩
  · exact .inl ⟨by simp, rfl⟩
  · rw [List.getLast?_concat, List.dropLast_concat]
    by_cases hgoesOn : last.GoesOn token
    · exact .inr ⟨front, last, rfl, hgoesOn, if_pos hgoesOn⟩
    · refine .inl ⟨?_, if_neg hgoesOn⟩
      rintro _ ⟨⟩
      exact hgoesOn

/-- A token that goes on with another one ends where both end together. -/
theorem Token.GoesOn.stop_eq {before after : Token} (h : before.GoesOn after) :
    Token.stop { before with length := before.length + after.length } = after.stop :=
  calc
    _ = before.stop + after.length := (Nat.add_assoc _ _ _).symm
    _ = after.stop := by rw [h.2, Token.stop]

theorem Token.GoesOn.covers_eq {before after : Token} (h : before.GoesOn after) (n : Nat) :
    Token.covers n { before with length := before.length + after.length } =
      (before.covers n || after.covers n) := by
  have hstop := h.2
  rw [Bool.eq_iff_iff, Bool.or_eq_true, Token.covers_iff, Token.covers_iff, Token.covers_iff]
  unfold Token.stop at hstop ⊢
  dsimp only
  omega

theorem kindAt_merged (tokens : List Token) (token : Token) (n : Nat) :
    kindAt (merged tokens token) n = kindAt (tokens ++ [token]) n := by
  rcases merged_cases tokens token with ⟨-, hmerged⟩ | ⟨front, last, rfl, hgoesOn, hmerged⟩
  · rw [hmerged]
  · rw [hmerged, List.append_assoc, kindAt_append, kindAt_append front]
    congr 1
    rw [List.singleton_append, kindAt_cons, kindAt_cons, kindAt_cons, hgoesOn.covers_eq, kindAt_nil,
      ← hgoesOn.1]
    cases last.covers n <;> rfl

/-- Merging cuts nothing off and moves no end of a token to a new place. -/
theorem exists_stop_of_mem_merged {tokens : List Token} {token other : Token}
    (h : other ∈ merged tokens token) : ∃ cut ∈ tokens ++ [token], other.stop = cut.stop := by
  rcases merged_cases tokens token with ⟨-, hmerged⟩ | ⟨front, last, rfl, hgoesOn, hmerged⟩
  · exact ⟨other, hmerged ▸ h, rfl⟩
  · rw [hmerged, List.mem_append, List.mem_singleton] at h
    rcases h with hfront | rfl
    · exact ⟨other, by simp [hfront], rfl⟩
    · exact ⟨token, by simp, hgoesOn.stop_eq⟩

theorem length_merged_le (tokens : List Token) (token : Token) :
    (merged tokens token).length ≤ tokens.length + 1 ∧
      ((merged tokens token).length = tokens.length + 1 →
        merged tokens token = tokens ++ [token]) := by
  rcases merged_cases tokens token with ⟨-, hmerged⟩ | ⟨front, last, rfl, -, hmerged⟩
  · exact ⟨by simp [hmerged], fun _ ↦ hmerged⟩
  · rw [hmerged]
    simp

namespace IsScan

variable {token : Token} {tokens : List Token}

theorem of_cons (h : IsScan (token :: tokens)) :
    0 < token.length ∧ (∀ after ∈ tokens, token.stop ≤ after.begin) ∧ IsScan tokens := by
  obtain ⟨hpos, hall⟩ := List.forall_mem_cons.1 h.length_pos
  obtain ⟨hbehind, hinOrder⟩ := List.pairwise_cons.1 h.inOrder
  exact ⟨hpos, hbehind, hall, hinOrder⟩

theorem of_concat (h : IsScan (tokens ++ [token])) :
    IsScan tokens ∧ 0 < token.length ∧ ∀ before ∈ tokens, before.stop ≤ token.begin := by
  obtain ⟨hinOrder, -, hcross⟩ := List.pairwise_append.1 h.inOrder
  refine ⟨⟨fun other hother ↦ h.length_pos other (by simp [hother]), hinOrder⟩,
    h.length_pos token (by simp), ?_⟩
  exact fun before hbefore ↦ hcross before hbefore token (by simp)

theorem concat (h : IsScan tokens) (hpos : 0 < token.length)
    (horder : ∀ before ∈ tokens, before.stop ≤ token.begin) : IsScan (tokens ++ [token]) where
  length_pos := by
    rw [List.forall_mem_append, List.forall_mem_singleton]
    exact ⟨h.length_pos, hpos⟩
  inOrder := h.inOrder.concat horder

end IsScan

theorem isMerged_nil : IsMerged [] := ⟨⟨by simp, List.Pairwise.nil⟩, List.isChain_nil⟩

namespace IsMerged

variable {token : Token} {tokens : List Token}

theorem of_cons (h : IsMerged (token :: tokens)) : IsMerged tokens :=
  ⟨h.toIsScan.of_cons.2.2, h.apart.tail⟩

/-- A token is merged into what is merged. -/
theorem merged (h : IsMerged tokens) (hpos : 0 < token.length)
    (horder : ∀ before ∈ tokens, before.stop ≤ token.begin) : IsMerged (merged tokens token) := by
  rcases merged_cases tokens token with ⟨hapart, hmerged⟩ | ⟨front, last, rfl, hgoesOn, hmerged⟩
  · rw [hmerged]
    refine ⟨h.concat hpos horder, ?_⟩
    rw [List.isChain_append]
    refine ⟨h.apart, List.isChain_singleton _, ?_⟩
    rintro last hlast after ⟨⟩
    exact hapart last hlast
  · rw [hmerged]
    obtain ⟨hfront, hlast, hbehind⟩ := h.toIsScan.of_concat
    refine ⟨hfront.concat (Nat.add_pos_left hlast _) hbehind, ?_⟩
    -- the grown token begins where it did and has the kind it had
    have hapart := h.apart
    rw [List.isChain_append] at hapart ⊢
    refine ⟨hapart.1, List.isChain_singleton _, ?_⟩
    rintro before hbefore after ⟨⟩
    exact hapart.2.2 before hbefore last (by simp)

theorem merged_eq (h : IsMerged (tokens ++ [token])) :
    Sink.merged tokens token = tokens ++ [token] := by
  rcases merged_cases tokens token with ⟨-, hmerged⟩ | ⟨front, last, rfl, hgoesOn, -⟩
  · exact hmerged
  · have hapart := h.apart
    rw [List.append_assoc, List.isChain_append] at hapart
    exact absurd hgoesOn (List.isChain_cons_cons.1 hapart.2.1).1

end IsMerged

/-- Behind its first token a scan gives the kinds that it gives where that is not. -/
theorem IsScan.kindAt_tail {token : Token} {tokens : List Token} (h : IsScan (token :: tokens))
    (n : Nat) :
    kindAt tokens n = if token.covers n then none else kindAt (token :: tokens) n := by
  rw [kindAt_cons]
  split_ifs with hcovers
  · exact kindAt_eq_none h.of_cons.2.1 (Token.covers_iff.1 hcovers).2
  · rfl

/-- Whatever the tokens are, each one of the result ends where one of them does. -/
theorem exists_stop_of_mem_coalesce {tokens : List Token} {token : Token}
    (h : token ∈ coalesce tokens) : ∃ cut ∈ tokens, token.stop = cut.stop := by
  induction tokens using List.reverseRecOn generalizing token with
  | nil => exact absurd h List.not_mem_nil
  | append_singleton tokens last ih =>
    have hkept (h : token ∈ coalesce tokens) : ∃ cut ∈ tokens ++ [last], token.stop = cut.stop := by
      obtain ⟨cut, hcut, hstop⟩ := ih h
      exact ⟨cut, List.mem_append_left _ hcut, hstop⟩
    rw [← currentScan_gathered, gathered_concat, Sink.emitCoalescing] at h
    rw [← currentScan_gathered] at hkept ih
    revert h
    apply Sink.accept_cases (motive := fun sink ↦ token ∈ sink.currentScan.toList →
      ∃ cut ∈ tokens ++ [last], token.stop = cut.stop)
    · exact fun _ h ↦ hkept h
    · exact fun _ _ h ↦ hkept h
    · intro _ _ h
      rw [Sink.currentScan_merge (wellFormed_gathered tokens)] at h
      obtain ⟨cut, hcut, hstop⟩ := exists_stop_of_mem_merged h
      rcases List.mem_append.1 hcut with hcut | hcut
      · obtain ⟨first, hfirst, hsame⟩ := ih hcut
        exact ⟨first, List.mem_append_left _ hfirst, hstop.trans hsame⟩
      · exact ⟨cut, List.mem_append_right _ hcut, hstop⟩

/-- Whatever the tokens are, what is left of them is merged. -/
theorem isMerged_coalesce (tokens : List Token) : IsMerged (coalesce tokens) := by
  induction tokens using List.reverseRecOn with
  | nil => exact isMerged_nil
  | append_singleton tokens token ih =>
    rw [← currentScan_gathered] at ih ⊢
    rw [gathered_concat, Sink.emitCoalescing]
    apply Sink.accept_cases (motive := fun sink ↦ IsMerged sink.currentScan.toList)
    · exact fun _ ↦ ih
    · exact fun _ _ ↦ ih
    · intro hlength horder
      rw [Sink.currentScan_merge (wellFormed_gathered tokens)]
      rw [Sink.stop_eq] at horder
      exact ih.merged (Nat.pos_of_ne_zero hlength) fun before hbefore ↦
        Nat.le_trans (ih.inOrder.stop_le_last before hbefore) horder

/-- The last token of a scan is merged into what the others are merged to. -/
theorem IsScan.coalesce_concat {tokens : List Token} {token : Token}
    (h : IsScan (tokens ++ [token])) :
    coalesce (tokens ++ [token]) = merged (coalesce tokens) token := by
  obtain ⟨-, hpos, horder⟩ := h.of_concat
  apply Highlight.coalesce_concat (Nat.ne_of_gt hpos)
  rw [Sink.stop_eq, currentScan_gathered]
  cases hlast : (coalesce tokens).getLast? with
  | none => exact Nat.zero_le _
  | some last =>
    obtain ⟨cut, hcut, hstop⟩ := exists_stop_of_mem_coalesce (List.mem_of_getLast? hlast)
    calc
      last.stop = cut.stop := hstop
      _ ≤ token.begin := horder cut hcut

/-- Merging leaves every byte its kind. -/
theorem IsScan.kindAt_coalesce {tokens : List Token} (h : IsScan tokens) (n : Nat) :
    kindAt (coalesce tokens) n = kindAt tokens n := by
  induction tokens using List.reverseRecOn with
  | nil => rfl
  | append_singleton tokens token ih =>
    rw [h.coalesce_concat, kindAt_merged, kindAt_append, kindAt_append, ih h.of_concat.1]

/-- Merging makes no list longer, and shorter unless it changes nothing. -/
theorem IsScan.length_coalesce_le {tokens : List Token} (h : IsScan tokens) :
    (coalesce tokens).length ≤ tokens.length ∧
      ((coalesce tokens).length = tokens.length → coalesce tokens = tokens) := by
  induction tokens using List.reverseRecOn with
  | nil => exact ⟨Nat.le_refl _, fun _ ↦ rfl⟩
  | append_singleton tokens token ih =>
    obtain ⟨hle, hsame⟩ := ih h.of_concat.1
    obtain ⟨hmergedLe, hmergedSame⟩ := length_merged_le (coalesce tokens) token
    rw [h.coalesce_concat, List.length_append, List.length_singleton]
    refine ⟨by omega, fun hlength ↦ ?_⟩
    rw [hmergedSame (by omega), hsame (by omega)]

theorem IsMerged.coalesce_eq {tokens : List Token} (h : IsMerged tokens) :
    coalesce tokens = tokens := by
  induction tokens using List.reverseRecOn with
  | nil => rfl
  | append_singleton tokens token ih =>
    have hfront : IsMerged tokens :=
      ⟨h.toIsScan.of_concat.1, (List.isChain_append.1 h.apart).1⟩
    rw [h.toIsScan.coalesce_concat, ih hfront, h.merged_eq]

/-- Behind the first token of merged tokens its kind does not go on. -/
theorem IsMerged.kindAt_stop_ne {token : Token} {tokens : List Token}
    (h : IsMerged (token :: tokens)) : kindAt tokens token.stop ≠ some token.kind := by
  intro hkind
  cases tokens with
  | nil => exact absurd hkind (by simp)
  | cons next tokens =>
    obtain ⟨-, hbehind, hrest⟩ := h.toIsScan.of_cons
    have hbegin := hbehind next List.mem_cons_self
    have hapart : ¬ token.GoesOn next := (List.isChain_cons_cons.1 h.apart).1
    obtain ⟨hpos, hlater, -⟩ := hrest.of_cons
    rw [kindAt_cons] at hkind
    split_ifs at hkind with hcovers
    · -- the next token covers the byte, so it begins there
      have hle := (Token.covers_iff.1 hcovers).1
      exact hapart ⟨(Option.some.inj hkind).symm, Nat.le_antisymm hbegin hle⟩
    · have hnone : kindAt tokens token.stop = none := by
        apply kindAt_eq_none hlater
        unfold Token.stop at hbegin ⊢
        omega
      rw [hnone] at hkind
      exact absurd hkind (by simp)

/-- The first of merged tokens cannot begin or end in front of that of others with the same
kinds. -/
theorem first_le {token other : Token} {tokens others : List Token}
    (h : IsMerged (token :: tokens)) (hothers : IsMerged (other :: others))
    (hkinds : ∀ n, kindAt (token :: tokens) n = kindAt (other :: others) n) :
    other.begin ≤ token.begin ∧
      (token.begin = other.begin → token.kind = other.kind ∧ other.stop ≤ token.stop) := by
  obtain ⟨hpos, hbehind, -⟩ := h.toIsScan.of_cons
  obtain ⟨hotherPos, hotherBehind, -⟩ := hothers.toIsScan.of_cons
  have hcovers {first : Token} (hlength : 0 < first.length) : first.covers first.begin :=
    Token.covers_iff.2 ⟨Nat.le_refl _, Nat.lt_add_of_pos_right hlength⟩
  have hfirst := hkinds token.begin
  rw [kindAt_cons, if_pos (hcovers hpos)] at hfirst
  constructor
  · by_contra hlt
    have hall : ∀ after ∈ other :: others, other.begin ≤ after.begin := by
      rw [List.forall_mem_cons]
      refine ⟨Nat.le_refl _, fun after hafter ↦ ?_⟩
      exact Nat.le_trans (Nat.le_add_right _ _) (hotherBehind after hafter)
    rw [kindAt_eq_none hall (Nat.lt_of_not_le hlt)] at hfirst
    exact absurd hfirst (by simp)
  · intro hbegin
    rw [hbegin, kindAt_cons, if_pos (hcovers hotherPos)] at hfirst
    have hkind : token.kind = other.kind := Option.some.inj hfirst
    refine ⟨hkind, ?_⟩
    by_contra hlt
    have hinside : other.covers token.stop := by
      rw [Token.covers_iff]
      unfold Token.stop at hlt ⊢
      omega
    have houtside : ¬ token.covers token.stop := by
      rw [Token.covers_iff]
      omega
    have hstop := hkinds token.stop
    rw [kindAt_cons, if_neg houtside, kindAt_cons, if_pos hinside, ← hkind] at hstop
    exact h.kindAt_stop_ne hstop

/-- Merged tokens that give all bytes the same kinds are the same. -/
theorem IsMerged.eq_of_kindAt_eq {tokens others : List Token} (h : IsMerged tokens)
    (hothers : IsMerged others) (hkinds : ∀ n, kindAt tokens n = kindAt others n) :
    tokens = others := by
  induction tokens generalizing others with
  | nil =>
    cases others with
    | nil => rfl
    | cons other others =>
      have hpos := hothers.toIsScan.of_cons.1
      have hfirst := hkinds other.begin
      rw [kindAt_cons, if_pos (Token.covers_iff.2 ⟨Nat.le_refl _, Nat.lt_add_of_pos_right hpos⟩)]
        at hfirst
      exact absurd hfirst (by simp)
  | cons token tokens ih =>
    cases others with
    | nil =>
      have hpos := h.toIsScan.of_cons.1
      have hfirst := hkinds token.begin
      rw [kindAt_cons, if_pos (Token.covers_iff.2 ⟨Nat.le_refl _, Nat.lt_add_of_pos_right hpos⟩)]
        at hfirst
      exact absurd hfirst (by simp)
    | cons other others =>
      obtain ⟨hle, hend⟩ := first_le h hothers hkinds
      obtain ⟨hge, hend'⟩ := first_le hothers h fun n ↦ (hkinds n).symm
      have hbegin : token.begin = other.begin := Nat.le_antisymm hge hle
      obtain ⟨hkind, hstopLe⟩ := hend hbegin
      have hstop : token.stop = other.stop := Nat.le_antisymm (hend' hbegin.symm).2 hstopLe
      have hlength : token.length = other.length := by
        unfold Token.stop at hstop
        omega
      obtain rfl : token = other := by
        cases token
        cases other
        exact Token.mk.injEq .. ▸ ⟨hbegin, hlength, hkind⟩
      have htail : tokens = others := by
        refine ih h.of_cons hothers.of_cons fun n ↦ ?_
        rw [h.toIsScan.kindAt_tail, hothers.toIsScan.kindAt_tail, hkinds]
      rw [htail]

/-! ## Coalescing -/

/-- Two scans are merged into the same tokens exactly if they give every byte the same kind or none.
What a scan is merged into gives the kinds that the scan gives, no two tokens of one kind touch in
it, and it is the one shortest scan with these kinds. Of any tokens at all, in order or not, merging
again leaves the same ones as merging once, and none of these ends where no token ended. -/
theorem coalesce_canonical {tokens others : List Token} (h : IsScan tokens) (hothers : IsScan others)
    (any : List Token) :
    (coalesce tokens = coalesce others ↔ ∀ n, kindAt tokens n = kindAt others n) ∧
    IsScan (coalesce tokens) ∧
    (∀ n, kindAt (coalesce tokens) n = kindAt tokens n) ∧
    (coalesce tokens).IsChain (fun before after ↦
      ¬ (before.kind = after.kind ∧ before.stop = after.begin)) ∧
    ((∀ n, kindAt others n = kindAt tokens n) → (coalesce tokens).length ≤ others.length ∧
      (others.length = (coalesce tokens).length → others = coalesce tokens)) ∧
    coalesce (coalesce any) = coalesce any ∧
    ∀ token ∈ coalesce any, ∃ cut ∈ any, token.stop = cut.stop := by
  have hsame : coalesce tokens = coalesce others ↔ ∀ n, kindAt tokens n = kindAt others n := by
    constructor
    · intro hequal n
      rw [← h.kindAt_coalesce, hequal, hothers.kindAt_coalesce]
    · intro hkinds
      refine (isMerged_coalesce tokens).eq_of_kindAt_eq (isMerged_coalesce others) fun n ↦ ?_
      rw [h.kindAt_coalesce, hothers.kindAt_coalesce, hkinds]
  have hmerged := isMerged_coalesce tokens
  refine ⟨hsame, hmerged.toIsScan, h.kindAt_coalesce, hmerged.apart, fun hkinds ↦ ?_,
    (isMerged_coalesce any).coalesce_eq, fun _ ↦ exists_stop_of_mem_coalesce⟩
  obtain ⟨hle, hequal⟩ := hothers.length_coalesce_le
  rw [hsame.2 fun n ↦ (hkinds n).symm]
  exact ⟨hle, fun hlength ↦ (hequal hlength.symm).symm⟩

/-- A string that was cut in two and a scan that holds it in one piece are merged alike, and a cut
that leaves a byte out is kept. -/
theorem coalesce_canonical_cut :
    let cut : List Token := [⟨0, 2, .string⟩, ⟨2, 3, .string⟩, ⟨6, 1, .string⟩]
    let whole : List Token := [⟨0, 5, .string⟩, ⟨6, 1, .string⟩]
    (coalesce cut = coalesce whole ↔ ∀ n, kindAt cut n = kindAt whole n) ∧
      coalesce cut = whole ∧
      ((∀ n, kindAt whole n = kindAt cut n) → (coalesce cut).length ≤ whole.length) ∧
      coalesce (coalesce [⟨6, 1, .string⟩, ⟨0, 2, .string⟩, ⟨9, 0, .error⟩]) = [⟨6, 1, .string⟩] := by
  intro cut whole
  have hcut : IsScan cut := ⟨by decide, by decide⟩
  have hwhole : IsScan whole := ⟨by decide, by decide⟩
  obtain ⟨hsame, -, -, -, hshortest, hagain, -⟩ :=
    coalesce_canonical hcut hwhole [⟨6, 1, .string⟩, ⟨0, 2, .string⟩, ⟨9, 0, .error⟩]
  exact ⟨hsame, by decide, fun hkinds ↦ (hshortest hkinds).1, hagain.trans (by decide)⟩

end Highlight
