import Highlight.Proofs.Piece.Gaps
import Highlight.Proofs.Placement
import Highlight.Proofs.Sink.Canonical
import Highlight.Proofs.Tokens

/-!
# What tokens cover

Tokens in place cover a byte at most once. Those that pieces leave cover the bytes of the labelled
pieces and none of a gap, and merging joins tokens that touch, so it covers the same bytes. A byte
that no token covers is therefore a byte of a gap.
-/

namespace Highlight

open Piece (textOf)

namespace Text

/-- Every byte of a text belongs to one of its characters. -/
theorem exists_char_at {s : List Char} {n : Nat} (h : n < byteLength s) :
    ∃ front c rest, s = front ++ c :: rest ∧ byteLength front ≤ n ∧
      n < byteLength front + c.utf8Size := by
  induction s generalizing n with
  | nil => exact absurd h (Nat.not_lt_zero n)
  | cons c s ih =>
    rcases Nat.lt_or_ge n c.utf8Size with hfirst | hlater
    · exact ⟨[], c, s, rfl, Nat.zero_le n, by simpa using hfirst⟩
    · rw [byteLength_cons] at h
      have hbyte : n - c.utf8Size < byteLength s := by omega
      obtain ⟨front, d, rest, rfl, hle, hlt⟩ := ih hbyte
      refine ⟨c :: front, d, rest, rfl, ?_, ?_⟩
      · rw [byteLength_cons]
        omega
      · rw [byteLength_cons]
        omega

/-- A byte belongs to one character only. -/
theorem char_at_unique {front before rest behind : List Char} {c d : Char}
    (h : front ++ c :: rest = before ++ d :: behind) (hle : byteLength before ≤ byteLength front)
    (hlt : byteLength front < byteLength before + d.utf8Size) : c = d := by
  rcases List.append_eq_append_iff.1 h with ⟨between, hbefore, hbehind⟩ | ⟨between, hfront, hrest⟩
  · cases between with
    | nil => exact (List.cons.inj hbehind).1
    | cons e between =>
      have hpos := e.utf8Size_pos
      rw [hbefore, byteLength_append, byteLength_cons] at hle
      omega
  · cases between with
    | nil => exact (List.cons.inj hrest).1.symm
    | cons e between =>
      obtain ⟨rfl, -⟩ := List.cons.inj hrest
      rw [hfront, byteLength_append, byteLength_cons] at hlt
      omega

end Text

namespace Piece

/-- The tokens of pieces lie in the bytes of these. -/
theorem bounds_of_mem_tokens {begin : Nat} {ps : List (Piece Kind)} {token : Token}
    (h : token ∈ tokens begin ps) :
    begin ≤ token.begin ∧ token.stop ≤ begin + Text.byteLength (textOf ps) := by
  induction ps generalizing begin with
  | nil => simp at h
  | cons piece ps ih =>
    rw [textOf_cons, Text.byteLength_append]
    cases piece with
    | gap text =>
      have hbounds := ih (tokens_gap begin text ps ▸ h)
      rw [Piece.text]
      omega
    | token kind text =>
      rw [tokens_token, List.mem_append] at h
      rw [Piece.text]
      rcases h with hfirst | hlater
      · split_ifs at hfirst with hempty
        · simp at hfirst
        · obtain rfl := List.mem_singleton.1 hfirst
          exact ⟨Nat.le_refl _, Nat.add_le_add_left (Nat.le_add_right _ _) _⟩
      · have hbounds := ih hlater
        omega
    | withdrawn reported =>
      rw [Piece.text, Text.byteLength_nil, Nat.zero_add]
      exact ih (tokens_withdrawn begin reported ps ▸ h)

/-- A byte of pieces belongs to one of their tokens or to a gap. -/
theorem covered_or_gap {begin n : Nat} {ps : List (Piece Kind)} (hbegin : begin ≤ n)
    (hstop : n < begin + Text.byteLength (textOf ps)) :
    (∃ token ∈ tokens begin ps, token.covers n) ∨
      ∃ before text after, ps = before ++ gap text :: after ∧
        begin + Text.byteLength (textOf before) ≤ n ∧
        n < begin + Text.byteLength (textOf before) + Text.byteLength text := by
  induction ps generalizing begin with
  | nil => exact absurd hstop (Nat.not_lt_of_le hbegin)
  | cons piece ps ih =>
    rw [textOf_cons, Text.byteLength_append, ← Nat.add_assoc] at hstop
    rcases Nat.lt_or_ge n (begin + Text.byteLength piece.text) with hhere | hlater
    · cases piece with
      | gap text => exact .inr ⟨[], text, ps, rfl, hbegin, hhere⟩
      | token kind text =>
        have hlength : Text.byteLength text ≠ 0 := fun hempty ↦
          Nat.not_lt_of_le hbegin (by simpa [Piece.text, hempty] using hhere)
        refine .inl ⟨⟨begin, Text.byteLength text, kind⟩, ?_, Token.covers_iff.2 ⟨hbegin, hhere⟩⟩
        rw [tokens_token, if_neg hlength]
        exact List.mem_cons_self
      | withdrawn reported => exact absurd hhere (Nat.not_lt_of_le hbegin)
    · rcases ih hlater hstop with ⟨token, hmem, hcovers⟩ | ⟨before, text, after, rfl, hle, hlt⟩
      · have htokens := tokens_append begin [piece] ps
        rw [textOf_cons, textOf_nil, List.append_nil] at htokens
        refine .inl ⟨token, ?_, hcovers⟩
        change token ∈ tokens begin ([piece] ++ ps)
        rw [htokens]
        exact List.mem_append_right _ hmem
      · refine .inr ⟨piece :: before, text, after, rfl, ?_, ?_⟩
        all_goals rwa [textOf_cons, Text.byteLength_append, ← Nat.add_assoc]

/-- No token covers a byte of a gap. -/
theorem not_covers_gap {begin n : Nat} {before after : List (Piece Kind)} {text : List Char}
    {token : Token} (h : token ∈ tokens begin (before ++ gap text :: after))
    (hbegin : begin + Text.byteLength (textOf before) ≤ n)
    (hstop : n < begin + Text.byteLength (textOf before) + Text.byteLength text) :
    ¬ token.covers n := by
  rw [Token.covers_iff]
  rw [tokens_append, tokens_gap, List.mem_append] at h
  rcases h with hbefore | hafter
  · have hbounds := bounds_of_mem_tokens hbefore
    omega
  · have hbounds := bounds_of_mem_tokens hafter
    omega

/-- A byte that no token of pieces covers lies in a gap, and the tokens leave out all of that. -/
theorem covered_or_passed {n : Nat} {ps : List (Piece Kind)}
    (h : n < Text.byteLength (textOf ps)) :
    (tokens 0 ps).any (·.covers n) ∨
      ∃ before text after, ps = before ++ gap text :: after ∧
        Text.byteLength (textOf before) ≤ n ∧
        n < Text.byteLength (textOf before) + Text.byteLength text ∧
        ∀ m, Text.byteLength (textOf before) ≤ m →
          m < Text.byteLength (textOf before) + Text.byteLength text →
            (tokens 0 ps).any (·.covers m) = false := by
  rcases covered_or_gap (Nat.zero_le n) (by rw [Nat.zero_add]; exact h) with
    hcovered | ⟨before, text, after, rfl, hle, hlt⟩
  · exact .inl (List.any_eq_true.2 hcovered)
  · rw [Nat.zero_add] at hle hlt
    refine .inr ⟨before, text, after, rfl, hle, hlt, fun m hm hm' ↦ ?_⟩
    rw [List.any_eq_false]
    intro token hmem
    rw [← Nat.zero_add (Text.byteLength (textOf before))] at hm hm'
    exact not_covers_gap hmem hm hm'

/-- Where gaps hold nothing but characters of one form, a byte that no token covers belongs to such
a character. -/
theorem covered_or_char {form : Char → Prop} {n : Nat} {ps : List (Piece Kind)}
    (hgaps : GapsIn (fun text ↦ ∀ c ∈ text, form c) ps) (h : n < Text.byteLength (textOf ps)) :
    (tokens 0 ps).any (·.covers n) ∨
      (tokens 0 ps).any (·.covers n) = false ∧
      ∃ front c rest, textOf ps = front ++ c :: rest ∧ Text.byteLength front ≤ n ∧
        n < Text.byteLength front + c.utf8Size ∧ form c := by
  rcases covered_or_passed h with hcovered | ⟨before, text, after, rfl, hle, hlt, huncovered⟩
  · exact .inl hcovered
  · have hbyte : n - Text.byteLength (textOf before) < Text.byteLength text := by omega
    obtain ⟨front, c, rest, rfl, hfront, hc⟩ := Text.exists_char_at hbyte
    have hform : form c := hgaps (front ++ c :: rest) (by simp) c (by simp)
    refine .inr ⟨huncovered n hle hlt, textOf before ++ front, c, rest ++ textOf after, ?_, ?_, ?_,
      hform⟩
    · rw [textOf_append, textOf_cons, Piece.text]
      simp
    · rw [Text.byteLength_append]
      omega
    · rw [Text.byteLength_append]
      omega

/-- Where gaps hold nothing but characters of one form, a character that no token covers is of that
form. -/
theorem char_of_uncovered {form : Char → Prop} {begin : Nat} {ps : List (Piece Kind)}
    {front rest : List Char} {c : Char} (hgaps : GapsIn (fun text ↦ ∀ c ∈ text, form c) ps)
    (htext : textOf ps = front ++ c :: rest)
    (h : ∀ token ∈ tokens begin ps, ¬ token.covers (begin + Text.byteLength front)) : form c := by
  have hpos := c.utf8Size_pos
  rcases covered_or_gap (Nat.le_add_right begin (Text.byteLength front)) (by
      rw [htext, Text.byteLength_append, Text.byteLength_cons]
      omega) with ⟨token, hmem, hcovers⟩ | ⟨before, text, after, rfl, hle, hlt⟩
  · exact absurd hcovers (h token hmem)
  · have hbyte : Text.byteLength front - Text.byteLength (textOf before) <
        Text.byteLength text := by omega
    obtain ⟨inside, d, behind, rfl, hinside, hd⟩ := Text.exists_char_at hbyte
    have hsame : front ++ c :: rest =
        (textOf before ++ inside) ++ d :: (behind ++ textOf after) := by
      rw [← htext, textOf_append, textOf_cons, Piece.text]
      simp
    have hchar : c = d := by
      apply Text.char_at_unique hsame
      · rw [Text.byteLength_append]
        omega
      · rw [Text.byteLength_append]
        omega
    rw [hchar]
    exact hgaps (inside ++ d :: behind) (by simp) d (by simp)

/-- The tokens of pieces cover no byte in front of these or behind them. -/
theorem countP_covers_outside {begin n : Nat} {ps : List (Piece Kind)}
    (h : n < begin ∨ begin + Text.byteLength (textOf ps) ≤ n) :
    (tokens begin ps).countP (·.covers n) = 0 := by
  rw [List.countP_eq_zero]
  intro token hmem hcovers
  have hbounds := bounds_of_mem_tokens hmem
  rw [Token.covers_iff] at hcovers
  omega

/-- A character of a piece is covered by the token of the piece, unless that is a gap. -/
theorem countP_covers_single {form : Char → Bool} {begin : Nat} {piece : Piece Kind}
    {front rest : List Char} {c : Char} (htext : piece.text = front ++ c :: rest)
    (hgap : ∀ text, piece = gap text → ∀ d ∈ text, form d)
    (hlabel : ∀ kind text, piece = token kind text → ∀ d ∈ text, form d = false) :
    (tokens begin [piece]).countP (·.covers (begin + Text.byteLength front)) =
      if form c then 0 else 1 := by
  have hpos := c.utf8Size_pos
  have hmem : c ∈ piece.text := by simp [htext]
  cases piece with
  | gap text =>
    rw [if_pos (hgap text rfl c hmem)]
    rfl
  | withdrawn reported => simp [Piece.text] at hmem
  | token kind text =>
    have hlength : Text.byteLength text =
        Text.byteLength front + (c.utf8Size + Text.byteLength rest) := by
      rw [Piece.text] at htext
      rw [htext, Text.byteLength_append, Text.byteLength_cons]
    have hcovers : Token.covers (begin + Text.byteLength front)
        ⟨begin, Text.byteLength text, kind⟩ := by
      have hbefore : Text.byteLength front < Text.byteLength text := by omega
      exact Token.covers_iff.2 ⟨Nat.le_add_right _ _, Nat.add_lt_add_left hbefore begin⟩
    have hempty : Text.byteLength text ≠ 0 := by omega
    rw [hlabel kind text rfl c hmem, tokens_token, if_neg hempty, tokens_nil, List.append_nil,
      List.countP_singleton, if_pos hcovers]
    rfl

/-- Where the characters of one form make up the gaps and none of them is labelled, one token covers
a character that is not of the form, and none covers one that is. -/
theorem countP_covers {form : Char → Bool} {begin : Nat} {ps : List (Piece Kind)}
    {front rest : List Char} {c : Char} (hgaps : GapsIn (fun text ↦ ∀ d ∈ text, form d) ps)
    (hlabels : ∀ kind text, token kind text ∈ ps → ∀ d ∈ text, form d = false)
    (htext : textOf ps = front ++ c :: rest) :
    (tokens begin ps).countP (·.covers (begin + Text.byteLength front)) =
      if form c then 0 else 1 := by
  induction ps generalizing begin front with
  | nil => simp at htext
  | cons piece ps ih =>
    have hpiece : textOf [piece] = piece.text := List.append_nil _
    have hwhole : piece.text <+: front ++ c :: rest := ⟨textOf ps, by rw [← htext, textOf_cons]⟩
    rw [← List.singleton_append, tokens_append, List.countP_append, hpiece]
    rcases Nat.lt_or_ge front.length piece.text.length with hhere | hlater
    · -- The character stands in the piece, and the tokens behind that begin later.
      have hnext : front ++ [c] <+: front ++ c :: rest := ⟨rest, by simp⟩
      have hwithin : (front ++ [c]).length ≤ piece.text.length := by
        rw [List.length_append, List.length_singleton]
        omega
      obtain ⟨between, hbetween⟩ := List.prefix_of_prefix_length_le hnext hwhole hwithin
      rw [List.append_assoc, List.singleton_append] at hbetween
      have hbefore : begin + Text.byteLength front < begin + Text.byteLength piece.text := by
        have hpos := c.utf8Size_pos
        rw [← hbetween, Text.byteLength_append, Text.byteLength_cons]
        omega
      rw [countP_covers_outside (.inl hbefore), Nat.add_zero]
      refine countP_covers_single hbetween.symm ?_ ?_
      · rintro text rfl
        exact hgaps text List.mem_cons_self
      · rintro kind text rfl
        exact hlabels kind text List.mem_cons_self
    · obtain ⟨between, rfl⟩ : piece.text <+: front :=
        List.prefix_of_prefix_length_le hwhole (List.prefix_append _ _) hlater
      rw [textOf_cons, List.append_assoc, List.append_cancel_left_eq] at htext
      have hbehind : begin + Text.byteLength (textOf [piece]) ≤
          begin + Text.byteLength (piece.text ++ between) := by
        rw [hpiece, Text.byteLength_append]
        omega
      rw [countP_covers_outside (.inr hbehind), Nat.zero_add, Text.byteLength_append,
        ← Nat.add_assoc]
      exact ih (fun text hmem ↦ hgaps text (List.mem_cons_of_mem _ hmem))
        (fun kind text hmem ↦ hlabels kind text (List.mem_cons_of_mem _ hmem)) htext

end Piece

/-- Tokens in place cover a byte at most once. -/
theorem WellPlaced.countP_le_one {source : List Char} {tokens : List Token}
    (h : WellPlaced source tokens) (n : Nat) : tokens.countP (·.covers n) ≤ 1 := by
  induction tokens using List.reverseRecOn with
  | nil => exact Nat.zero_le 1
  | append_singleton tokens token ih =>
    obtain ⟨hfront, -, horder⟩ := h.of_concat
    rw [List.countP_append, List.countP_singleton]
    split_ifs with hcovers
    · have hnone : tokens.countP (·.covers n) = 0 := by
        rw [List.countP_eq_zero]
        intro before hbefore hcoversBefore
        have hstop := horder before hbefore
        rw [Token.covers_iff] at hcovers hcoversBefore
        omega
      rw [hnone]
    · exact ih hfront

theorem WellPlaced.isScan {source : List Char} {tokens : List Token}
    (h : WellPlaced source tokens) : IsScan tokens where
  length_pos token htoken := (h.placed token htoken).length_pos
  inOrder := h.ordered.imp fun horder ↦ horder.2

/-- Merging tokens in place covers the same bytes. -/
theorem WellPlaced.any_coalesce {source : List Char} {tokens : List Token}
    (h : WellPlaced source tokens) (n : Nat) :
    (coalesce tokens).any (·.covers n) = tokens.any (·.covers n) := by
  rw [← isSome_kindAt, ← isSome_kindAt, h.isScan.kindAt_coalesce]

/-! ## Scans -/

namespace Language

variable [Text.IdentifierClasses]

theorem wellPlaced_tokens (language : Language) (options : Options) (source : List Char) :
    WellPlaced source (language.tokens options source) := by
  have hend := language.inStep_passed options source .empty _ (Cursor.read_mem_passed _ _)
  have hsource := ((Cursor.Follows.refl (Cursor.ofSource Sink.empty.startScan source options)).read
    (Sink.wellFormed_startScan _) (language.scan options.strict source)).source_eq
  have hplaced := hend.placed
  rw [hsource] at hplaced
  rw [← language.currentScan_scanInto options source .empty]
  exact hplaced

/-- The tokens of a source cover what the labelled pieces do, merged or not. -/
theorem any_tokens (language : Language) (options : Options) (source : List Char) (n : Nat) :
    (language.tokens options source).any (·.covers n) =
      (Piece.tokens 0 (language.scan options.strict source)).any (·.covers n) := by
  have hplaced := language.wellPlaced_tokens { options with coalescing := false } source
  rw [tokens]
  split_ifs with hcoalescing
  · exact hplaced.any_coalesce n
  · rfl

/-- One token covers a byte, or none does. -/
theorem countP_tokens (language : Language) (options : Options) (source : List Char) (n : Nat) :
    (language.tokens options source).countP (·.covers n) =
      if (Piece.tokens 0 (language.scan options.strict source)).any (·.covers n) then 1 else 0 := by
  have hle := (language.wellPlaced_tokens options source).countP_le_one n
  rw [← any_tokens]
  split_ifs with hcovered
  · obtain ⟨token, hmem, hcovers⟩ := List.any_eq_true.1 hcovered
    exact Nat.le_antisymm hle (List.countP_pos_iff.2 ⟨token, hmem, hcovers⟩)
  · rw [List.countP_eq_zero]
    exact fun token hmem hcovers ↦ hcovered (List.any_eq_true.2 ⟨token, hmem, hcovers⟩)

end Language

end Highlight
