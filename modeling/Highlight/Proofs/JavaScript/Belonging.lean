import Highlight.Proofs.JavaScript.Places
import Highlight.Proofs.Piece.View

/-!
# Which script a token belongs to

Scripts stand in each other, and each is read on its own. A token belongs to the innermost script
that it lies in. So every token belongs to one unless it is of the hashbang line, and the tokens
that belong to a script are those that are read of it where the code embedded in it is hidden: what
they show can be told from the items of that script alone.
-/

namespace Highlight

/-- What a token shows of a source. -/
def Token.entry (source : List Char) (token : Token) : Entry := (token.kind, token.text source)

/-- Tokens that stand together in code are those of all that lie there. -/
theorem Among.filter_liesIn {all inside : List Token} {code : Code}
    (h : Among all code.begin code.stop inside) (hlength : ∀ token ∈ all, 0 < token.length)
    (hinside : ∀ token ∈ inside, token.LiesIn code) :
    all.filter (fun token ↦ token.LiesIn code) = inside := by
  obtain ⟨left, right, rfl, hleft, hright⟩ := h
  simp only [List.forall_mem_append] at hlength
  have hnone {tokens : List Token} (hpos : ∀ token ∈ tokens, 0 < token.length)
      (hapart : ∀ token ∈ tokens, token.IsApart code) :
      tokens.filter (fun token ↦ token.LiesIn code) = [] := by
    apply List.filter_eq_nil_iff.2
    intro token htoken
    simpa using (hapart token htoken).not_liesIn (hpos token htoken)
  rw [List.filter_append, List.filter_append,
    hnone hlength.1.1 fun token htoken ↦ .inl (hleft token htoken),
    hnone hlength.2 fun token htoken ↦ .inr (hright token htoken),
    List.filter_eq_self.2 fun token htoken ↦ decide_eq_true (hinside token htoken),
    List.nil_append, List.append_nil]

namespace JavaScript

open Piece (Covers labelled textOf tokens)

variable [Text.IdentifierClasses]

/-- The token lies in the code, and in no code that is embedded there. -/
def BelongsTo (strict : Bool) (code : Code) (token : Token) : Prop :=
  token.LiesIn code ∧
    ∀ inner ∈ codesIn code.begin (outline strict code.text), ¬ token.LiesIn inner

instance (strict : Bool) (code : Code) (token : Token) :
    Decidable (BelongsTo strict code token) :=
  inferInstanceAs (Decidable (_ ∧ _))

variable {strict : Bool} {level begin : Nat} {s source : List Char} {code : Code} {token : Token}

theorem codesAt_one (strict : Bool) (begin : Nat) (s : List Char) :
    codesAt strict 1 begin s = codesIn begin (outline strict s) :=
  List.flatMap_singleton' _

/-- A token of a script that lies in embedded code is one of that code. -/
theorem mem_tokens_of_liesIn {levels : Nat}
    (h : token ∈ tokens begin (scanLevels strict (levels + 1) s))
    (hcode : code ∈ codesIn begin (outline strict s)) (hlies : token.LiesIn code) :
    token ∈ tokens code.begin (scanLevels strict levels code.text) := by
  have hlength := Piece.length_pos_of_mem_tokens h
  rw [scanLevels_succ] at h
  have hstop : token.begin < token.stop := Nat.lt_add_of_pos_right hlength
  exact (among_fill (covers_scanLevels strict levels) hcode).mem_of_covers h
    (Token.covers_iff.2 ⟨Nat.le_refl _, hstop⟩) hlies.1 (Nat.lt_of_lt_of_le hstop hlies.2)

/-- Every token of a script belongs to one of the codes that stand in it, or to the script itself.
-/
theorem exists_belongsTo {levels : Nat} (h : token ∈ tokens begin (scanLevels strict levels s)) :
    ∃ level < levels, ∃ code ∈ codesAt strict level begin s, BelongsTo strict code token := by
  induction levels generalizing begin s with
  | zero => simp [scanLevels, Piece.tokens_eq_nil] at h
  | succ levels ih =>
    by_cases hinner : ∃ inner ∈ codesIn begin (outline strict s), token.LiesIn inner
    · obtain ⟨inner, hmem, hlies⟩ := hinner
      obtain ⟨level, hlevel, code, hcode, hbelongs⟩ := ih (mem_tokens_of_liesIn h hmem hlies)
      exact ⟨level + 1, Nat.succ_lt_succ hlevel, code, List.mem_flatMap.2 ⟨inner, hmem, hcode⟩,
        hbelongs⟩
    · have hbounds := Piece.bounds_of_mem_tokens h
      rw [(covers_scanLevels strict _ s).textOf_eq] at hbounds
      exact ⟨0, Nat.succ_pos levels, ⟨begin, s⟩, List.mem_singleton_self _, hbounds,
        fun inner hmem hlies ↦ hinner ⟨inner, hmem, hlies⟩⟩

/-- A token of a source is one of its hashbang line or belongs to a script. -/
theorem exists_belongsTo_of_scan (h : token ∈ tokens 0 (scan strict source)) :
    token ∈ tokens 0 (Comment.linePieces (source.take (hashbangAt 0 source))) ∨
      ∃ level < levelLimit, ∃ code ∈ codesBelow strict level 0 source,
        BelongsTo strict code token := by
  rw [← scanInside_zero, tokens_scanInside, List.mem_append] at h
  exact h.imp_right exists_belongsTo

/-- The tokens that belong to a script are those that are read where embedded code is hidden. -/
theorem filter_belongsTo (hlevel : level < levelLimit)
    (hcode : code ∈ codesBelow strict level 0 source) :
    (tokens 0 (scan strict source)).filter (fun token ↦ BelongsTo strict code token) =
      tokens code.begin (scanLevels strict 1 code.text) := by
  have hinside : ∀ token ∈ tokens code.begin (scanLevels strict (levelLimit - level) code.text),
      token.LiesIn code := by
    intro token htoken
    have hbounds := Piece.bounds_of_mem_tokens htoken
    rwa [(covers_scanLevels strict _ code.text).textOf_eq] at hbounds
  have hlies := (among_codesBelow (Nat.le_of_lt hlevel) hcode).filter_liesIn
    (fun _ ↦ Piece.length_pos_of_mem_tokens) hinside
  have hmore : 1 + (levelLimit - level - 1) = levelLimit - level := by omega
  have houtside :=
    tokens_scanLevels_eq_outside strict 1 (levelLimit - level - 1) code.begin code.text
  rw [hmore, codesAt_one] at houtside
  rw [houtside, outside, ← hlies, List.filter_filter]
  apply List.filter_congr
  intro token _
  rw [Bool.and_comm, ← Bool.decide_and]
  rfl

/-- Code that is embedded stands in the source at its place. -/
theorem exists_source_of_mem_codesAt (h : code ∈ codesAt strict level begin s) :
    ∃ front behind, s = front ++ (code.text ++ behind) ∧
      code.begin = begin + Text.byteLength front := by
  induction level generalizing begin s with
  | zero =>
    obtain rfl := List.mem_singleton.1 h
    exact ⟨[], [], by simp, rfl⟩
  | succ level ih =>
    obtain ⟨outer, houter, hinner⟩ := List.mem_flatMap.1 h
    obtain ⟨front, behind, houtline, hbegin⟩ := exists_of_mem_codesIn houter
    obtain ⟨before, after, htext, hcode⟩ := ih hinner
    have hs := congrArg outlineText houtline
    rw [outlineText_outline] at hs
    refine ⟨outlineText front ++ before, after ++ outlineText behind, ?_, ?_⟩
    · rw [hs, outlineText, List.flatMap_append, List.flatMap_cons, Stretch.text, htext]
      simp only [outlineText, List.append_assoc]
    · rw [hcode, hbegin, Text.byteLength_append, Nat.add_assoc]

theorem exists_source_of_mem_codesBelow (h : code ∈ codesBelow strict level 0 source) :
    ∃ front behind, source = front ++ (code.text ++ behind) ∧
      code.begin = Text.byteLength front := by
  obtain ⟨front, behind, hrest, hbegin⟩ := exists_source_of_mem_codesAt h
  refine ⟨source.take (hashbangAt 0 source) ++ front, behind, ?_, ?_⟩
  · rw [List.append_assoc, ← hrest, List.take_append_drop]
  · rw [hbegin, Nat.zero_add, Text.byteLength_append]

/-- What tokens show of a source is what the pieces of their script do. -/
theorem map_entry_tokens (hcode : code ∈ codesBelow strict level 0 source)
    {pieces after : List (Piece Kind)} (hcovers : Covers (pieces ++ after) code.text) :
    (tokens code.begin pieces).map (Token.entry source) = labelled pieces := by
  obtain ⟨front, behind, rfl, hbegin⟩ := exists_source_of_mem_codesBelow hcode
  have hentries := Piece.map_text_tokens front (textOf after ++ behind) pieces
  rw [← List.append_assoc (textOf pieces), ← Piece.textOf_append, hcovers.textOf_eq] at hentries
  rw [hbegin]
  exact hentries

end JavaScript

end Highlight
