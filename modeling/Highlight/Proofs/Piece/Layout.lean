import Highlight.Proofs.Piece.Fits

/-!
# Pieces and their tokens

Where the tokens of pieces lie is known from the texts alone. Laying out pieces one behind the other
lays out each part where the one before it ends, starting elsewhere moves all tokens alike, and what
was withdrawn is not seen. Pieces that have the same text and leave the same tokens, wherever they
stand, are alike: a gap is like two gaps that make it up.
-/

namespace Highlight

namespace Token

/-- The token behind `offset` more bytes of source. -/
def shift (offset : Nat) (token : Token) : Token := { token with begin := offset + token.begin }

def covers (n : Nat) (token : Token) : Bool := token.begin ≤ n && n < token.stop

theorem covers_iff {n : Nat} {token : Token} :
    token.covers n ↔ token.begin ≤ n ∧ n < token.stop := by
  simp [covers]

end Token

namespace Piece

/-- The tokens that the pieces leave, of which none is empty. -/
def tokens (begin : Nat) (pieces : List (Piece Kind)) : List Token :=
  (layOut begin pieces).filter fun token ↦ token.length ≠ 0

theorem layOut_append (begin : Nat) (ps qs : List (Piece Kind)) :
    layOut begin (ps ++ qs) =
      layOut begin ps ++ layOut (begin + Text.byteLength (textOf ps)) qs := by
  induction ps generalizing begin with
  | nil => rfl
  | cons piece ps ih =>
    cases piece with
    | gap text => simp [layOut, ih, Piece.text, Nat.add_assoc]
    | token kind text => simp [layOut, ih, Piece.text, Nat.add_assoc]
    | withdrawn reported => simp [layOut, ih, Piece.text]

theorem layOut_add (offset begin : Nat) (ps : List (Piece Kind)) :
    layOut (offset + begin) ps = (layOut begin ps).map (Token.shift offset) := by
  induction ps generalizing begin with
  | nil => rfl
  | cons piece ps ih =>
    cases piece with
    | gap text => rw [layOut, layOut, Nat.add_assoc, ih]
    | token kind text => rw [layOut, layOut, Nat.add_assoc, ih, List.map_cons, Token.shift]
    | withdrawn reported => rw [layOut, layOut, ih]

theorem length_pos_of_mem_tokens {begin : Nat} {pieces : List (Piece Kind)} {token : Token}
    (h : token ∈ tokens begin pieces) : 0 < token.length := by
  have hlength := (List.mem_filter.1 h).2
  exact Nat.pos_of_ne_zero (by simpa using hlength)

theorem tokens_append (begin : Nat) (ps qs : List (Piece Kind)) :
    tokens begin (ps ++ qs) =
      tokens begin ps ++ tokens (begin + Text.byteLength (textOf ps)) qs := by
  rw [tokens, layOut_append, List.filter_append]
  rfl

theorem tokens_add (offset begin : Nat) (ps : List (Piece Kind)) :
    tokens (offset + begin) ps = (tokens begin ps).map (Token.shift offset) := by
  rw [tokens, layOut_add, List.filter_map]
  rfl

@[simp]
theorem tokens_nil (begin : Nat) : tokens begin [] = [] := rfl

@[simp]
theorem tokens_gap (begin : Nat) (text : List Char) (ps : List (Piece Kind)) :
    tokens begin (gap text :: ps) = tokens (begin + Text.byteLength text) ps := rfl

@[simp]
theorem tokens_withdrawn (begin : Nat) (reported ps : List (Piece Kind)) :
    tokens begin (withdrawn reported :: ps) = tokens begin ps := rfl

theorem tokens_token (begin : Nat) (kind : Kind) (text : List Char) (ps : List (Piece Kind)) :
    tokens begin (token kind text :: ps) =
      (if Text.byteLength text = 0 then [] else [⟨begin, Text.byteLength text, kind⟩]) ++
        tokens (begin + Text.byteLength text) ps := by
  rw [tokens, layOut, List.filter_cons]
  split_ifs with hfilter hempty hempty
  · exact absurd hempty (by simpa using hfilter)
  · rfl
  · rfl
  · exact absurd (by simpa using hempty) hfilter

/-- The pieces have the same text and leave the same tokens, wherever they are laid out. -/
structure Alike (ps qs : List (Piece Kind)) : Prop where
  textOf_eq : textOf ps = textOf qs
  tokens_eq : ∀ begin, tokens begin ps = tokens begin qs

theorem Alike.refl (ps : List (Piece Kind)) : Alike ps ps := ⟨rfl, fun _ ↦ rfl⟩

theorem Alike.symm {ps qs : List (Piece Kind)} (h : Alike ps qs) : Alike qs ps :=
  ⟨h.textOf_eq.symm, fun begin ↦ (h.tokens_eq begin).symm⟩

theorem Alike.trans {ps qs us : List (Piece Kind)} (h : Alike ps qs) (h' : Alike qs us) :
    Alike ps us :=
  ⟨h.textOf_eq.trans h'.textOf_eq, fun begin ↦ (h.tokens_eq begin).trans (h'.tokens_eq begin)⟩

theorem Alike.append {ps qs us vs : List (Piece Kind)} (h : Alike ps qs) (h' : Alike us vs) :
    Alike (ps ++ us) (qs ++ vs) where
  textOf_eq := by rw [textOf_append, textOf_append, h.textOf_eq, h'.textOf_eq]
  tokens_eq begin := by
    rw [tokens_append, tokens_append, h.textOf_eq, h.tokens_eq, h'.tokens_eq]

theorem alike_gap_append (text behind : List Char) :
    Alike [gap (text ++ behind)] [gap text, gap behind] where
  textOf_eq := by simp [Piece.text]
  tokens_eq _ := rfl

end Piece

end Highlight
