import Highlight.Proofs.Cursor.Reading
import Highlight.Proofs.JavaScript.Embedding
import Highlight.Proofs.JavaScript.Walk
import Highlight.Text.Unicode

/-!
# The parts of a tag at their places

A walk over a tag reports each part with its place, and a second walk over the text that the first
one measured is what is emitted. Both report the same, since a tag is decided by its own text. The
parts lie one behind the other and end with the tag; what lies between them is white space, or the
equals sign between the name of an attribute and its value. So the cursor that emits the tag part by
part never has to go back, and it comes to stand where the tag ends.
-/

namespace Highlight

open Piece (textOf lasting)

namespace Cursor

/-- What the cursor has still to read is `rest`, and it stands between two characters. -/
def Reads (rest : List Char) (cursor : Cursor) : Prop :=
  ∃ front behind, cursor.source = front ++ (rest ++ behind) ∧
    cursor.index = Text.byteLength front ∧ cursor.stop = Text.byteLength (front ++ rest)

theorem Reads.remainder_eq {rest : List Char} {cursor : Cursor} (h : cursor.Reads rest) :
    cursor.remainder = rest := by
  obtain ⟨front, behind, hsource, hindex, hstop⟩ := h
  rw [remainder, hsource, hindex, hstop, Text.slice_append]

theorem advance_advance (cursor : Cursor) (n m : Nat) :
    (cursor.advance n).advance m = cursor.advance (n + m) := by
  rw [advance, advance, advance, Nat.add_assoc]

/-- Passes over what lies before byte `place`, unless the cursor stands behind it. -/
def advanceTo? (place : Nat) (cursor : Cursor) : Option Cursor :=
  if cursor.index ≤ place then some (cursor.advance (place - cursor.index)) else none

theorem advanceTo?_add (cursor : Cursor) (n : Nat) :
    cursor.advanceTo? (cursor.index + n) = some (cursor.advance n) := by
  rw [advanceTo?, if_pos (Nat.le_add_right _ _), Nat.add_sub_cancel_left]

theorem Reads.advance {text rest : List Char} {cursor : Cursor} (h : cursor.Reads (text ++ rest)) :
    (cursor.advance (Text.byteLength text)).Reads rest := by
  obtain ⟨front, behind, hsource, hindex, hstop⟩ := h
  refine ⟨front ++ text, behind, ?_, ?_, ?_⟩
  · rw [Cursor.advance, hsource]
    simp only [List.append_assoc]
  · rw [Cursor.advance, hindex, Text.byteLength_append]
  · rw [Cursor.advance, hstop, List.append_assoc]

/-- Pieces move a cursor over their text. -/
theorem Reads.read {rest : List Char} {cursor : Cursor} {pieces : List (Piece Kind)}
    (h : cursor.Reads (textOf pieces ++ rest)) : (cursor.read pieces).Reads rest := by
  obtain ⟨front, behind, hsource, hindex, hstop⟩ := h
  obtain ⟨hsame, hend⟩ := range_read cursor pieces
  refine ⟨front ++ textOf pieces, behind, ?_, ?_, ?_⟩
  · rw [hsame, hsource]
    simp only [List.append_assoc]
  · rw [index_read, hindex, Text.byteLength_append]
  · rw [hend, hstop, List.append_assoc]

end Cursor

namespace JavaScript

variable {kind : TagKind} {ps : List (Piece TagPart)}

/-- A part of a tag at its place. Places are bytes behind the beginning of the tag. -/
structure PlacedPart where
  label : TagPart
  offset : Nat
  length : Nat
  deriving DecidableEq, Repr

def PlacedPart.stop (part : PlacedPart) : Nat := part.offset + part.length

/-- The parts among pieces that begin at byte `offset`. -/
def placed (offset : Nat) : List (Piece TagPart) → List PlacedPart
  | [] => []
  | .gap text :: ps => placed (offset + Text.byteLength text) ps
  | .token label text :: ps =>
    ⟨label, offset, Text.byteLength text⟩ :: placed (offset + Text.byteLength text) ps
  | .withdrawn _ :: ps => placed offset ps

/-- Walks over a tag: its parts, where it ends, and its kind. -/
def walk? [Text.IdentifierClasses] (s : List Char) : Option (List PlacedPart × Nat × TagKind) :=
  (tag? s).map fun (kind, parts) ↦ (placed 0 parts, Text.byteLength (textOf parts), kind)

theorem placed_lasting (offset : Nat) (ps : List (Piece TagPart)) :
    placed offset (lasting ps) = placed offset ps := by
  induction ps generalizing offset with
  | nil => rfl
  | cons piece ps ih =>
    cases piece with
    | gap text => rw [Piece.lasting_gap, placed, placed, ih]
    | token label text => rw [Piece.lasting_token, placed, placed, ih]
    | withdrawn reported => rw [Piece.lasting_withdrawn, placed, ih]

theorem placed_append (offset : Nat) (ps qs : List (Piece TagPart)) :
    placed offset (ps ++ qs) =
      placed offset ps ++ placed (offset + Text.byteLength (textOf ps)) qs := by
  induction ps generalizing offset with
  | nil => rfl
  | cons piece ps ih =>
    cases piece with
    | gap text => simp [placed, ih, Piece.text, Nat.add_assoc]
    | token label text => simp [placed, ih, Piece.text, Nat.add_assoc]
    | withdrawn reported => simp [placed, ih, Piece.text]

/-- Parts lie where the pieces lie. -/
theorem placed_bounds {offset : Nat} {part : PlacedPart} (h : part ∈ placed offset ps) :
    offset ≤ part.offset ∧ part.stop ≤ offset + Text.byteLength (textOf ps) := by
  induction ps generalizing offset with
  | nil => exact absurd h List.not_mem_nil
  | cons piece ps ih =>
    rw [Piece.textOf_cons, Text.byteLength_append]
    cases piece with
    | gap text =>
      have hrest := ih h
      simp only [Piece.text]
      omega
    | token label text =>
      rcases List.mem_cons.1 h with rfl | h
      · simp only [PlacedPart.stop, Piece.text]
        omega
      · have hrest := ih h
        simp only [Piece.text]
        omega
    | withdrawn reported =>
      have hrest := ih h
      simp only [Piece.text, Text.byteLength_nil]
      omega

/-- Each part ends before the next one begins. -/
theorem pairwise_placed (offset : Nat) (ps : List (Piece TagPart)) :
    (placed offset ps).Pairwise fun part other ↦ part.stop ≤ other.offset := by
  induction ps generalizing offset with
  | nil => exact .nil
  | cons piece ps ih =>
    cases piece with
    | gap text => exact ih _
    | token label text => exact .cons (fun other hother ↦ (placed_bounds hother).1) (ih _)
    | withdrawn reported => exact ih _

/-- A part is what stands at its place. -/
theorem exists_token_of_placed {offset : Nat} {part : PlacedPart} (h : part ∈ placed offset ps) :
    ∃ front text back, ps = front ++ .token part.label text :: back ∧
      part.offset = offset + Text.byteLength (textOf front) ∧
      part.length = Text.byteLength text := by
  induction ps generalizing offset with
  | nil => exact absurd h List.not_mem_nil
  | cons piece ps ih =>
    have hbehind (h : part ∈ placed (offset + Text.byteLength piece.text) ps) :
        ∃ front text back, piece :: ps = front ++ .token part.label text :: back ∧
          part.offset = offset + Text.byteLength (textOf front) ∧
          part.length = Text.byteLength text := by
      obtain ⟨front, text, back, rfl, hoffset, hlength⟩ := ih h
      refine ⟨piece :: front, text, back, rfl, ?_, hlength⟩
      rw [hoffset, Piece.textOf_cons, Text.byteLength_append, Nat.add_assoc]
    cases piece with
    | gap text => exact hbehind h
    | token label text =>
      rcases List.mem_cons.1 h with rfl | h
      · exact ⟨[], text, ps, rfl, rfl, rfl⟩
      · exact hbehind h
    | withdrawn reported => exact hbehind h

open Grammar (BlockComment Items LineComment)

/-- What a piece of a tag holds: text, and what its label says. -/
def Holds : Piece TagPart → Prop
  | .token .code s => Grammar.Code s
  | .token .comment s => LineComment s ∨ BlockComment s
  | piece => piece.text ≠ []

theorem Grammar.Code.ne_nil {s : List Char} (h : Grammar.Code s) : s ≠ [] := by
  obtain ⟨v, rfl⟩ := h.exists_cons
  exact List.cons_ne_nil _ _

theorem Holds.text_ne_nil {piece : Piece TagPart} (h : Holds piece) : piece.text ≠ [] := by
  cases piece with
  | gap text => exact h
  | withdrawn reported => exact h
  | token label text =>
    cases label with
    | code => exact Grammar.Code.ne_nil h
    | comment => exact h.elim Grammar.LineComment.ne_nil Grammar.BlockComment.ne_nil
    | _ => exact h

theorem Trivia.holds (h : Trivia ps) : ∀ piece ∈ ps, Holds piece := by
  induction h with
  | nil => exact List.forall_mem_nil _
  | space hg _ _ ih => exact List.forall_mem_cons.2 ⟨hg, ih⟩
  | lineComment hcomment _ _ ih => exact List.forall_mem_cons.2 ⟨.inl hcomment, ih⟩
  | blockComment hcomment _ ih => exact List.forall_mem_cons.2 ⟨.inr hcomment, ih⟩

theorem Goes.holds [Text.IdentifierClasses]
    {r : List Char} {place next : Place} {piece : Piece TagPart}
    (h : Goes r place piece next) : Holds piece := by
  cases h with
  | name hn | closingName hn | attributeName _ hn => exact hn
  | slash | equals | string => exact List.cons_ne_nil _ _
  | spread _ hs | code hs => exact hs

theorem Ends.holds {place : Place} {piece : Piece TagPart} (h : Ends place piece kind) :
    Holds piece := by
  cases h <;> exact List.cons_ne_nil _ _

section

variable [Text.IdentifierClasses]

theorem Rest.holds {place : Place} (h : Rest place ps kind) : ∀ piece ∈ ps, Holds piece := by
  induction h with
  | ends ha hends =>
    exact List.forall_mem_append.2 ⟨ha.holds, List.forall_mem_singleton.2 hends.holds⟩
  | goes ha hgoes _ ih =>
    exact List.forall_mem_append.2 ⟨ha.holds, List.forall_mem_cons.2 ⟨hgoes.holds, ih⟩⟩

theorem IsTag.holds (h : IsTag ps kind) : ∀ piece ∈ ps, Holds piece := by
  cases h with
  | opened _ hrest => exact List.forall_mem_cons.2 ⟨List.cons_ne_nil _ _, hrest.holds⟩
  | closing hrest => exact List.forall_mem_cons.2 ⟨List.cons_ne_nil _ _, hrest.holds⟩

theorem Rest.exists_last {place : Place} (h : Rest place ps kind) :
    ∃ front lit, ps = front ++ [punctuation lit] := by
  induction h with
  | @ends _ a _ _ _ hends => cases hends <;> exact ⟨a, _, rfl⟩
  | @goes _ _ a _ piece _ _ _ _ ih =>
    obtain ⟨front, lit, rfl⟩ := ih
    exact ⟨a ++ piece :: front, lit, by rw [List.append_assoc, List.cons_append]⟩

/-- A tag ends with punctuation. -/
theorem IsTag.exists_last (h : IsTag ps kind) : ∃ front lit, ps = front ++ [punctuation lit] := by
  cases h with
  | opened _ hrest =>
    obtain ⟨front, lit, rfl⟩ := hrest.exists_last
    exact ⟨_ :: front, lit, rfl⟩
  | closing hrest =>
    obtain ⟨front, lit, rfl⟩ := hrest.exists_last
    exact ⟨_ :: front, lit, rfl⟩

end

/-- The label of a piece that is shown, unless it is a comment. -/
def solidLabel? : Piece TagPart → Option TagPart
  | .token label _ => if label = .comment then none else some label
  | _ => none

/-- The labels of the pieces that are shown, comments left out. -/
def solids (ps : List (Piece TagPart)) : List TagPart := ps.filterMap solidLabel?

theorem solids_append (ps qs : List (Piece TagPart)) : solids (ps ++ qs) = solids ps ++ solids qs :=
  List.filterMap_append

/-- An equals sign with the name of an attribute before it and a value behind it, comments aside. -/
def SetsOff (front back : List TagPart) : Prop :=
  front.getLast? = some .attributeName ∧ (back.head? = some .string ∨ back.head? = some .code)

theorem Trivia.solids_eq_nil (h : Trivia ps) : solids ps = [] := by
  induction h with
  | nil => rfl
  | space _ _ _ ih | lineComment _ _ _ ih | blockComment _ _ ih => exact ih

theorem Trivia.isSpace_of_gap (h : Trivia ps) {g : List Char} (hg : .gap g ∈ ps) :
    ∀ c ∈ g, isSpace c := by
  induction h with
  | nil => exact absurd hg List.not_mem_nil
  | space _ hall _ ih =>
    rcases List.mem_cons.1 hg with heq | hg
    · obtain rfl := Piece.gap.inj heq
      exact hall
    · exact ih hg
  | lineComment _ _ _ ih | blockComment _ _ ih =>
    rcases List.mem_cons.1 hg with heq | hg
    · simp at heq
    · exact ih hg

/-- A part that is no comment is the last one behind trivia. -/
theorem solids_append_token {a : List (Piece TagPart)} (ha : Trivia a) (before : List TagPart)
    {label : TagPart} (hlabel : label ≠ .comment) (text : List Char) :
    before ++ solids (a ++ [.token label text]) = before ++ [label] := by
  have hlast : solids [.token label text] = [label] := by simp [solids, solidLabel?, hlabel]
  rw [solids_append, ha.solids_eq_nil, hlast, List.nil_append]

/-- Behind the equals sign there is a value. -/
theorem Rest.head?_solids [Text.IdentifierClasses] (h : Rest .valued ps kind) :
    (solids ps).head? = some .string ∨ (solids ps).head? = some .code := by
  cases h with
  | ends _ hends => cases hends <;> simp_all [Place.takesAttributes]
  | goes ha hgoes _ =>
    rw [solids_append, ha.solids_eq_nil]
    cases hgoes with
    | attributeName hplace | spread hplace => simp [Place.takesAttributes] at hplace
    | string => exact .inl rfl
    | code => exact .inr rfl

/-- What stands in a joined list stands in front of the joint, behind it or at it. -/
theorem append_cons_cases {α : Type} {front back a b : List α} {x y : α}
    (h : front ++ x :: back = a ++ y :: b) :
    (x ∈ a) ∨ (front = a ∧ x = y ∧ back = b) ∨ ∃ u, front = a ++ y :: u ∧ b = u ++ x :: back := by
  rcases List.append_eq_append_iff.1 h with ⟨u, rfl, hu⟩ | ⟨u, rfl, hu⟩
  · rcases List.cons_eq_append_iff.1 hu with ⟨rfl, heq⟩ | ⟨u, rfl, -⟩
    · obtain ⟨rfl, rfl⟩ := List.cons.inj heq
      exact .inr (.inl ⟨(List.append_nil _).symm, rfl, rfl⟩)
    · exact .inl (by simp)
  · rcases List.cons_eq_append_iff.1 hu with ⟨rfl, heq⟩ | ⟨u, rfl, rfl⟩
    · obtain ⟨rfl, rfl⟩ := List.cons.inj heq
      exact .inr (.inl ⟨List.append_nil _, rfl, rfl⟩)
    · exact .inr (.inr ⟨u, rfl, rfl⟩)

/-- What is not shown of a tag is white space, or the equals sign of an attribute. Of what stands
before the rest of the tag, which is shown as `before`, it matters only whether it ends with the
name of an attribute. -/
theorem Rest.gap_eq [Text.IdentifierClasses]
    {place : Place} (h : Rest place ps kind) {before : List TagPart}
    (hbefore : place = .named → before.getLast? = some .attributeName)
    {front back : List (Piece TagPart)} {g : List Char} (hps : front ++ .gap g :: back = ps) :
    (∀ c ∈ g, isSpace c) ∨ g = "=".toList ∧ SetsOff (before ++ solids front) (solids back) := by
  induction h generalizing before front with
  | @ends place a piece _ ha hends =>
    rcases append_cons_cases hps with hg | ⟨-, rfl, -⟩ | ⟨u, -, hu⟩
    · exact .inl (ha.isSpace_of_gap hg)
    · cases hends
    · simp at hu
  | @goes place next a ps piece _ ha hgoes hrest ih =>
    rcases append_cons_cases hps with hg | ⟨rfl, rfl, rfl⟩ | ⟨u, rfl, rfl⟩
    · exact .inl (ha.isSpace_of_gap hg)
    · cases hgoes with
      | equals =>
        refine .inr ⟨rfl, ?_, hrest.head?_solids⟩
        rw [ha.solids_eq_nil, List.append_nil]
        exact hbefore rfl
    · have hnamed : next = .named →
          (before ++ solids (a ++ [piece])).getLast? = some .attributeName := by
        rintro rfl
        cases hgoes with
        | attributeName => rw [solids_append_token ha _ (by decide), List.getLast?_concat]
      have hbehind := ih hnamed rfl
      have hfront : before ++ solids (a ++ [piece]) ++ solids u =
          before ++ solids (a ++ piece :: u) := by
        rw [List.append_assoc, ← solids_append, List.append_assoc]
        rfl
      rwa [hfront] at hbehind

/-- What is not shown of a whole tag. -/
theorem IsTag.gap_eq [Text.IdentifierClasses]
    (h : IsTag ps kind) {front back : List (Piece TagPart)} {g : List Char}
    (hps : front ++ .gap g :: back = ps) :
    (∀ c ∈ g, isSpace c) ∨ g = "=".toList ∧ SetsOff (solids front) (solids back) := by
  cases h with
  | opened _ hrest | closing hrest =>
    rcases List.append_eq_cons_iff.1 hps with ⟨-, heq⟩ | ⟨front, rfl, rfl⟩
    · simp [punctuation] at heq
    · have hbefore {place : Place} (hplace : place ≠ .named) :
          place = .named → [TagPart.punctuation].getLast? = some .attributeName :=
        fun hnamed ↦ absurd hnamed hplace
      exact hrest.gap_eq (hbefore (by decide)) rfl

/-- The labels of the parts, comments left out. -/
def solidLabels (parts : List PlacedPart) : List TagPart :=
  parts.filterMap fun part ↦ if part.label = .comment then none else some part.label

theorem solidLabels_placed (offset : Nat) (ps : List (Piece TagPart)) :
    solidLabels (placed offset ps) = solids ps := by
  induction ps generalizing offset with
  | nil => rfl
  | cons piece ps ih =>
    cases piece with
    | gap text => exact ih _
    | token label text =>
      cases label with
      | comment => exact ih _
      | _ => exact congrArg (List.cons _) (ih _)
    | withdrawn reported => exact ih _

/-- How the parts of a tag lie in its text. -/
structure LieIn (text : List Char) (parts : List PlacedPart) : Prop where
  pos : ∀ part ∈ parts, 0 < part.length
  ordered : parts.Pairwise fun part other ↦ part.stop ≤ other.offset
  stop_le : ∀ part ∈ parts, part.stop ≤ Text.byteLength text
  /-- The last part ends the tag. -/
  last : ∃ part, parts.getLast? = some part ∧ part.stop = Text.byteLength text
  code : ∀ part ∈ parts, part.label = .code → 2 ≤ part.length ∧
    ∃ items, Items items ∧ Text.slice text part.offset part.stop = '\x7b' :: (items ++ ['\x7d'])
  comment : ∀ part ∈ parts, part.label = .comment →
    LineComment (Text.slice text part.offset part.stop) ∨
      BlockComment (Text.slice text part.offset part.stop)
  /-- A character that is in no part is white space, or the equals sign between the name of an
  attribute and its value. -/
  between : ∀ front c behind, text = front ++ c :: behind →
    (∃ part ∈ parts, part.offset ≤ Text.byteLength front ∧ Text.byteLength front < part.stop) ∨
      isSpace c ∨
      c = '=' ∧ ∃ before after, parts = before ++ after ∧
        (∀ part ∈ before, part.stop ≤ Text.byteLength front) ∧
        (∀ part ∈ after, Text.byteLength front < part.offset) ∧
        SetsOff (solidLabels before) (solidLabels after)

/-- A character of the text of pieces is one of a piece. -/
theorem exists_piece_of_char {u v : List Char} {c : Char} (h : textOf ps = u ++ c :: v) :
    ∃ front piece back i j, ps = front ++ piece :: back ∧ u = textOf front ++ i ∧
      piece.text = i ++ c :: j := by
  induction ps generalizing u with
  | nil => simp at h
  | cons piece ps ih =>
    rw [Piece.textOf_cons] at h
    rcases List.append_eq_append_iff.1 h with ⟨i, rfl, hi⟩ | ⟨i, htext, hi⟩
    · obtain ⟨front, inner, back, j, k, rfl, rfl, hinner⟩ := ih hi
      refine ⟨piece :: front, inner, back, j, k, rfl, ?_, hinner⟩
      rw [Piece.textOf_cons, List.append_assoc]
    · cases i with
      | nil =>
        obtain ⟨front, inner, back, j, k, rfl, hj, hinner⟩ := ih (u := []) hi.symm
        refine ⟨piece :: front, inner, back, j, k, rfl, ?_, hinner⟩
        rw [Piece.textOf_cons, List.append_assoc, ← hj, List.append_nil, htext, List.append_nil]
      | cons d i =>
        obtain ⟨rfl, -⟩ := List.cons.inj hi
        exact ⟨[], piece, ps, u, i, rfl, rfl, htext⟩

theorem slice_placed {part : PlacedPart} (h : part ∈ placed 0 ps) :
    ∃ text, .token part.label text ∈ ps ∧ Text.slice (textOf ps) part.offset part.stop = text ∧
      part.length = Text.byteLength text := by
  obtain ⟨front, text, back, rfl, hoffset, hlength⟩ := exists_token_of_placed h
  refine ⟨text, by simp, ?_, hlength⟩
  rw [PlacedPart.stop, hoffset, hlength, Nat.zero_add, ← Text.byteLength_append,
    Piece.textOf_append]
  exact Text.slice_append _ _ _

/-- A character of a piece that is shown is in the part of that piece. -/
theorem exists_placed_of_char (front back : List (Piece TagPart)) (label : TagPart)
    (i : List Char) (c : Char) (j : List Char) :
    ∃ part ∈ placed 0 (front ++ .token label (i ++ c :: j) :: back),
      part.offset ≤ Text.byteLength (textOf front ++ i) ∧
        Text.byteLength (textOf front ++ i) < part.stop := by
  rw [placed_append, Nat.zero_add]
  refine ⟨⟨label, Text.byteLength (textOf front), Text.byteLength (i ++ c :: j)⟩,
    List.mem_append_right _ List.mem_cons_self, ?_, ?_⟩
  · change Text.byteLength (textOf front) ≤ Text.byteLength (textOf front ++ i)
    rw [Text.byteLength_append]
    exact Nat.le_add_right _ _
  · have hc := c.utf8Size_pos
    simp only [PlacedPart.stop, Text.byteLength_append, Text.byteLength_cons]
    omega

/-- An equals sign that is not shown lies between the parts before it and those behind it. -/
theorem exists_placed_around (front back : List (Piece TagPart)) :
    ∃ before after, placed 0 (front ++ .gap "=".toList :: back) = before ++ after ∧
      (∀ part ∈ before, part.stop ≤ Text.byteLength (textOf front)) ∧
      (∀ part ∈ after, Text.byteLength (textOf front) < part.offset) ∧
      solidLabels before = solids front ∧ solidLabels after = solids back := by
  rw [placed_append, Nat.zero_add]
  refine ⟨_, _, rfl, fun part hpart ↦ ?_, fun part hpart ↦ ?_, solidLabels_placed _ _,
    solidLabels_placed _ back⟩
  · have hbounds := placed_bounds hpart
    omega
  · change part ∈ placed (Text.byteLength (textOf front) + 1) back at hpart
    exact (placed_bounds hpart).1

section

variable [Text.IdentifierClasses]

/-- The parts of a tag lie in its text as they stand, since what is between them is gaps. -/
theorem IsTag.lieIn (h : IsTag ps kind) : LieIn (textOf ps) (placed 0 ps) where
  pos := by
    intro part hpart
    obtain ⟨text, hmem, -, hlength⟩ := slice_placed hpart
    rw [hlength, Nat.pos_iff_ne_zero, Ne, Text.byteLength_eq_zero]
    exact (h.holds _ hmem).text_ne_nil
  ordered := pairwise_placed 0 ps
  stop_le part hpart := (placed_bounds hpart).2.trans_eq (Nat.zero_add _)
  last := by
    obtain ⟨front, lit, rfl⟩ := h.exists_last
    refine ⟨⟨.punctuation, Text.byteLength (textOf front), Text.byteLength lit.toList⟩, ?_, ?_⟩
    · rw [placed_append, Nat.zero_add]
      exact List.getLast?_concat
    · rw [PlacedPart.stop, Piece.textOf_append, Text.byteLength_append, textOf_single]
      rfl
  code := by
    intro part hpart hlabel
    obtain ⟨text, hmem, htext, hlength⟩ := slice_placed hpart
    rw [hlabel] at hmem
    obtain ⟨hitems⟩ : Grammar.Code text := h.holds _ hmem
    refine ⟨?_, _, hitems, htext⟩
    rw [hlength, Text.byteLength_cons, Text.byteLength_append, show '\x7b'.utf8Size = 1 from rfl,
      show Text.byteLength ['\x7d'] = 1 from rfl]
    omega
  comment := by
    intro part hpart hlabel
    obtain ⟨text, hmem, htext, -⟩ := slice_placed hpart
    rw [hlabel] at hmem
    rw [htext]
    exact h.holds _ hmem
  between := by
    intro u c v hsplit
    obtain ⟨front, piece, back, i, j, rfl, rfl, htext⟩ := exists_piece_of_char hsplit
    cases piece with
    | withdrawn reported => simp [Piece.text] at htext
    | token label text =>
      obtain rfl : text = i ++ c :: j := htext
      exact .inl (exists_placed_of_char front back label i c j)
    | gap g =>
      obtain rfl : g = i ++ c :: j := htext
      rcases h.gap_eq rfl with hall | ⟨hequals, hsets⟩
      · exact .inr (.inl (hall c (List.mem_append_right i List.mem_cons_self)))
      · obtain ⟨rfl, hsingle⟩ | ⟨i, rfl, hnil⟩ := List.cons_eq_append_iff.1 hequals.symm
        · obtain ⟨rfl, rfl⟩ := List.cons.inj hsingle
          obtain ⟨before, after, hplaced, hbefore, hafter, hfront, hback⟩ :=
            exists_placed_around front back
          rw [← hfront, ← hback] at hsets
          rw [List.append_nil]
          exact .inr (.inr ⟨rfl, before, after, hplaced, hbefore, hafter, hsets⟩)
        · simp at hnil

/-! ## Second walks -/

theorem walk?_of_tag? {s : List Char} {pieces : List (Piece TagPart)}
    (h : tag? s = some (kind, pieces)) :
    walk? s = some (placed 0 pieces, Text.byteLength (textOf pieces), kind) := by
  rw [walk?, h]
  rfl

/-- A second walk over the text of a tag reports what the first one did, whatever follows. -/
theorem walk?_textOf_append {s : List Char} {pieces : List (Piece TagPart)}
    (h : tag? s = some (kind, pieces)) (t : List Char) :
    walk? (textOf pieces ++ t) =
      some (placed 0 pieces, Text.byteLength (textOf pieces), kind) := by
  obtain ⟨again, hagain, hlasting⟩ := tag?_cut_append h t
  rw [walk?_of_tag? hagain, ← Piece.textOf_lasting again, ← placed_lasting 0 again, hlasting,
    Piece.textOf_lasting, placed_lasting]

theorem slice_textOf_tag {s : List Char} {pieces : List (Piece TagPart)}
    (h : tag? s = some (kind, pieces)) :
    Text.slice s 0 (Text.byteLength (textOf pieces)) = textOf pieces := by
  have hslice := Text.slice_append [] (textOf pieces) (s.drop (Piece.width pieces))
  rwa [List.nil_append, (fits_tag? h).textOf_append_drop] at hslice

end

/-! ## Tags emitted part by part -/

section

variable (embed : List Char → List (Piece Kind))

/-- Emits a part of the tag that begins at byte `begin` of the source. -/
def emitPart? (begin : Nat) (cursor : Cursor) (part : PlacedPart) : Option Cursor :=
  (cursor.advanceTo? (begin + part.offset)).map fun cursor ↦
    cursor.read (showPart embed (.token part.label (Text.slice cursor.remainder 0 part.length)))

/-- Emits the tag of `n` bytes at the cursor, part by part as a walk over these bytes reports them,
unless the cursor would have to go back. -/
def emitTag? [Text.IdentifierClasses] (n : Nat) (cursor : Cursor) : Option Cursor := do
  let (parts, _) ← walk? (Text.slice cursor.remainder 0 n)
  let last ← parts.foldlM (emitPart? embed cursor.index) cursor
  last.advanceTo? (cursor.index + n)

end

variable {embed : List Char → List (Piece Kind)}

/-- A part is emitted as its piece is, once the cursor has passed over what is not shown. -/
theorem emitPart?_eq {begin : Nat} {part : PlacedPart} {gap text rest : List Char} {cursor : Cursor}
    (hreads : cursor.Reads (gap ++ (text ++ rest)))
    (hoffset : cursor.index + Text.byteLength gap = begin + part.offset)
    (hlength : part.length = Text.byteLength text) :
    emitPart? embed begin cursor part =
      some ((cursor.advance (Text.byteLength gap)).read
        (showPart embed (.token part.label text))) := by
  have hslice : Text.slice (text ++ rest) 0 (Text.byteLength text) = text :=
    Text.slice_append [] text rest
  rw [emitPart?, ← hoffset, Cursor.advanceTo?_add, Option.map_some, hreads.advance.remainder_eq,
    hlength, hslice]

variable (hembed : ∀ s, Piece.Covers (embed s) s)

include hembed

theorem reads_showPart {piece : Piece TagPart} {rest : List Char} {cursor : Cursor}
    (h : cursor.Reads (piece.text ++ rest)) : (cursor.read (showPart embed piece)).Reads rest := by
  rw [← (covers_showPart hembed piece).textOf_eq] at h
  exact h.read

theorem index_read_showPart (piece : Piece TagPart) (cursor : Cursor) :
    (cursor.read (showPart embed piece)).index = cursor.index + Text.byteLength piece.text := by
  rw [Cursor.index_read, (covers_showPart hembed piece).textOf_eq]

/-- Parts are emitted as the pieces with the gaps between them are. What is not shown is passed over
only when the next part comes, so `gap` is still to be passed over. -/
theorem emitParts_eq {begin offset : Nat} {gap rest : List Char} {cursor : Cursor}
    (hreads : cursor.Reads (gap ++ (textOf ps ++ rest)))
    (hindex : cursor.index + Text.byteLength gap = begin + offset) :
    ((placed offset ps).foldlM (emitPart? embed begin) cursor).bind
        (·.advanceTo? (begin + (offset + Text.byteLength (textOf ps)))) =
      some ((cursor.advance (Text.byteLength gap)).read (showTag embed ps)) := by
  induction ps generalizing cursor gap offset with
  | nil =>
    have hlast := cursor.advanceTo?_add (Text.byteLength gap)
    rw [hindex] at hlast
    exact hlast.trans (congrArg some (Cursor.read_nil _).symm)
  | cons piece ps ih =>
    rw [Piece.textOf_cons, List.append_assoc] at hreads
    have hshow : showTag embed (piece :: ps) = showPart embed piece ++ showTag embed ps := rfl
    rw [hshow, Cursor.read_append, Piece.textOf_cons, Text.byteLength_append,
      ← Nat.add_assoc offset]
    cases piece with
    | gap text =>
      rw [← List.append_assoc] at hreads
      have hnext : cursor.index + Text.byteLength (gap ++ text) =
          begin + (offset + Text.byteLength text) := by
        rw [Text.byteLength_append]
        omega
      have hbehind := ih hreads hnext
      rw [Text.byteLength_append, ← Cursor.advance_advance] at hbehind
      rw [showPart, Cursor.read_cons, Cursor.take_gap, Cursor.read_nil]
      exact hbehind
    | withdrawn reported =>
      rw [showPart, Cursor.read_nil]
      exact ih hreads hindex
    | token label text =>
      have hpart : emitPart? embed begin cursor ⟨label, offset, Text.byteLength text⟩ = _ :=
        emitPart?_eq hreads hindex rfl
      have hnext := index_read_showPart hembed (.token label text)
        (cursor.advance (Text.byteLength gap))
      have hplace : ((cursor.advance (Text.byteLength gap)).read
          (showPart embed (.token label text))).index + Text.byteLength [] =
            begin + (offset + Text.byteLength text) := by
        rw [hnext, ← Nat.add_assoc, ← hindex]
        rfl
      rw [placed, List.foldlM_cons, hpart]
      exact ih (reads_showPart hembed hreads.advance) hplace

theorem textOf_showTag (ps : List (Piece TagPart)) : textOf (showTag embed ps) = textOf ps := by
  induction ps with
  | nil => rfl
  | cons piece ps ih =>
    have hshow : showTag embed (piece :: ps) = showPart embed piece ++ showTag embed ps := rfl
    rw [hshow, Piece.textOf_append, (covers_showPart hembed piece).textOf_eq, ih,
      Piece.textOf_cons]

theorem emitTag?_eq [Text.IdentifierClasses]
    {s : List Char} {pieces : List (Piece TagPart)} {cursor : Cursor}
    (h : tag? s = some (kind, pieces)) (hreads : cursor.Reads s) :
    emitTag? embed (Text.byteLength (textOf pieces)) cursor =
      some (cursor.read (showTag embed pieces)) := by
  have hwalk := walk?_textOf_append h []
  rw [List.append_nil] at hwalk
  rw [emitTag?, hreads.remainder_eq, slice_textOf_tag h, hwalk]
  rw [← (fits_tag? h).textOf_append_drop, ← List.nil_append (textOf pieces ++ _)] at hreads
  have hindex : cursor.index + Text.byteLength [] = cursor.index + 0 := rfl
  have hparts := emitParts_eq hembed hreads hindex
  rw [Nat.zero_add] at hparts
  exact hparts

omit hembed

/-- A tag is matched and emitted in step. The walk over its text reports the same whatever follows,
the parts lie one behind the other in it with nothing but white space and equals signs between them,
and the cursor that emits them never has to go back and comes to stand where the tag ends, with the
tag shown as an element shows it. -/
theorem walk_steady_and_emitted [Text.IdentifierClasses]
    {s : List Char} {parts : List PlacedPart} {n : Nat}
    (h : walk? s = some (parts, n, kind)) :
    0 < n ∧ Text.byteLength (Text.slice s 0 n) = n ∧
      (∀ t, walk? (Text.slice s 0 n ++ t) = some (parts, n, kind)) ∧
      LieIn (Text.slice s 0 n) parts ∧
      ∀ (strict : Bool) (levels : Nat) (cursor : Cursor), cursor.Reads s →
        ∃ last pieces, emitTag? (scanLevels strict levels) n cursor = some last ∧
          last.index = cursor.index + n ∧ tag? s = some (kind, pieces) ∧
          last = cursor.read (showTag (scanLevels strict levels) pieces) := by
  obtain ⟨⟨kind, pieces⟩, htag, heq⟩ := Option.map_eq_some_iff.1 h
  obtain ⟨rfl, rfl, rfl⟩ := by simpa only [Prod.mk.injEq] using heq
  have hlie := (isTag_of_tag? htag).lieIn
  rw [Piece.textOf_lasting, placed_lasting] at hlie
  rw [slice_textOf_tag htag]
  refine ⟨?_, rfl, walk?_textOf_append htag, hlie, fun strict levels cursor hreads ↦ ?_⟩
  · obtain ⟨part, hlast, hstop⟩ := hlie.last
    have hpos := hlie.pos part (List.mem_of_getLast? hlast)
    rw [← hstop, PlacedPart.stop]
    omega
  · have hembed := covers_scanLevels strict levels
    refine ⟨_, pieces, emitTag?_eq hembed htag hreads, ?_, htag, rfl⟩
    rw [Cursor.index_read, textOf_showTag hembed]

/-- A tag with a member name, a string, a comment and code is matched in front of any text as it is
when it stands alone, and a cursor that emits it goes over all of it and shows what the code
holds. -/
theorem walk_steady_and_emitted_attributes :
    let tag := "<a.b c='d'/*e*/ f=\x7bg\x7d/>".toList
    let parts : List PlacedPart := [⟨.punctuation, 0, 1⟩, ⟨.tagName, 1, 3⟩, ⟨.attributeName, 5, 1⟩,
      ⟨.string, 7, 3⟩, ⟨.comment, 10, 5⟩, ⟨.attributeName, 16, 1⟩, ⟨.code, 18, 3⟩,
      ⟨.punctuation, 21, 2⟩]
    let tokens : List Token := [⟨0, 1, .symPunc⟩, ⟨1, 3, .markupTag⟩, ⟨5, 1, .markupAttr⟩,
      ⟨7, 3, .string⟩, ⟨10, 2, .commentDelimiter⟩, ⟨12, 1, .comment⟩, ⟨13, 2, .commentDelimiter⟩,
      ⟨16, 1, .markupAttr⟩, ⟨18, 1, .symBrace⟩, ⟨19, 1, .identifier⟩, ⟨20, 1, .symBrace⟩,
      ⟨21, 2, .symPunc⟩]
    let cursor := Cursor.ofSource default tag default
    walk? tag = some (parts, 23, .selfClosing) ∧ cursor.Reads tag ∧
      (∀ t, walk? (tag ++ t) = some (parts, 23, .selfClosing)) ∧ LieIn tag parts ∧
      ∃ last, emitTag? (scanLevels false 1) 23 cursor = some last ∧ last.index = 23 ∧
        last.sink.tokens.toList = tokens := by
  intro tag parts tokens cursor
  have hwalk : walk? tag = some (parts, 23, .selfClosing) := by decide +kernel
  have hreads : cursor.Reads tag := ⟨[], [], rfl, rfl, rfl⟩
  have hslice : Text.slice tag 0 23 = tag := by decide +kernel
  obtain ⟨-, -, hsteady, hlie, hemit⟩ := walk_steady_and_emitted hwalk
  rw [hslice] at hsteady hlie
  obtain ⟨last, -, hlast, hindex, -⟩ := hemit false 1 cursor hreads
  have htokens : (emitTag? (scanLevels false 1) 23 cursor).map (·.sink.tokens.toList) =
      some tokens := by
    decide +kernel
  rw [hlast] at htokens
  exact ⟨hwalk, hreads, hsteady, hlie, last, hlast, hindex, Option.some.inj htokens⟩

end JavaScript

end Highlight
