import Highlight.JavaScript.Element
import Highlight.Proofs.JavaScript.Comment
import Highlight.Proofs.Search

/-!
# Tags in scripts that fit and advance

Code in curly brackets has room for both of its brackets. The parts of a tag fit the text it is read
from, and an attribute always advances.
-/

namespace Highlight.JavaScript

open Piece (Covers width)

theorem quotedLengthFrom_le (quote : Char) (n : Nat) (s : List Char) :
    quotedLengthFrom quote n s ≤ n + s.length := by
  fun_induction quotedLengthFrom quote n s with
  | case1 n => simp
  | case2 n => simp
  | case3 n d rest ih => simp only [List.length_cons]; omega
  | case4 n s hbackslash => simp only [List.length_cons]; omega
  | case5 n c s hbackslash hquote ih => simp only [List.length_cons]; omega

theorem quotedLength_le (s : List Char) : quotedLength s ≤ s.length := by
  cases s with
  | nil => exact Nat.le_refl 0
  | cons quote s =>
    rw [List.length_cons, Nat.add_comm]
    exact quotedLengthFrom_le quote 1 s

theorem plainCodeLength_le (s : List Char) : plainCodeLength s ≤ s.length := by
  cases s with
  | nil => exact Nat.le_refl 0
  | cons c s =>
    unfold plainCodeLength
    simp only
    split_ifs
    · exact quotedLength_le _
    · exact hasRoom_lineCommentLength.le_length _
    · exact Comment.hasRoom_blockExtent.le_length _
    · exact Nat.zero_le _
    · exact Nat.succ_pos _

theorem nestingStep_le (top : Nesting) (below : List Nesting) (s : List Char) :
    (nestingStep top below s).2 ≤ s.length := by
  cases s with
  | nil => exact Nat.le_refl 0
  | cons c rest =>
    cases top with
    | template =>
      unfold nestingStep
      simp only
      split_ifs with hclose hbackslash hopening
      · exact Nat.succ_pos _
      · simp only [List.length_cons, List.length_take]
        omega
      · exact Text.length_le_of_startsWith hopening
      · exact Nat.succ_pos _
    | braces =>
      unfold nestingStep
      simp only
      split_ifs
      · exact Nat.succ_pos _
      · exact Nat.succ_pos _
      · exact Nat.succ_pos _
      · exact plainCodeLength_le (c :: rest)

/-- Where brackets are open at least one more character is read. -/
theorem bracedLengthFrom_bounds (n : Nat) (opened : List Nesting) (s : List Char) :
    bracedLengthFrom n opened s = 0 ∨
      n + min 1 opened.length ≤ bracedLengthFrom n opened s ∧
        bracedLengthFrom n opened s ≤ n + s.length := by
  induction hs : s.length using Nat.strongRecOn generalizing n opened s with
  | ind m ih =>
    cases opened with
    | nil => simp [bracedLengthFrom]
    | cons top below =>
      cases s with
      | nil => simp [bracedLengthFrom]
      | cons c rest =>
        rw [bracedLengthFrom]
        have hle := nestingStep_le top below (c :: rest)
        have hpos : 0 < (c :: rest).length := Nat.succ_pos _
        generalize nestingStep top below (c :: rest) = found at hle ⊢
        obtain ⟨opened, step⟩ := found
        simp only at hle ⊢
        split_ifs with hstep
        · exact .inl rfl
        · have hdrop : ((c :: rest).drop step).length = m - step := by rw [List.length_drop, hs]
          have hind := ih _ (by omega) (n + step) opened ((c :: rest).drop step) rfl
          have hmin : min 1 (top :: below).length = 1 := Nat.min_eq_left (Nat.succ_pos _)
          omega

/-- Code in curly brackets has room for its brackets. -/
theorem hasRoom_bracedLength : Text.HasRoom 2 bracedLength := by
  intro s
  unfold bracedLength
  split_ifs with hopening
  · have hle := Text.length_le_of_startsWith hopening
    have hbounds := bracedLengthFrom_bounds 1 [.braces] (s.drop 1)
    rw [List.length_drop] at hbounds
    change 1 ≤ s.length at hle
    simp only [List.length_singleton] at hbounds
    omega
  · exact .inl rfl

/-- In ASCII only letters and two signs begin names. -/
theorem isIdentifierStart_of_ascii [Text.IdentifierClasses] {c : Char} (hc : c.toNat < 0x80) :
    isIdentifierStart c = (c == '$' || c == '_' || c.isAlpha) := by
  rw [isIdentifierStart, Text.isIdentifierStart_of_ascii hc]

/-- No mark of a tag begins a name. -/
theorem isIdentifierStart_mark [Text.IdentifierClasses] :
    ∀ c ∈ ['>', '/', '\x7b'], isIdentifierStart c = false := by
  simp only [List.forall_mem_cons]
  exact ⟨rfl, rfl, rfl, List.forall_mem_nil _⟩

theorem hasRoom_closedCommentLength : Text.HasRoom 4 closedCommentLength :=
  Comment.hasRoom_closedBlock

@[simp]
theorem fits_triviaPart : triviaPart.Fits := Construct.fits_firstOf (by simp)

theorem advances_triviaPart : triviaPart.Advances := by
  apply Construct.advances_firstOf
  simp only [List.forall_mem_cons]
  exact ⟨Construct.advances_skipSome rfl,
    Construct.advances_measured hasRoom_lineCommentLength.length_nil,
    Construct.advances_measured hasRoom_closedCommentLength.length_nil, List.forall_mem_nil _⟩

@[simp]
theorem fits_trivia : trivia.Fits := Construct.fits_many fits_triviaPart

@[simp]
theorem fits_attributeValue : attributeValue.Fits := Construct.fits_firstOf (by simp)

variable [Text.IdentifierClasses]

@[simp]
theorem fits_tagAttribute : tagAttribute.Fits := by
  apply Construct.fits_firstOf
  simp only [List.forall_mem_cons]
  refine ⟨Construct.fits_measured _ _, Construct.fits_seq ?_, List.forall_mem_nil _⟩
  simp [Construct.fits_ifNext, Construct.fits_seq]

theorem advances_tagAttribute : tagAttribute.Advances := by
  apply Construct.advances_firstOf
  simp only [List.forall_mem_cons]
  exact ⟨Construct.advances_measured hasRoom_bracedLength.length_nil,
    Construct.advances_seq List.mem_cons_self (Construct.advances_measured rfl),
    List.forall_mem_nil _⟩

omit [Text.IdentifierClasses] in
@[simp]
theorem fits_mark (lit : String) : (mark lit).Fits := Construct.fits_literal _ _

@[simp]
theorem fits_tagName : tagName.Fits := Construct.fits_measured _ _

@[simp]
theorem fits_spacedAttribute : spacedAttribute.Fits := Construct.fits_seq (by simp)

theorem advances_spacedAttribute : spacedAttribute.Advances :=
  Construct.advances_seq (List.mem_cons_of_mem _ List.mem_cons_self) advances_tagAttribute

@[simp]
theorem fits_tagAttributes : tagAttributes.Fits := Construct.fits_many fits_spacedAttribute

/-- Every form of a tag begins with a bracket. -/
theorem tagForms_mem {s : List Char} {form : TagKind × List (Construct TagPart)}
    (h : form ∈ tagForms s) :
    (∀ c ∈ form.2, c.Fits) ∧ (mark "<" ∈ form.2 ∨ mark "</" ∈ form.2) := by
  unfold tagForms at h
  split_ifs at h
  · revert h form
    simp [closingForms]
  · revert h form
    simp [openingForms, closingForms]

theorem tag?_eq_some {s : List Char} {kind : TagKind} {parts : List (Piece TagPart)}
    (h : tag? s = some (kind, parts)) :
    ∃ form ∈ tagForms s, form.1 = kind ∧ Construct.seq form.2 s = some parts := by
  obtain ⟨⟨kind', form⟩, hform, hparts⟩ := List.exists_of_findSome?_eq_some h
  obtain ⟨ps, hps, hpair⟩ := Option.map_eq_some_iff.1 hparts
  obtain ⟨rfl, rfl⟩ := Prod.mk.inj hpair
  exact ⟨_, hform, rfl, hps⟩

theorem fits_tag? {s : List Char} {kind : TagKind} {parts : List (Piece TagPart)}
    (h : tag? s = some (kind, parts)) : Piece.Fits parts s := by
  obtain ⟨form, hform, -, hparts⟩ := tag?_eq_some h
  exact (Construct.fits_seq (tagForms_mem hform).1).read s parts hparts

theorem advances_tag? {s : List Char} {kind : TagKind} {parts : List (Piece TagPart)}
    (h : tag? s = some (kind, parts)) : 0 < width parts := by
  obtain ⟨form, hform, -, hparts⟩ := tag?_eq_some h
  rcases (tagForms_mem hform).2 with hmark | hmark
  · exact Construct.advances_seq hmark (Construct.advances_literal (by decide)) s parts hparts
  · exact Construct.advances_seq hmark (Construct.advances_literal (by decide)) s parts hparts

end Highlight.JavaScript
