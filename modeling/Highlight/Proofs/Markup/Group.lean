import Highlight.Language
import Highlight.Proofs.Piece.Shown

/-!
# Tags as groups of tokens

The tokens of a whole tag make a group: it begins with a punctuation mark that opens a tag and ends
with one that closes it, and inside it there is no punctuation. A list of entries that is put
together from groups and from other entries therefore has every opening mark at the front of a group
and every closing mark at the end of one.
-/

namespace Highlight.Markup

open Construct (literal measured seq skip)

variable {language : Language} {kind : Kind}

/-- The parts in which a value is shown: strings, and escapes between them. -/
def ValueParts (value : List Entry) : Prop :=
  ∀ part ∈ value, part.1 = .string ∨ part.1 = .escape

theorem composes_valueParts : Composes ValueParts := composes_forall _

theorem valueParts_string (text : List Char) : ValueParts [(.string, text)] :=
  List.forall_mem_singleton.2 (.inl rfl)

theorem valueParts_escape (text : List Char) : ValueParts [(.escape, text)] :=
  List.forall_mem_singleton.2 (.inr rfl)

/-- What is shown of an attribute: its name and the parts of its value. In XML the value has quotes,
and a string shows them. -/
inductive Attribute (language : Language) : List Entry → Prop
  | intro {name : List Char} {value : List Entry} :
      ValueParts value → (language = .xml → ∃ text, (.string, text) ∈ value) →
      Attribute language ((.markupAttr, name) :: value)

/-- The marks that end a start tag. -/
def tagClosings : List String := [">", "/>"]

/-- What is shown of a tag as a whole. Processing instructions are tags of XML only. -/
inductive Group (language : Language) : List Entry → Prop
  | startTag (name : List Char) {attributes : List Entry} {closing : String} :
      MadeOf (Attribute language) attributes → closing ∈ tagClosings →
      Group language ((.symPunc, "<".toList) :: (.markupTag, name) ::
        (attributes ++ [(.symPunc, closing.toList)]))
  | endTag {name : List Char} :
      Group language [(.symPunc, "</".toList), (.markupTag, name), (.symPunc, ">".toList)]
  | instruction {target : List Char} :
      language = .xml →
      Group language [(.symPunc, "<?".toList), (.directive, target), (.symPunc, "?>".toList)]

/-- The entries that open a tag. -/
def openings : List Entry := ["<", "</", "<?"].map fun mark ↦ (.symPunc, mark.toList)

def closings : List Entry := [">", "/>", "?>"].map fun mark ↦ (.symPunc, mark.toList)

theorem kind_of_mem_openings {entry : Entry} (h : entry ∈ openings) : entry.1 = .symPunc := by
  obtain ⟨_, -, rfl⟩ := List.mem_map.1 h
  rfl

theorem kind_of_mem_closings {entry : Entry} (h : entry ∈ closings) : entry.1 = .symPunc := by
  obtain ⟨_, -, rfl⟩ := List.mem_map.1 h
  rfl

theorem not_mem_closings {entry : Entry} (h : entry ∈ openings) : entry ∉ closings :=
  (by decide : ∀ entry ∈ openings, entry ∉ closings) entry h

theorem closing_mem {closing : String} (h : closing ∈ tagClosings) :
    ((.symPunc, closing.toList) : Entry) ∈ closings :=
  (by decide : ∀ closing ∈ tagClosings, ((.symPunc, closing.toList) : Entry) ∈ closings) closing h

theorem Attribute.kind_ne {es : List Entry} (h : Attribute language es) :
    ∀ entry ∈ es, entry.1 ≠ .symPunc := by
  obtain ⟨hvalue, -⟩ := h
  refine List.forall_mem_cons.2 ⟨by simp, fun part hpart ↦ ?_⟩
  rcases hvalue part hpart with hkind | hkind <;>
  · rw [hkind]
    decide

/-- Between its opening and its closing mark a group has no punctuation. -/
theorem Group.exists_inside {es : List Entry} (h : Group language es) :
    ∃ opening inside closing, es = opening :: (inside ++ [closing]) ∧ opening ∈ openings ∧
      closing ∈ closings ∧ ∀ entry ∈ inside, entry.1 ≠ .symPunc := by
  cases h with
  | startTag name hattributes hclosing =>
    obtain ⟨parts, hparts, rfl⟩ := hattributes
    refine ⟨_, (.markupTag, name) :: parts.flatten, _, rfl, by decide, closing_mem hclosing, ?_⟩
    refine List.forall_mem_cons.2 ⟨by simp, fun entry hentry ↦ ?_⟩
    obtain ⟨es, hes, hmem⟩ := List.mem_flatten.1 hentry
    exact (hparts es hes).kind_ne entry hmem
  | endTag => exact ⟨_, [(.markupTag, _)], _, rfl, by decide, by decide, by simp⟩
  | instruction => exact ⟨_, [(.directive, _)], _, rfl, by decide, by decide, by simp⟩

theorem Group.front_eq_nil {start stop : List Entry} {entry : Entry}
    (h : Group language (start ++ entry :: stop)) (hentry : entry ∈ openings) : start = [] := by
  obtain ⟨opening, inside, closing, heq, -, hclosing, hinside⟩ := h.exists_inside
  cases start with
  | nil => rfl
  | cons e start =>
    have hmem : entry ∈ inside ++ [closing] := by
      rw [← (List.cons.inj heq).2]
      exact List.mem_append_right _ List.mem_cons_self
    rcases List.mem_append.1 hmem with hmem | hmem
    · exact absurd (kind_of_mem_openings hentry) (hinside entry hmem)
    · rw [List.mem_singleton.1 hmem] at hentry
      exact absurd hclosing (not_mem_closings hentry)

theorem Group.behind_eq_nil {start stop : List Entry} {entry : Entry}
    (h : Group language (start ++ entry :: stop)) (hentry : entry ∈ closings) : stop = [] := by
  obtain ⟨opening, inside, closing, heq, hopening, -, hinside⟩ := h.exists_inside
  rcases List.eq_nil_or_concat' stop with rfl | ⟨stop, e, rfl⟩
  · rfl
  · rw [← List.cons_append, ← List.append_assoc, ← List.cons_append] at heq
    have hmem : entry ∈ opening :: inside := by
      rw [← (List.append_inj' heq rfl).1]
      exact List.mem_append_right _ List.mem_cons_self
    rcases List.mem_cons.1 hmem with rfl | hmem
    · exact absurd hentry (not_mem_closings hopening)
    · exact absurd (kind_of_mem_closings hentry) (hinside entry hmem)

/-- A group, or entries that neither open nor close a tag. -/
inductive Part (language : Language) : List Entry → Prop
  | group {es : List Entry} : Group language es → Part language es
  | other {es : List Entry} :
      (∀ entry ∈ es, entry ∉ openings ∧ entry ∉ closings) → Part language es

/-- Entries in which tags stand as groups. -/
abbrev Grouped (language : Language) : List Entry → Prop := MadeOf (Part language)

theorem composes_grouped (language : Language) : Composes (Grouped language) :=
  composes_madeOf _

theorem Group.grouped {es : List Entry} (h : Group language es) : Grouped language es :=
  .single (.group h)

theorem grouped_other (h : kind ≠ .symPunc) (text : List Char) :
    Grouped language [(kind, text)] :=
  .single (.other (List.forall_mem_singleton.2
    ⟨fun hmem ↦ h (kind_of_mem_openings hmem), fun hmem ↦ h (kind_of_mem_closings hmem)⟩))

theorem grouped_token (h : kind ≠ .symPunc) (text : List Char) :
    Grouped language (Piece.labelled [.token kind text]) :=
  (composes_grouped _).labelled_token (grouped_other h text)

theorem grouped_shown (h : kind ≠ .symPunc) (text : List Char) :
    Grouped language (Piece.labelled (Piece.shown kind text)) :=
  (composes_grouped _).labelled_shown (grouped_other h text)

theorem grouped_framed {frame inner : Kind} (hframe : frame ≠ .symPunc) (hinner : inner ≠ .symPunc)
    (opening closing : Nat) (text : List Char) :
    Grouped language (Piece.labelled (Piece.framed frame inner opening closing text)) :=
  (composes_grouped _).labelled_framed (grouped_other hframe) (grouped_other hinner) _ _ _

variable {before after : List Entry} {entry : Entry}

/-- An opening mark begins a group. -/
theorem Grouped.begins (h : Grouped language (before ++ entry :: after))
    (hentry : entry ∈ openings) :
    ∃ group rest, Group language group ∧ entry :: after = group ++ rest := by
  obtain ⟨front, start, stop, rest, rfl, rfl, hgroup | hother⟩ := h.exists_part
  · obtain rfl := hgroup.front_eq_nil hentry
    exact ⟨_, rest, hgroup, rfl⟩
  · exact absurd hentry (hother entry (by simp)).1

/-- A closing mark ends a group. -/
theorem Grouped.ends (h : Grouped language (before ++ entry :: after))
    (hentry : entry ∈ closings) :
    ∃ front group, Group language group ∧ before ++ [entry] = front ++ group := by
  obtain ⟨front, start, stop, rest, rfl, rfl, hgroup | hother⟩ := h.exists_part
  · obtain rfl := hgroup.behind_eq_nil hentry
    exact ⟨front, _, hgroup, List.append_assoc _ _ _⟩
  · exact absurd hentry (hother entry (by simp)).2

section

variable {lit : String} {length nameLength spaceLength : List Char → Nat}
  {c : Construct Kind} {cs : List (Construct Kind)}

@[simp]
theorem shows_measured (h : kind ≠ .symPunc) : (measured kind length).Shows (Grouped language) :=
  Construct.shows_measured (composes_grouped _) (grouped_other h) length

@[simp]
theorem shows_literal (h : kind ≠ .symPunc) : (literal kind lit).Shows (Grouped language) :=
  Construct.shows_literal (composes_grouped _) (grouped_other h _)

@[simp]
theorem shows_skip : (skip length).Shows (Grouped language) :=
  Construct.shows_skip (composes_grouped _) length

@[simp]
theorem shows_skipSome : (Construct.skipSome length).Shows (Grouped language) :=
  Construct.shows_skipSome (composes_grouped _) length

theorem shows_seq (h : ∀ c ∈ cs, c.Shows (Grouped language)) :
    (seq cs).Shows (Grouped language) :=
  Construct.shows_seq (composes_grouped _) h

@[simp]
theorem shows_many (h : c.Shows (Grouped language)) : c.many.Shows (Grouped language) :=
  Construct.shows_many (composes_grouped _) h

/-- What an attribute shows, from what stands behind its name. -/
theorem shows_attribute (h0 : nameLength [] = 0)
    (h : (seq cs).Shows fun value ↦
      ValueParts value ∧ (language = .xml → ∃ text, (.string, text) ∈ value)) :
    (seq (measured .markupAttr nameLength :: cs)).Shows (Attribute language) :=
  Construct.shows_seq_measured h0 fun _ ↦ h.mono fun _ hvalue ↦ .intro hvalue.1 hvalue.2

/-- The end of a start tag, and what it takes with it. -/
inductive TagEnd (language : Language) : List Entry → Prop
  | intro (closing : String) {others : List Entry} :
      closing ∈ tagClosings → Grouped language others →
      TagEnd language ((.symPunc, closing.toList) :: others)

/-- What a start tag shows, from its attributes and its end. -/
theorem shows_startTag (h0 : nameLength [] = 0)
    (hattributes : c.Shows (MadeOf (Attribute language)))
    (hend : (seq cs).Shows (TagEnd language)) :
    (seq (literal .symPunc "<" :: measured .markupTag nameLength :: c.many :: cs)).Shows
      (Grouped language) := by
  refine Construct.shows_seq_literal (by decide) (Construct.shows_seq_measured h0 fun name ↦
    Construct.shows_seq_cons (Construct.shows_many (composes_madeOf _) hattributes) ?_)
  intro attributes hattributes
  refine hend.mono ?_
  rintro _ ⟨closing, hclosing, hothers⟩
  have hgroup := (Group.startTag name hattributes hclosing).grouped
  simpa using (composes_grouped _).append hgroup hothers

theorem shows_endTag (h0 : nameLength [] = 0) :
    (seq [
      literal .symPunc "</",
      measured .markupTag nameLength,
      skip spaceLength,
      literal .symPunc ">"]).Shows (Grouped language) :=
  Construct.shows_seq_literal (by decide) <| Construct.shows_seq_measured h0 fun _ ↦
    Construct.shows_seq_silent (Construct.shows_skip composes_nil _) <|
      Construct.shows_seq_literal (by decide) <|
        Construct.shows_seq_nil Group.endTag.grouped

end

end Highlight.Markup
