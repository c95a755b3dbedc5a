import Highlight.Proofs.Html.Group
import Highlight.Proofs.Piece.View

/-!
# Start tags among other items

An opening bracket and the name of an attribute are shown of start tags and of nothing else, apart
from the pseudo-attributes of a declaration. So where tokens show one of these, a start tag has been
read.
-/

namespace Highlight

open Construct (literal measured seq skip)
open Piece (labelled textOf tokens)

namespace Markup

variable {kind : Kind} {lit : String} {length nameLength spaceLength : List Char → Nat}
  {c : Construct Kind} {cs : List (Construct Kind)}

/-- The tokens end inside a start tag of the given name, between its attributes. -/
def InStartTag (source : List Char) (name : Token) (tokens : List Token) : Prop :=
  ∃ left opening inside, tokens = left ++ opening :: name :: inside ∧
    opening.kind = .symPunc ∧ opening.text source = "<".toList ∧ name.kind = .markupTag ∧
    ∀ token ∈ inside, token.kind ≠ .symPunc

/-- The pieces of tokens that end inside a start tag, and that of the token behind them. -/
theorem exists_of_inStartTag {ps : List (Piece Kind)} {source rest : List Char}
    {name next : Token} {front right : List Token} (hsource : source = textOf ps ++ rest)
    (htokens : tokens 0 ps = front ++ next :: right) (htag : InStartTag source name front) :
    ∃ before between text after others,
      ps = before ++ .token .symPunc "<".toList :: (between ++ .token next.kind text :: after) ∧
      labelled between = (.markupTag, name.text source) :: others ∧
      (∀ entry ∈ others, entry.1 ≠ .symPunc) ∧ text ≠ [] ∧ next.text source = text ∧
      next.begin = Text.byteLength (textOf (before ++ .token .symPunc "<".toList :: between)) ∧
      next.length = Text.byteLength text ∧ right = tokens next.stop after := by
  obtain ⟨left, opening, inside, rfl, hkind, hbracket, hname, hinside⟩ := htag
  rw [List.append_assoc, List.cons_append] at htokens
  obtain ⟨before, bracket, behind, rfl, -, -, hbegin, hlength, hbehind⟩ :=
    Piece.exists_of_tokens_eq htokens
  rw [Nat.zero_add] at hbegin
  obtain ⟨-, hbracketText⟩ := Piece.text_of_eq rfl hbegin hlength hsource
  obtain rfl : bracket = "<".toList := hbracketText.symm.trans hbracket
  rw [hkind] at hsource ⊢
  obtain ⟨between, text, after, rfl, htext, hbetween, hnext, hnextLength, hright⟩ :=
    Piece.exists_of_tokens_eq hbehind.symm
  have hstop :
      opening.stop = Text.byteLength (textOf (before ++ [.token .symPunc "<".toList])) := by
    rw [Token.stop, hbegin, hlength]
    simp [Piece.text]
  have hplace : next.begin =
      Text.byteLength (textOf (before ++ .token .symPunc "<".toList :: between)) := by
    rw [hnext, hstop, ← Text.byteLength_append, ← Piece.textOf_append, List.append_assoc,
      List.singleton_append]
  have hsplit : source = textOf (before ++ [.token .symPunc "<".toList]) ++
      (textOf between ++ (textOf (.token next.kind text :: after) ++ rest)) := by
    rw [hsource]
    simp
  have hlabels := Piece.map_text_tokens (textOf (before ++ [.token .symPunc "<".toList]))
    (textOf (.token next.kind text :: after) ++ rest) between
  rw [← hsplit, ← hstop, ← hbetween, List.map_cons, hname] at hlabels
  refine ⟨before, between, text, after, _, rfl, hlabels.symm, ?_, htext, ?_, hplace, hnextLength,
    hright⟩
  · intro entry hentry
    obtain ⟨token, htoken, rfl⟩ := List.mem_map.1 hentry
    exact hinside token htoken
  · have hps : before ++ .token .symPunc "<".toList :: (between ++ .token next.kind text :: after) =
        (before ++ .token .symPunc "<".toList :: between) ++ .token next.kind text :: after := by
      rw [List.append_assoc, List.cons_append]
    exact (Piece.text_of_eq hps hplace hnextLength hsource).2

/-- The entry that opens a start tag. -/
def startMark : Entry := (.symPunc, "<".toList)

/-- Of what is shown, nothing opens a start tag or names an attribute. -/
def Apart (es : List Entry) : Prop := ∀ entry ∈ es, entry.1 ≠ .markupAttr ∧ entry ≠ startMark

theorem composes_apart : Composes Apart := composes_forall _

theorem apart_single (hattr : kind ≠ .markupAttr) (hpunc : kind ≠ .symPunc) (text : List Char) :
    Apart [(kind, text)] :=
  List.forall_mem_singleton.2 ⟨hattr, fun heq ↦ hpunc (Prod.mk.inj heq).1⟩

@[simp]
theorem apart_measured (hattr : kind ≠ .markupAttr) (hpunc : kind ≠ .symPunc) :
    (measured kind length).Shows Apart :=
  Construct.shows_measured composes_apart (apart_single hattr hpunc) length

@[simp]
theorem apart_literal (hattr : kind ≠ .markupAttr) (hpunc : kind ≠ .symPunc) :
    (literal kind lit).Shows Apart :=
  Construct.shows_literal composes_apart (apart_single hattr hpunc _)

theorem apart_mark (h : lit ∈ [">", "</", "<?", "?>"]) : (literal .symPunc lit).Shows Apart := by
  have hmarks : ∀ lit ∈ [">", "</", "<?", "?>"], (Kind.symPunc, lit.toList) ≠ startMark := by
    decide
  exact Construct.shows_literal composes_apart
    (List.forall_mem_singleton.2 ⟨Kind.noConfusion, hmarks lit h⟩)

@[simp]
theorem apart_skip : (skip length).Shows Apart := Construct.shows_skip composes_apart length

@[simp]
theorem apart_skipSome : (Construct.skipSome length).Shows Apart :=
  Construct.shows_skipSome composes_apart length

theorem apart_seq (h : ∀ c ∈ cs, c.Shows Apart) : (seq cs).Shows Apart :=
  Construct.shows_seq composes_apart h

@[simp]
theorem apart_many (h : c.Shows Apart) : c.many.Shows Apart :=
  Construct.shows_many composes_apart h

theorem apart_framed {frame inner : Kind} (hframe : frame ∉ [.markupAttr, .symPunc])
    (hinner : inner ∉ [.markupAttr, .symPunc]) (opening closing : Nat) (text : List Char) :
    Apart (labelled (Piece.framed frame inner opening closing text)) := by
  simp only [List.mem_cons, List.not_mem_nil, or_false, not_or] at hframe hinner
  exact composes_apart.labelled_framed (apart_single hframe.1 hframe.2)
    (apart_single hinner.1 hinner.2) _ _ _

theorem apart_endTag : (seq [
    literal .symPunc "</",
    measured .markupTag nameLength,
    skip spaceLength,
    literal .symPunc ">"]).Shows Apart :=
  apart_seq (by simp [apart_mark])

/-- What is said of start tags alone. -/
def AtStartTags (view : View Kind) : Prop :=
  ∀ entry, entry.1 ≠ .markupAttr ∧ entry ≠ startMark →
    ∀ after rest, view entry.1 entry.2 after rest

theorem AtStartTags.inView {view : View Kind} (h : AtStartTags view) (hc : c.Shows Apart) :
    c.InView view :=
  Construct.inView_of_shows h hc

end Markup

open Markup

namespace Xml

@[simp]
theorem apart_comment : comment.Shows Apart := by
  intro s ps h
  unfold comment at h
  simp only at h
  split_ifs at h
  obtain rfl := Option.some.inj h
  exact apart_framed (by decide) (by decide) _ _ _

@[simp]
theorem apart_cdata : cdata.Shows Apart := by
  intro s ps h
  unfold cdata at h
  simp only at h
  split_ifs at h
  obtain rfl := Option.some.inj h
  have hdirective (text : List Char) : Apart (labelled [.token .directive text]) :=
    composes_apart.labelled_token (apart_single (by decide) (by decide) text)
  simp only [Piece.labelled_append, Piece.labelled_hidden, List.append_nil]
  exact composes_apart.append (hdirective _) (hdirective _)

@[simp]
theorem apart_instruction : instruction.Shows Apart := by
  have hbody : instructionBody.Shows Apart := by
    refine shows_instructionBody.mono ?_
    rintro _ rfl
    exact composes_apart.nil
  exact apart_seq (by simp [apart_mark, hbody])

@[simp]
theorem apart_spacedLiteral (length : List Char → Nat) : (spacedLiteral length).Shows Apart :=
  apart_seq (by simp)

@[simp]
theorem apart_externalId : externalId.Shows Apart := by
  refine Construct.shows_choose fun s ↦ ?_
  dsimp only
  split_ifs <;> exact apart_seq (by simp)

@[simp]
theorem apart_parameterReference : parameterReference.Shows Apart :=
  apart_measured (by decide) (by decide)

@[simp]
theorem apart_markupDeclaration : markupDeclaration.Shows Apart := by
  have hpart : declarationPart.Shows Apart := Construct.shows_firstOf (by simp)
  exact apart_seq (by simp [hpart])

@[simp]
theorem apart_internalSubset : internalSubset.Shows Apart := by
  have hpart : subsetPart.Shows Apart := Construct.shows_firstOf (by simp)
  exact Construct.shows_ifNext composes_apart (apart_seq (by simp [hpart]))

@[simp]
theorem apart_doctype : doctype.Shows Apart := apart_seq (by simp)

theorem inView_item {view : View Kind} (hview : AtStartTags view) (h : startTag.InView view) :
    item.InView view := by
  apply Construct.inView_firstOf
  simp only [List.forall_mem_cons]
  exact ⟨hview.inView apart_comment, hview.inView apart_cdata, hview.inView apart_instruction,
    hview.inView apart_doctype, hview.inView apart_endTag, h,
    hview.inView (apart_measured (by decide) (by decide)), hview.inView apart_skipSome,
    List.forall_mem_nil _⟩

end Xml

namespace Html

theorem apart_comment : comment.Shows Apart := by
  intro s ps h
  unfold comment at h
  simp only at h
  split_ifs at h <;> obtain rfl := Option.some.inj h
  · exact composes_apart.labelled_token (apart_single (by decide) (by decide) _)
  all_goals exact apart_framed (by decide) (by decide) _ _ _

theorem apart_doctype : doctype.Shows Apart := by
  have hword (named : Bool) (word : List Char) :
      Apart (labelled (Piece.shown (doctypeWordKind named word) word)) := by
    refine composes_apart.labelled_shown (apart_single ?_ (doctypeWordKind_ne named word) _)
    unfold doctypeWordKind
    split_ifs <;> decide
  have hpart (named : Bool) (s : List Char) (ps : List (Piece Kind)) (next : Bool)
      (h : doctypePart named s = some (ps, next)) : Apart (labelled ps) := by
    unfold doctypePart at h
    simp only at h
    split_ifs at h <;> obtain ⟨rfl, rfl⟩ := Prod.mk.inj (Option.some.inj h)
    · exact composes_apart.nil
    · exact composes_apart.labelled_token (apart_single (by decide) (by decide) _)
    · exact composes_apart.labelled_token (apart_single (by decide) (by decide) _)
    · exact hword _ _
  intro s ps h
  unfold doctype at h
  simp only at h
  split_ifs at h
  obtain rfl := Option.some.inj h
  have hdirective (text : List Char) : Apart (labelled [.token .directive text]) :=
    composes_apart.labelled_token (apart_single (by decide) (by decide) text)
  rw [Piece.labelled_append, Piece.labelled_append]
  exact composes_apart.append
    (composes_apart.append (hdirective _) (shows_run composes_apart hpart _ _)) (hdirective _)

theorem apart_tagEnd (name : List Char) : (tagEnd name).Shows Apart := by
  have hmark : Apart (labelled [.token .symPunc ['>']]) :=
    List.forall_mem_singleton.2 ⟨by decide, by decide⟩
  have htext (content : TextContent) (s : List Char) : Apart (labelled (rawText content s)) := by
    cases content with
    | raw =>
      rw [rawText, Piece.labelled_hidden]
      exact composes_apart.nil
    | escapable =>
      have hpart : rawTextPart.Shows Apart := Construct.shows_firstOf (by simp [reference])
      exact hpart.repeated composes_apart s
  intro s ps h
  unfold tagEnd at h
  simp only at h
  split_ifs at h
  · split at h <;> obtain rfl := Option.some.inj h
    · rw [← List.singleton_append, Piece.labelled_append]
      exact composes_apart.append hmark (htext _ _)
    · exact hmark
  · obtain ⟨-, rfl⟩ := Construct.literal_eq_some.1 h
    exact List.forall_mem_singleton.2 ⟨by decide, by decide⟩

theorem inView_item {view : View Kind} (hview : AtStartTags view) (h : startTag.InView view) :
    item.InView view := by
  apply Construct.inView_firstOf
  simp only [List.forall_mem_cons]
  exact ⟨hview.inView apart_comment, hview.inView apart_doctype, hview.inView Xml.apart_cdata,
    hview.inView apart_endTag, h, hview.inView (apart_measured (by decide) (by decide)),
    hview.inView apart_skipSome, List.forall_mem_nil _⟩

end Html

end Highlight
