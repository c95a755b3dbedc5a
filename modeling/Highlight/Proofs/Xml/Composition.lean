import Highlight.Proofs.Tokens
import Highlight.Proofs.Xml.Settled
import Highlight.Text.Unicode

/-!
# Scans of XML in parts

A scan that stops has read a document: cut off where it stopped, the source is read to its end and
leaves the same. And documents put one behind the other are read one behind the other. Where the
first ends in text and the second begins with some, the two are read together, which does not show;
only a `]]>` across the joint would.
-/

namespace Highlight

namespace Xml

open Construct (Takes Leaves LeavesMany)
open Piece (Alike lasting textOf width)

variable {ps qs : List (Piece Kind)} {i r t : List Char}

theorem dataLength_eq_zero_iff : dataLength r = 0 ↔ r = [] ∨ endsData r := by
  have h := dataLength_append_iff (i := []) (r := r)
  rw [List.nil_append, List.length_nil] at h
  rw [h]
  exact and_iff_left fun m hm ↦ absurd hm (Nat.not_lt_zero m)

/-- No `]]>` stands across the joint of the two texts. -/
def Joins (s t : List Char) : Prop :=
  ¬ ("]]".toList <:+ s ∧ ">".toList <+: t) ∧ ¬ ("]".toList <:+ s ∧ "]>".toList <+: t)

theorem Joins.of_append {s : List Char} (h : Joins (s ++ i) t) : Joins i t :=
  ⟨fun hcross ↦ h.1 ⟨hcross.1.trans (List.suffix_append s i), hcross.2⟩,
    fun hcross ↦ h.2 ⟨hcross.1.trans (List.suffix_append s i), hcross.2⟩⟩

/-- Nothing ends character data in front of a joint. -/
theorem not_endsData_of_joins (hi : Grammar.CharacterData i) (hjoins : Joins i t) {m : Nat}
    (hm : m < i.length) : endsData ((i ++ t).drop m) = false := by
  obtain ⟨c, s, hdrop⟩ := List.exists_cons_of_ne_nil (List.ne_nil_of_length_pos
    (by rw [List.length_drop]; omega : 0 < (i.drop m).length))
  have hsuffix : c :: s <:+ i := hdrop ▸ List.drop_suffix m i
  have hmem : c ∈ i := hsuffix.subset List.mem_cons_self
  have hmarkup : c ≠ '<' := ne_of_mem_of_not_mem hmem hi.noMarkup
  have hreference : c ≠ '&' := ne_of_mem_of_not_mem hmem hi.noReference
  rw [List.drop_append_of_le_length (Nat.le_of_lt hm), hdrop, endsData, Bool.or_eq_false_iff]
  refine ⟨by simp [hmarkup, hreference], ?_⟩
  have hlit : "]]>".toList = [']', ']', '>'] := rfl
  rw [← Bool.not_eq_true, Text.startsWith_iff, hlit]
  intro hend
  -- The mark stands within the text, or one or two of its brackets do.
  rcases s with _ | ⟨d, _ | ⟨e, s⟩⟩
  · obtain ⟨rfl, hbehind⟩ := List.cons_prefix_cons.1 hend
    exact hjoins.2 ⟨hsuffix, hbehind⟩
  · obtain ⟨rfl, hbehind⟩ := List.cons_prefix_cons.1 hend
    obtain ⟨rfl, hlast⟩ := List.cons_prefix_cons.1 hbehind
    exact hjoins.1 ⟨hsuffix, hlast⟩
  · have hinside : [']', ']', '>'] <+: c :: d :: e :: s :=
      List.prefix_of_prefix_length_le hend (List.prefix_append _ t) (by simp)
    exact hi.noSectionEnd (hinside.isInfix.trans hsuffix.isInfix)

/-- Character data in front of a text is read together with that of the text. -/
theorem dataLength_append (hi : Grammar.CharacterData i) (hjoins : Joins i t) :
    dataLength (i ++ t) = i.length + dataLength t := by
  have hlength : (t.take (dataLength t)).length = dataLength t := by
    rw [List.length_take]
    exact Nat.min_eq_left (dataLength_le t)
  have hsplit := List.take_append_drop (dataLength t) t
  have hdata : dataLength (t.take (dataLength t) ++ t.drop (dataLength t)) =
      (t.take (dataLength t)).length := by
    rw [hsplit, hlength]
  obtain ⟨hends, hinside⟩ := dataLength_append_iff.1 hdata
  have hboth : dataLength (i ++ t.take (dataLength t) ++ t.drop (dataLength t)) =
      (i ++ t.take (dataLength t)).length := by
    refine dataLength_append_iff.2 ⟨hends, fun m hm ↦ ?_⟩
    rw [List.append_assoc, hsplit]
    rcases Nat.lt_or_ge m i.length with hbefore | hbehind
    · exact not_endsData_of_joins hi hjoins hbefore
    · rw [List.length_append] at hm
      have hlater := hinside (m - i.length) (by omega)
      rw [hsplit] at hlater
      rw [List.drop_append, List.drop_eq_nil_of_le hbehind, List.nil_append]
      exact hlater
  rw [List.append_assoc, hsplit, List.length_append, hlength] at hboth
  exact hboth

theorem leaves_characterData (h : dataLength (i ++ r) = i.length) (hi : i ≠ []) :
    characterData.Leaves [.gap i] r := by
  have htext : textOf [(Piece.gap i : Piece Kind)] = i := List.append_nil i
  have htakes : characterData.Takes i r :=
    (measures_characterData.takes_iff dataLength_le).2 ⟨hi, h⟩
  obtain ⟨qs, hqs, htake⟩ := htakes
  refine ⟨qs, by rw [htext]; exact hqs, ?_⟩
  rw [Construct.renders_skipSome dataLength _ qs hqs, htake]

theorem leaves_item_characterData (h : characterData.Leaves ps r) : item.Leaves ps r :=
  Construct.leaves_firstOf (by simp) itemFor_of_takes (by simp) h

/-- What an item leaves is an item of the grammar, or it is text that does not show. -/
theorem item_of_leaves (h : item.Leaves ps r) :
    Grammar.Item (textOf ps) ∨ characterData.Leaves ps r := by
  obtain ⟨d, hd, hleaves⟩ := Construct.exists_leaves_of_firstOf h
  refine (item_of_takes h.takes).imp_right fun hdata ↦ ?_
  have hcalled := itemFor_of_takes d hd _ _ hleaves.takes
  rw [itemFor_of_takes characterData (by simp) _ _ hdata] at hcalled
  rw [hcalled]
  exact hleaves

theorem eq_gap_of_leaves (h : characterData.Leaves ps r) : ps = [.gap (textOf ps)] := by
  obtain ⟨qs, hqs, rfl⟩ := h
  rw [Construct.renders_skipSome dataLength _ qs hqs]
  exact congrArg (fun text ↦ [Piece.gap text]) (List.append_nil _).symm

/-- Where nothing begins an item, text ends. -/
theorem dataLength_of_none (h : item r = none) : dataLength r = 0 := by
  have hdata : characterData r = none :=
    Construct.firstOf_eq_none_iff.1 h characterData (by simp)
  by_contra hn
  have hsome : (characterData r).isSome := Construct.isSome_skipSome hn
  rw [hdata] at hsome
  exact absurd hsome Bool.false_ne_true

/-- An item of the grammar ends text. -/
theorem dataLength_of_item (h : Grammar.Item i) (r : List Char) : dataLength (i ++ r) = 0 := by
  rw [dataLength_eq_zero_iff, endsData, h.startsIn_append r, Bool.true_or]
  exact .inr rfl

/-- Behind text there is an item of the grammar or nothing. -/
theorem startsIn_of_leavesMany (h : LeavesMany item qs r)
    (hends : textOf qs ++ r = [] ∨ endsData (textOf qs ++ r)) (t : List Char) :
    qs = [] ∨ Text.startsIn (fun c ↦ c == '<' || c == '&') (textOf qs ++ t) := by
  cases h with
  | nil _ => exact .inl rfl
  | @cons ps qs _ hps _ =>
    refine .inr ?_
    rw [Piece.textOf_append, List.append_assoc] at hends ⊢
    rcases item_of_leaves hps with hitem | hdata
    · exact hitem.startsIn_append _
    · have htakes := (measures_characterData.takes_iff dataLength_le).1 hdata.takes
      rw [dataLength_eq_zero_iff.2 hends] at htakes
      exact absurd (List.length_eq_zero_iff.1 htakes.2.symm) htakes.1

/-- Text is left the same in front of nothing and in front of items. -/
theorem leaves_text (h : characterData.Leaves ps r)
    (ht : t = [] ∨ Text.startsIn (fun c ↦ c == '<' || c == '&') t) : item.Leaves ps t := by
  obtain ⟨hne, htext, -⟩ := characterData_of_takes h.takes
  apply leaves_item_characterData
  exact (Construct.renders_skipSome dataLength).leaves h (takes_characterData hne htext ht)

/-- The items in front of what begins no item are read to the end when that is cut off. -/
theorem leavesMany_item_cut (h : LeavesMany item ps r) : LeavesMany item ps [] := by
  induction h with
  | nil _ => exact .nil (advances_item.eq_none fits_item)
  | @cons ps qs r hps hqs ih =>
    refine .cons ?_ ih
    rcases item_of_leaves hps with hitem | hdata
    · exact leaves_item hitem hps _
    · obtain ⟨-, -, hends⟩ := characterData_of_takes hdata.takes
      apply leaves_text hdata
      refine (startsIn_of_leavesMany hqs hends []).imp_left ?_
      rintro rfl
      rfl

/-- Text in front of items is a turn of its own or part of the first one. -/
theorem leavesMany_item_text (hi : Grammar.CharacterData i) (hne : i ≠ [])
    (h : LeavesMany item qs r) (hjoins : Joins i (textOf qs ++ r)) :
    ∃ us, LeavesMany item us r ∧ Alike us (.gap i :: qs) := by
  have hlength := dataLength_append hi hjoins
  have halone (hnone : dataLength (textOf qs ++ r) = 0) :
      ∃ us, LeavesMany item us r ∧ Alike us (.gap i :: qs) := by
    rw [hnone, Nat.add_zero] at hlength
    have hleaves := leaves_item_characterData (leaves_characterData hlength hne)
    exact ⟨[.gap i] ++ qs, .cons hleaves h, .refl _⟩
  cases h with
  | nil hr => exact halone (dataLength_of_none hr)
  | @cons ps qs _ hps hqs =>
    rw [Piece.textOf_append, List.append_assoc] at hlength halone
    rcases item_of_leaves hps with hitem | hdata
    · exact halone (dataLength_of_item hitem _)
    · obtain ⟨text, rfl⟩ : ∃ text, ps = [.gap text] := ⟨_, eq_gap_of_leaves hdata⟩
      have htakes := (measures_characterData.takes_iff dataLength_le).1 hdata.takes
      have htext : textOf [(Piece.gap text : Piece Kind)] = text := List.append_nil text
      rw [htext] at htakes hlength
      rw [htakes.2, ← List.length_append, ← List.append_assoc] at hlength
      have hleaves := leaves_item_characterData
        (leaves_characterData hlength (List.append_ne_nil_of_left_ne_nil hne text))
      exact ⟨[.gap (i ++ text)] ++ qs, .cons hleaves hqs,
        (Piece.alike_gap_append i text).append (.refl qs)⟩

/-- Items that are read to their end and items behind them are read one behind the other. -/
theorem leavesMany_item_append (h : LeavesMany item ps []) (hqs : LeavesMany item qs r)
    (hjoins : Joins (textOf ps) (textOf qs ++ r)) :
    ∃ us, LeavesMany item us r ∧ Alike us (ps ++ qs) := by
  generalize hend : ([] : List Char) = rest at h
  induction h with
  | nil _ => exact ⟨qs, hqs, .refl qs⟩
  | @cons ps vs _ hps hvs ih =>
    subst hend
    rw [Piece.textOf_append] at hjoins
    obtain ⟨us, hus, halike⟩ := ih hjoins.of_append rfl
    have htext := halike.textOf_eq
    rw [Piece.textOf_append] at htext
    have hturn (hleaves : item.Leaves ps (textOf us ++ r)) :
        ∃ ws, LeavesMany item ws r ∧ Alike ws (ps ++ vs ++ qs) := by
      rw [List.append_assoc]
      exact ⟨ps ++ us, .cons hleaves hus, (Alike.refl ps).append halike⟩
    rcases item_of_leaves hps with hitem | hdata
    · exact hturn (leaves_item hitem hps _)
    · obtain ⟨hne, hi, hends⟩ := characterData_of_takes hdata.takes
      rcases startsIn_of_leavesMany hvs hends (textOf qs ++ r) with rfl | hmark
      · rw [Piece.textOf_nil, List.append_nil] at hjoins
        rw [Piece.textOf_nil, List.nil_append] at htext
        rw [← htext] at hjoins
        obtain ⟨ws, hws, hwsAlike⟩ := leavesMany_item_text hi hne hus hjoins
        refine ⟨ws, hws, hwsAlike.trans ?_⟩
        have hgap : ps ++ us = .gap (textOf ps) :: us :=
          congrArg (· ++ us) (eq_gap_of_leaves hdata)
        rw [List.append_nil, ← hgap]
        exact (Alike.refl ps).append halike
      · apply hturn
        apply leaves_text hdata
        rw [htext, List.append_assoc]
        exact .inr hmark

theorem prefix_of_declaration (h : declaration.Takes i r) : "<?xml".toList <+: i := by
  obtain ⟨a, b, rfl, hmark, -⟩ := Construct.takes_seq_cons_iff.1 h
  rw [Construct.takes_literal_iff.1 hmark]
  exact List.prefix_append _ _

/-- An XML declaration in front of a text stays one when more follows. -/
theorem declaration_ne_none_append (h : declaration i ≠ none) (r : List Char) :
    declaration (i ++ r) ≠ none := by
  obtain ⟨a, b, rfl, htakes⟩ := fits_declaration.exists_takes (Option.isSome_iff_ne_none.2 h)
  obtain ⟨ps, rfl, hleaves⟩ := htakes.exists_leaves
  exact (leaves_declaration hleaves (b ++ r)).takes.ne_none (List.append_assoc _ _ _).symm

/-- No part of an XML declaration is a document, so none arises where documents meet. -/
theorem declaration_append (h : LeavesMany item ps []) (hnone : declaration (textOf ps) = none)
    (ht : ¬ "<?xml".toList <+: t) : declaration (textOf ps ++ t) = none := by
  by_contra hsome
  obtain ⟨d, e, hsplit, htakes⟩ := fits_declaration.exists_takes (Option.isSome_iff_ne_none.2 hsome)
  have hbegins {u : List Char} (hu : textOf ps = d ++ u) : False := by
    obtain ⟨us, rfl, hleaves⟩ := htakes.exists_leaves
    exact (leaves_declaration hleaves u).takes.ne_none hu.symm hnone
  rcases List.append_eq_append_iff.1 hsplit with ⟨u, hd, rfl⟩ | ⟨u, hps, -⟩
  · cases h with
    | nil _ =>
      rw [Piece.textOf_nil, List.nil_append] at hd
      exact ht (hd ▸ (prefix_of_declaration htakes).trans (List.prefix_append _ _))
    | @cons ps vs _ hps hvs =>
      rw [Piece.textOf_append, List.append_assoc] at hd
      have hwhole : textOf ps ++ (textOf vs ++ u ++ e) = d ++ e := by
        rw [hd]
        simp only [List.append_assoc]
      have hinstruction := takes_item (.instruction (instruction_of_declaration htakes)) e
      rcases item_of_leaves hps with hitem | hdata
      · -- The first item and the declaration begin alike, so they are the same.
        obtain ⟨hfirst, -⟩ := (takes_item hitem _).unique hinstruction hwhole
        exact hbegins (by rw [Piece.textOf_append, hfirst])
      · obtain ⟨hne, htext, -⟩ := characterData_of_takes hdata.takes
        obtain ⟨c, s, hcons⟩ := List.exists_cons_of_ne_nil hne
        have hmark := prefix_of_declaration htakes
        rw [hd, hcons] at hmark
        obtain ⟨rfl, -⟩ := List.cons_prefix_cons.1 hmark
        exact htext.noMarkup (hcons ▸ List.mem_cons_self)
  · exact hbegins hps

theorem leaves_document_iff : document.Leaves ps r ↔ ∃ ds us, ps = ds ++ us ∧
    (declaration.Leaves ds (textOf us ++ r) ∨ declaration (textOf us ++ r) = none ∧ ds = []) ∧
      LeavesMany item us r := by
  simp only [document, Construct.leaves_seq_cons_iff, Construct.leaves_seq_nil_iff,
    Construct.leaves_optional_iff, Construct.leaves_many_iff advances_item fits_item]
  constructor
  · rintro ⟨ds, _, rfl, hds, us, _, rfl, hus, rfl⟩
    rw [List.append_nil] at hds
    exact ⟨ds, us, by rw [List.append_nil], hds, hus⟩
  · rintro ⟨ds, us, rfl, hds, hus⟩
    exact ⟨ds, us, rfl, hds, us, [], (List.append_nil us).symm, hus, rfl⟩

theorem document_eq (s : List Char) : document s = some (scan s) := by
  obtain ⟨prolog, hprolog, hscan⟩ := scan_eq s
  rw [hscan]
  simp only [document, Construct.seq, Construct.readAll, hprolog, Construct.many]
  simp

/-- A document leaves something of every source, and a rest that it does not read. -/
theorem exists_leaves (s : List Char) :
    ∃ ps rest, s = textOf ps ++ rest ∧ document.Leaves ps rest := by
  refine ⟨_, _, ?_, fits_document.leaves (document_eq s)⟩
  rw [Piece.textOf_lasting, (fits_scan s).textOf_append_drop]

theorem scan_of_leaves (h : document.Leaves ps r) :
    Piece.tokens 0 (scan (textOf ps ++ r)) = Piece.tokens 0 ps ∧
      width (scan (textOf ps ++ r)) = (textOf ps).length := by
  obtain ⟨qs, hqs, rfl⟩ := h
  rw [document_eq] at hqs
  rw [Option.some.inj hqs, Piece.tokens_lasting, Piece.textOf_lasting, Piece.length_textOf]
  exact ⟨rfl, rfl⟩

/-- What a document leaves it leaves as well when the rest is cut off. -/
theorem leaves_document_cut (h : document.Leaves ps r) : document.Leaves ps [] := by
  obtain ⟨ds, us, rfl, hds, hus⟩ := leaves_document_iff.1 h
  refine leaves_document_iff.2 ⟨ds, us, rfl, ?_, leavesMany_item_cut hus⟩
  rcases hds with hdeclaration | ⟨hnone, rfl⟩
  · exact .inl (leaves_declaration hdeclaration _)
  · rw [List.append_nil]
    exact .inr ⟨by_contra fun hsome ↦ declaration_ne_none_append hsome r hnone, rfl⟩

/-- A document in front of another text leaves what it leaves alone, and behind it the text leaves
what it leaves alone. -/
theorem leaves_document_append (hps : document.Leaves ps []) (hqs : document.Leaves qs r)
    (hdeclaration : ¬ "<?xml".toList <+: textOf qs ++ r)
    (hjoins : Joins (textOf ps) (textOf qs ++ r)) :
    ∃ us, document.Leaves us r ∧ Alike us (ps ++ qs) := by
  obtain ⟨ds, us, rfl, hds, hus⟩ := leaves_document_iff.1 hps
  obtain ⟨es, vs, rfl, hes, hvs⟩ := leaves_document_iff.1 hqs
  obtain ⟨-, rfl⟩ : _ ∧ es = [] := hes.resolve_left fun hleaves ↦ hdeclaration <| by
    rw [Piece.textOf_append, List.append_assoc]
    exact (prefix_of_declaration hleaves.takes).trans (List.prefix_append _ _)
  rw [List.nil_append] at hdeclaration hjoins ⊢
  rw [Piece.textOf_append] at hjoins
  obtain ⟨ws, hws, halike⟩ := leavesMany_item_append hus hvs hjoins.of_append
  rw [List.append_assoc]
  refine ⟨ds ++ ws, leaves_document_iff.2 ⟨ds, ws, rfl, ?_, hws⟩, (Alike.refl ds).append halike⟩
  refine hds.imp (fun hleaves ↦ leaves_declaration hleaves _) ?_
  rintro ⟨hnone, rfl⟩
  rw [List.append_nil] at hnone
  rw [halike.textOf_eq, Piece.textOf_append, List.append_assoc]
  exact ⟨declaration_append hus hnone hdeclaration, rfl⟩

/-- Where nothing begins an item there is nothing at all, or one of the marks that end text. -/
theorem marks_of_leavesMany (h : LeavesMany item ps r) :
    r = [] ∨ "<".toList <+: r ∨ "&".toList <+: r ∨ "]]>".toList <+: r := by
  refine (dataLength_eq_zero_iff.1 (dataLength_of_none h.ends)).imp_right fun hends ↦ ?_
  rw [endsData, Bool.or_eq_true, Text.startsWith_iff] at hends
  rcases hends with hmark | hsection
  · cases r with
    | nil => exact absurd hmark (by decide)
    | cons c r =>
      rw [Text.startsIn_cons, Bool.or_eq_true, beq_iff_eq, beq_iff_eq] at hmark
      rcases hmark with rfl | rfl
      · exact .inl (List.cons_prefix_cons.2 ⟨rfl, List.nil_prefix⟩)
      · exact .inr (.inl (List.cons_prefix_cons.2 ⟨rfl, List.nil_prefix⟩))
  · exact .inr (.inr hsection)

end Xml

/-! ## Scans -/

section

variable {ps : List (Piece Kind)} {source rest : List Char}
  (hsource : source = Piece.textOf ps ++ rest) (h : Xml.document.Leaves ps rest)

include hsource h

variable [Text.IdentifierClasses]

/-- What a document leaves of a source are its tokens. -/
theorem Language.tokens_xml_of_leaves (options : Options) : xml.tokens options source =
    if options.coalescing then coalesce (Piece.tokens 0 ps) else Piece.tokens 0 ps := by
  rw [hsource, tokens, scan, (Xml.scan_of_leaves h).1]

/-- A source is read to its end if a document leaves no rest of it. -/
theorem highlight_xml_of_leaves (options : Options) (sink : Sink) :
    (highlight .xml options source sink).2 =
      if rest = [] then .ok () else .error (.badCode .xml) := by
  have hcompletes : Language.xml.completes options.strict source = decide (rest = []) := by
    rw [hsource, Language.completes, Language.scan, (Xml.scan_of_leaves h).2, List.length_append,
      decide_eq_decide, Nat.left_eq_add, List.length_eq_zero_iff]
  rw [highlight_eq, hcompletes]
  simp [Language.result]

end

/-- Where XML cannot be read to its end, what was read of it is a part of the source in front of a
mark that ends text, and that part alone is read to its end with the same tokens. -/
theorem highlight_xml_stops [Text.IdentifierClasses]
    (options : Options) {source : List Char} {sink : Sink}
    (h : (highlight .xml options source sink).2 ≠ .ok ()) :
    (highlight .xml options source sink).2 = .error (.badCode .xml) ∧
      ∃ front rest, source = front ++ rest ∧ Text.byteLength front < Text.byteLength source ∧
        ("<".toList <+: rest ∨ "&".toList <+: rest ∨ "]]>".toList <+: rest) ∧
        highlight .xml options front sink = ((highlight .xml options source sink).1, .ok ()) := by
  obtain ⟨ps, rest, hsource, hps⟩ := Xml.exists_leaves source
  have hfront := (List.append_nil (Piece.textOf ps)).symm
  have hcut := Xml.leaves_document_cut hps
  have hresult := highlight_xml_of_leaves hsource hps options sink
  have hrest : rest ≠ [] := by
    intro hnil
    rw [hresult, if_pos hnil] at h
    exact h rfl
  obtain ⟨ds, us, -, -, hus⟩ := Xml.leaves_document_iff.1 hps
  refine ⟨by rw [hresult, if_neg hrest], Piece.textOf ps, rest, hsource, ?_,
    (Xml.marks_of_leavesMany hus).resolve_left hrest, Prod.ext ?_ ?_⟩
  · have hpos := Nat.pos_of_ne_zero (Text.byteLength_eq_zero.not.2 hrest)
    rw [hsource, Text.byteLength_append]
    omega
  · rw [highlight_eq, highlight_eq, Language.tokens_xml_of_leaves hfront hcut,
      Language.tokens_xml_of_leaves hsource hps]
  · rw [highlight_xml_of_leaves hfront hcut, if_pos rfl]

/-- A tag that is not closed leaves nothing of its own behind. -/
theorem highlight_xml_stops_at_tag :
    let source := "<b/>]<a c='&amp;".toList
    (highlight .xml {} source .empty).2 = .error (.badCode .xml) ∧
      ∃ front rest, source = front ++ rest ∧ Text.byteLength front < Text.byteLength source ∧
        ("<".toList <+: rest ∨ "&".toList <+: rest ∨ "]]>".toList <+: rest) ∧
        highlight .xml {} front .empty = ((highlight .xml {} source .empty).1, .ok ()) :=
  highlight_xml_stops {} (by decide +kernel)

/-- A source of XML in front of another one, which does not begin with an XML declaration, is read
as if it stood alone, and the other one as if it stood alone behind it, unless a `]]>` stands across
the joint. -/
theorem highlight_xml_append [Text.IdentifierClasses]
    (strict : Bool) {first second : List Char} {sink : Sink}
    (hfirst : (highlight .xml { coalescing := false, strict } first sink).2 = .ok ())
    (hdeclaration : ¬ "<?xml".toList <+: second)
    (htwo : ¬ ("]]".toList <:+ first ∧ ">".toList <+: second))
    (hone : ¬ ("]".toList <:+ first ∧ "]>".toList <+: second)) :
    let options : Options := { coalescing := false, strict }
    let before := highlight .xml options first sink
    let behind := highlight .xml options second sink
    let both := highlight .xml options (first ++ second) sink
    both.2 = behind.2 ∧
      both.1.currentScan.toList = before.1.currentScan.toList ++
        behind.1.currentScan.toList.map (Token.shift (Text.byteLength first)) := by
  intro options before behind both
  obtain ⟨ps, rest, hps, hpsLeaves⟩ := Xml.exists_leaves first
  obtain ⟨qs, rest', hqs, hqsLeaves⟩ := Xml.exists_leaves second
  obtain rfl : rest = [] := by
    rw [highlight_xml_of_leaves hps hpsLeaves] at hfirst
    by_contra hrest
    rw [if_neg hrest] at hfirst
    exact absurd hfirst (by simp)
  have hjoins : Xml.Joins (Piece.textOf ps) (Piece.textOf qs ++ rest') := by
    rw [← hqs, ← List.append_nil (Piece.textOf ps), ← hps]
    exact ⟨htwo, hone⟩
  obtain ⟨us, husLeaves, halike⟩ :=
    Xml.leaves_document_append hpsLeaves hqsLeaves (hqs ▸ hdeclaration) hjoins
  have hus : first ++ second = Piece.textOf us ++ rest' := by
    rw [hps, hqs, halike.textOf_eq, Piece.textOf_append, List.append_nil, List.append_assoc]
  constructor
  · simp only [both, behind]
    rw [highlight_xml_of_leaves hus husLeaves, highlight_xml_of_leaves hqs hqsLeaves]
  · simp only [both, before, behind, currentScan_highlight]
    rw [Language.tokens_xml_of_leaves hus husLeaves, Language.tokens_xml_of_leaves hps hpsLeaves,
      Language.tokens_xml_of_leaves hqs hqsLeaves]
    simp only [options, Bool.false_eq_true, if_false]
    rw [List.append_nil] at hps
    rw [halike.tokens_eq, Piece.tokens_append, Nat.zero_add, hps, ← Piece.tokens_add, Nat.add_zero]

/-- Text on both sides of the joint is read together. -/
theorem highlight_xml_append_text :
    let options : Options := {}
    let first := "<a>]]".toList
    let second := "x&y;<".toList
    let before := highlight .xml options first .empty
    let behind := highlight .xml options second .empty
    let both := highlight .xml options (first ++ second) .empty
    (both.2 = behind.2 ∧
      both.1.currentScan.toList = before.1.currentScan.toList ++
        behind.1.currentScan.toList.map (Token.shift (Text.byteLength first))) ∧
      both.1.currentScan.toList =
        [⟨0, 1, .symPunc⟩, ⟨1, 1, .markupTag⟩, ⟨2, 1, .symPunc⟩, ⟨6, 3, .escape⟩] :=
  ⟨highlight_xml_append false (by decide +kernel) (by decide) (by decide) (by decide),
    by decide +kernel⟩

end Highlight
