import Highlight.Proofs.JavaScript.Placed
import Highlight.Text.Unicode

/-!
# Tags with more white space and comments

Where one part of a tag ends and the next one begins, white space and comments may be put in. What
is read before the place does not change, since a name ends before white space and before a slash,
and what is read behind it is the same as before. Two slashes are an exception: the one of an
opening bracket and the one of a closing tag are looked for without regard to comments, so a comment
right behind a bracket makes a closing tag of it, and one right behind the slash of a closing tag
takes the slash with it.
-/

namespace Highlight.JavaScript

open Grammar (BlockComment LineComment)
open Piece (textOf lasting)

variable {kind : TagKind} {ps f b : List (Piece TagPart)} {w r : List Char}

/-- White space or a comment. A line comment is there with the end of its line. -/
inductive Filler : List Char → Prop
  | space {g : List Char} : g ≠ [] → (∀ c ∈ g, isSpace c) → Filler g
  | lineComment {u g : List Char} : LineComment u → Text.startsIn isLineTerminator g →
      (∀ c ∈ g, isSpace c) → Filler (u ++ g)
  | blockComment {u : List Char} : BlockComment u → Filler u

theorem Filler.exists_trivia (h : Filler w) : ∃ a, Trivia a ∧ textOf a = w := by
  cases h with
  | space hg hall => exact ⟨[.gap w], .space hg hall .nil, textOf_single _⟩
  | @lineComment u g hcomment hends hall =>
    have hg : g ≠ [] := List.ne_nil_of_length_pos (Text.length_pos_of_startsIn hends)
    have hspace : Trivia [.gap g] := .space hg hall .nil
    refine ⟨.token .comment u :: [.gap g], .lineComment hcomment ?_ hspace, ?_⟩
    · rwa [textOf_single]
    · rw [Piece.textOf_cons, textOf_single]
      rfl
  | blockComment hcomment =>
    exact ⟨[.token .comment w], .blockComment hcomment .nil, textOf_single _⟩

theorem Filler.ne_nil (h : Filler w) : w ≠ [] := by
  cases h with
  | space hg => exact hg
  | lineComment hcomment => exact List.append_ne_nil_of_left_ne_nil hcomment.ne_nil _
  | blockComment hcomment => exact hcomment.ne_nil

theorem Filler.exists_cons (h : Filler w) : ∃ c v, w = c :: v ∧ (isSpace c ∨ c = '/') := by
  obtain ⟨a, ha, rfl⟩ := h.exists_trivia
  refine ha.exists_cons ?_
  rintro rfl
  exact h.ne_nil rfl

/-- What is put in behind a line comment belongs to it up to the end of the line, and white space
follows. -/
def Joins (w : List Char) : Prop :=
  ∃ u g, w = u ++ g ∧ (∀ c ∈ u, isLineTerminator c = false) ∧
    (g ≠ [] → Text.startsIn isLineTerminator g) ∧ ∀ c ∈ g, isSpace c

theorem Grammar.LineComment.isLineTerminator_eq_false {u : List Char} (h : LineComment u) :
    ∀ c ∈ u, isLineTerminator c = false := by
  obtain ⟨hbody⟩ := h
  exact List.forall_mem_append.2 ⟨by simp [isLineTerminator], hbody⟩

theorem Grammar.LineComment.append {u v : List Char} (h : LineComment u)
    (hv : ∀ c ∈ v, isLineTerminator c = false) : LineComment (u ++ v) := by
  obtain ⟨hbody⟩ := h
  rw [List.append_assoc]
  exact .mk (List.forall_mem_append.2 ⟨hbody, hv⟩)

theorem Filler.joins (h : Filler w)
    (hline : BlockComment w → ∀ c ∈ w, isLineTerminator c = false) : Joins w := by
  cases h with
  | space hg hall =>
    obtain ⟨u, g, rfl, hu, hends⟩ := Text.exists_run (!isLineTerminator ·) w
    refine ⟨u, g, rfl, fun c hc ↦ ?_, fun hne ↦ (Text.startsIn_not_iff hne).1 hends, ?_⟩
    · simpa using hu c hc
    · exact (List.forall_mem_append.1 hall).2
  | lineComment hcomment hends hall =>
    exact ⟨_, _, rfl, hcomment.isLineTerminator_eq_false, fun _ ↦ hends, hall⟩
  | blockComment hcomment =>
    exact ⟨w, [], (List.append_nil w).symm, hline hcomment, fun hne ↦ absurd rfl hne,
      List.forall_mem_nil _⟩

/-- A place among pieces, given by what stands before it and behind it. It lies between two pieces
or in white space. -/
inductive Cut : List (Piece TagPart) → List (Piece TagPart) → List (Piece TagPart) → Prop
  | here {ps : List (Piece TagPart)} : Cut ps [] ps
  | inside {u v : List Char} {ps : List (Piece TagPart)} : u ≠ [] → v ≠ [] →
      Cut (.gap (u ++ v) :: ps) [.gap u] (.gap v :: ps)
  | behind {piece : Piece TagPart} {ps f b : List (Piece TagPart)} : Cut ps f b →
      Cut (piece :: ps) (piece :: f) b

theorem Cut.textOf_eq (h : Cut ps f b) : textOf ps = textOf f ++ textOf b := by
  induction h with
  | here => rfl
  | inside => simp [Piece.text]
  | behind _ ih => rw [Piece.textOf_cons, ih, Piece.textOf_cons, List.append_assoc]

/-- Something stands before a place that is not at the front. -/
theorem Cut.textOf_ne_nil (h : Cut ps f b) (hps : ∀ piece ∈ ps, piece.text ≠ []) (hf : f ≠ []) :
    textOf f ≠ [] := by
  cases h with
  | here => exact absurd rfl hf
  | inside hu => rwa [textOf_single]
  | behind _ =>
    rw [Piece.textOf_cons]
    exact List.append_ne_nil_of_left_ne_nil (hps _ List.mem_cons_self) _

/-- A place among joined pieces lies before the joint, behind it or in the piece at it. -/
theorem Cut.append_cons {a : List (Piece TagPart)} {piece : Piece TagPart}
    (h : Cut (a ++ piece :: ps) f b) :
    (∃ a', Cut a f a' ∧ b = a' ++ piece :: ps) ∨ (∃ f', Cut ps f' b ∧ f = a ++ piece :: f') ∨
      ∃ u v, u ≠ [] ∧ v ≠ [] ∧ piece = .gap (u ++ v) := by
  induction a generalizing f with
  | nil =>
    cases h with
    | here => exact .inl ⟨[], .here, rfl⟩
    | inside hu hv => exact .inr (.inr ⟨_, _, hu, hv, rfl⟩)
    | behind hcut => exact .inr (.inl ⟨_, hcut, rfl⟩)
  | cons first a ih =>
    cases h with
    | here => exact .inl ⟨_, .here, rfl⟩
    | inside hu hv => exact .inl ⟨_, .inside hu hv, rfl⟩
    | behind hcut =>
      rcases ih hcut with ⟨a', ha, rfl⟩ | ⟨f', hps, rfl⟩ | hpiece
      · exact .inl ⟨a', .behind ha, rfl⟩
      · exact .inr (.inl ⟨f', hps, rfl⟩)
      · exact .inr (.inr hpiece)

theorem getLast?_append_cons {α : Type} {a l : List α} {x y : α} (h : l.getLast? = some x) :
    (a ++ y :: l).getLast? = some x := by
  rw [List.getLast?_append, List.getLast?_cons, h]
  rfl

/-- What stands before a place ends with a line comment. -/
def EndsInLine (f : List (Piece TagPart)) : Prop :=
  ∃ s, LineComment s ∧ f.getLast? = some (.token .comment s)

theorem EndsInLine.cons (h : EndsInLine f) (piece : Piece TagPart) : EndsInLine (piece :: f) := by
  obtain ⟨s, hcomment, hlast⟩ := h
  rw [← List.nil_append (piece :: f)]
  exact ⟨s, hcomment, getLast?_append_cons hlast⟩

/-- Behind a line comment what is put in goes on with it. -/
theorem Trivia.lineComment_joins {s : List Char} (h : Trivia ps) (hcomment : LineComment s)
    (hends : Text.startsIn isLineTerminator (textOf ps)) (hw : Joins w) :
    ∃ a, Trivia a ∧ textOf a = s ++ (w ++ textOf ps) := by
  obtain ⟨u, g, rfl, hu, hg, hall⟩ := hw
  by_cases hnil : g = []
  · subst hnil
    refine ⟨.token .comment (s ++ u) :: ps, .lineComment (hcomment.append hu) hends h, ?_⟩
    simp [Piece.text]
  · refine ⟨.token .comment (s ++ u) :: .gap g :: ps,
      .lineComment (hcomment.append hu) ?_ (.space hnil hall h), ?_⟩
    · rw [Piece.textOf_cons]
      change Text.startsIn isLineTerminator (g ++ textOf ps)
      rw [Text.startsIn_append hnil]
      exact hg hnil
    · simp [Piece.text]

/-- Where trivia is parted, more may be put in. -/
theorem Trivia.insert (h : Trivia ps) (hcut : Cut ps f b) (hw : Filler w)
    (hline : EndsInLine f → Joins w) :
    ∃ a, Trivia a ∧ textOf a = textOf f ++ (w ++ textOf b) := by
  obtain ⟨filler, hfiller, htext⟩ := hw.exists_trivia
  induction hcut with
  | here => exact ⟨filler ++ _, hfiller.append h, by rw [Piece.textOf_append, htext]; rfl⟩
  | @inside u v ps hu hv =>
    cases h with
    | space _ hall hps =>
      obtain ⟨hall, hall'⟩ := List.forall_mem_append.1 hall
      refine ⟨.gap u :: (filler ++ .gap v :: ps), .space hu hall ?_, ?_⟩
      · exact hfiller.append (.space hv hall' hps)
      · simp [htext, Piece.text]
  | @behind piece ps f b hcut ih =>
    have hbehind (hps : Trivia ps) : ∃ a, Trivia a ∧ textOf a = textOf f ++ (w ++ textOf b) :=
      ih hps fun hends ↦ hline (hends.cons piece)
    have hcons {a : List (Piece TagPart)} (ha : textOf a = textOf f ++ (w ++ textOf b)) :
        textOf (piece :: a) = textOf (piece :: f) ++ (w ++ textOf b) := by
      rw [Piece.textOf_cons, ha, Piece.textOf_cons, List.append_assoc]
    cases h with
    | space hg hall hps =>
      obtain ⟨a, ha, hatext⟩ := hbehind hps
      exact ⟨_ :: a, .space hg hall ha, hcons hatext⟩
    | blockComment hcomment hps =>
      obtain ⟨a, ha, hatext⟩ := hbehind hps
      exact ⟨_ :: a, .blockComment hcomment ha, hcons hatext⟩
    | @lineComment s _ hcomment hends hps =>
      by_cases hf : f = []
      · subst hf
        cases hcut
        rw [textOf_single]
        exact hps.lineComment_joins hcomment hends (hline ⟨s, hcomment, rfl⟩)
      · obtain ⟨a, ha, hatext⟩ := hbehind hps
        refine ⟨_ :: a, .lineComment hcomment ?_ ha, hcons hatext⟩
        have hne := hcut.textOf_ne_nil (fun piece hmem ↦ (hps.holds piece hmem).text_ne_nil) hf
        rw [hcut.textOf_eq, Text.startsIn_append hne] at hends
        rwa [hatext, Text.startsIn_append hne]

section

variable [Text.IdentifierClasses]

theorem Goes.cut {place next : Place} {piece : Piece TagPart} {t : List Char}
    (h : Goes (r ++ t) place piece next) (hr : r ≠ []) : Goes r place piece next := by
  cases h with
  | name hn hlength => exact .name hn (tagNameLength_cut hn hlength)
  | slash hnone => exact .slash (by rwa [Text.startsIn_append hr] at hnone)
  | closingName hn hlength => exact .closingName hn (tagNameLength_cut hn hlength)
  | attributeName hplace hn hlength =>
    exact .attributeName hplace hn (attributeNameLength_cut hn hlength)
  | spread hplace hs => exact .spread hplace hs
  | equals => exact .equals
  | string hquote hs => exact .string hquote hs
  | code hs => exact .code hs

/-- A part may stand in front of what is put in, but the slash of a closing tag not in front of a
comment. -/
theorem Goes.before_filler {place next : Place} {piece : Piece TagPart}
    (h : Goes r place piece next) (hw : Filler w)
    (hslash : piece = punctuation "/" → Text.startsIn (· == '/') w = false) (t : List Char) :
    Goes (w ++ t) place piece next := by
  obtain ⟨c, v, rfl, hc⟩ := hw.exists_cons
  have hends : EndsName c := by
    rcases hc with hc | rfl
    · exact endsName_of_isSpace hc
    · exact endsName_slash
  have htagName {n : List Char} (hn : n ≠ []) (hlength : tagNameLength (n ++ r) = n.length) :
      tagNameLength (n ++ (c :: v ++ t)) = n.length := by
    rw [← List.nil_append r] at hlength
    have hcut := tagNameLength_cut hn hlength
    rw [List.append_nil] at hcut
    rw [List.cons_append, tagNameLength_append_cons hends, hcut]
  cases h with
  | name hn hlength => exact .name hn (htagName hn hlength)
  | slash _ =>
    have hnone := hslash rfl
    rw [Text.startsIn_cons] at hnone
    refine .slash ?_
    have hstar : (c == '*') = false := by
      rw [beq_eq_false_iff_ne]
      rintro rfl
      exact absurd hc (by decide)
    change (c == '/' || c == '*') = false
    rw [hnone, hstar, Bool.or_false]
  | closingName hn hlength => exact .closingName hn (htagName hn hlength)
  | attributeName hplace hn hlength =>
    rw [← List.nil_append r] at hlength
    have hcut := attributeNameLength_cut hn hlength
    rw [List.append_nil] at hcut
    refine .attributeName hplace hn ?_
    rw [List.cons_append, attributeNameLength_append_cons hends, hcut]
  | spread hplace hs => exact .spread hplace hs
  | equals => exact .equals
  | string hquote hs => exact .string hquote hs
  | code hs => exact .code hs

/-- A gap of a tag is a single equals sign, so it has no place within. -/
theorem Goes.ne_gap_append {place next : Place} {piece : Piece TagPart}
    (h : Goes r place piece next) {u v : List Char} (hu : u ≠ []) (hv : v ≠ []) :
    piece ≠ .gap (u ++ v) := by
  intro heq
  subst heq
  generalize hg : u ++ v = g at h
  cases h with
  | equals =>
    have hlength := congrArg List.length hg
    have hupos := List.length_pos_iff.2 hu
    have hvpos := List.length_pos_iff.2 hv
    rw [List.length_append] at hlength
    change u.length + v.length = 1 at hlength
    omega

/-- What is left of a tag is left of one where more is put in. -/
theorem Rest.insert {place : Place} (h : Rest place ps kind) (hcut : Cut ps f b) (hb : b ≠ [])
    (hw : Filler w) (hline : EndsInLine f → Joins w)
    (hslash : f.getLast? = some (punctuation "/") → Text.startsIn (· == '/') w = false) :
    ∃ qs, Rest place qs kind ∧ textOf qs = textOf f ++ (w ++ textOf b) := by
  induction h generalizing f with
  | @ends place a piece kind ha hends =>
    rcases hcut.append_cons with ⟨a', hfirst, rfl⟩ | ⟨f', hbehind, -⟩ | ⟨u, v, -, -, rfl⟩
    · obtain ⟨more, hmore, htext⟩ := ha.insert hfirst hw hline
      refine ⟨more ++ [piece], .ends hmore hends, ?_⟩
      rw [Piece.textOf_append, htext, Piece.textOf_append, List.append_assoc, List.append_assoc]
    · cases hbehind
      exact absurd rfl hb
    · cases hends
  | @goes place next a ps piece kind ha hgoes hrest ih =>
    rcases hcut.append_cons with ⟨a', hfirst, rfl⟩ | ⟨f', hbehind, rfl⟩ | ⟨u, v, hu, hv, hpiece⟩
    · obtain ⟨more, hmore, htext⟩ := ha.insert hfirst hw hline
      refine ⟨more ++ piece :: ps, .goes hmore hgoes hrest, ?_⟩
      rw [Piece.textOf_append, htext, Piece.textOf_append, List.append_assoc, List.append_assoc]
    · have hline' : EndsInLine f' → Joins w := fun ⟨s, hcomment, hlast⟩ ↦
        hline ⟨s, hcomment, getLast?_append_cons hlast⟩
      obtain ⟨qs, hqs, htext⟩ := ih hbehind hline' fun hlast ↦ hslash (getLast?_append_cons hlast)
      refine ⟨a ++ piece :: qs, .goes ha ?_ hqs, ?_⟩
      · rw [htext]
        by_cases hf : f' = []
        · subst hf
          refine hgoes.before_filler hw (fun hpiece ↦ hslash ?_) _
          rw [List.getLast?_concat, hpiece]
        · have hne := hbehind.textOf_ne_nil
            (fun piece hmem ↦ (hrest.holds piece hmem).text_ne_nil) hf
          rw [hbehind.textOf_eq] at hgoes
          exact (hgoes.cut hne).append hne _
      · simp only [Piece.textOf_append, Piece.textOf_cons, htext, List.append_assoc]
    · exact absurd hpiece (hgoes.ne_gap_append hu hv)

/-! ## Whole tags -/

omit [Text.IdentifierClasses] in
theorem Cut.exists_front {label : TagPart} {text : List Char}
    (h : Cut (.token label text :: ps) f b) (hf : f ≠ []) :
    ∃ f', Cut ps f' b ∧ f = .token label text :: f' := by
  cases h with
  | here => exact absurd rfl hf
  | behind hcut => exact ⟨_, hcut, rfl⟩

/-- White space and comments may stand between any two parts of a tag, but no comment right behind
the bracket that opens it or behind the slash that stands apart from this bracket. -/
theorem IsTag.insert (h : IsTag ps kind) (hcut : Cut ps f b) (hf : f ≠ []) (hb : b ≠ [])
    (hw : Filler w) (hline : EndsInLine f → Joins w)
    (hslash : f.getLast? = some (punctuation "<") ∨ f.getLast? = some (punctuation "/") →
      Text.startsIn (· == '/') w = false) :
    ∃ qs, IsTag qs kind ∧ textOf qs = textOf f ++ (w ++ textOf b) := by
  have hbehind {lit : String} {f' : List (Piece TagPart)} {piece : Piece TagPart}
      (hlast : f'.getLast? = some piece) : (punctuation lit :: f').getLast? = some piece :=
    getLast?_append_cons (a := []) hlast
  cases h with
  | @opened ps _ hopened hrest =>
    obtain ⟨f', hplace, rfl⟩ := hcut.exists_front hf
    obtain ⟨qs, hqs, htext⟩ := hrest.insert hplace hb hw
      (fun ⟨s, hcomment, hlast⟩ ↦ hline ⟨s, hcomment, hbehind hlast⟩)
      (fun hlast ↦ hslash (.inr (hbehind hlast)))
    refine ⟨punctuation "<" :: qs, .opened ?_ hqs, ?_⟩
    · rw [htext]
      by_cases hnil : f' = []
      · subst hnil
        change Text.startsIn (· == '/') (w ++ textOf b) = false
        rw [Text.startsIn_append hw.ne_nil]
        exact hslash (.inl rfl)
      · have hne := hplace.textOf_ne_nil
          (fun piece hmem ↦ (hrest.holds piece hmem).text_ne_nil) hnil
        rw [hplace.textOf_eq, Text.startsIn_append hne] at hopened
        rwa [Text.startsIn_append hne]
    · rw [Piece.textOf_cons, htext, Piece.textOf_cons, List.append_assoc]
      rfl
  | @closing ps _ hrest =>
    obtain ⟨f', hplace, rfl⟩ := hcut.exists_front hf
    obtain ⟨qs, hqs, htext⟩ := hrest.insert hplace hb hw
      (fun ⟨s, hcomment, hlast⟩ ↦ hline ⟨s, hcomment, hbehind hlast⟩)
      (fun hlast ↦ hslash (.inr (hbehind hlast)))
    refine ⟨punctuation "</" :: qs, .closing hqs, ?_⟩
    rw [Piece.textOf_cons, htext, Piece.textOf_cons, List.append_assoc]
    rfl

/-- White space and comments may be put in between any two parts of a tag, and it stays a tag of its
kind. Two places are left out. A comment may not stand right behind the bracket that opens a tag,
nor behind the slash of a closing tag that stands apart from its bracket; and a line comment goes on
up to the end of its line, so a block comment right behind it may not go over several lines. -/
theorem tag_insert_filler {s : List Char} {parts : List (Piece TagPart)}
    (h : tag? s = some (kind, parts)) (hcut : Cut (lasting parts) f b) (hf : f ≠ []) (hb : b ≠ [])
    (hw : Filler w)
    (hline : EndsInLine f → BlockComment w → ∀ c ∈ w, isLineTerminator c = false)
    (hslash : f.getLast? = some (punctuation "<") ∨ f.getLast? = some (punctuation "/") →
      Text.startsIn (· == '/') w = false) :
    ∃ again, tag? (textOf f ++ w ++ textOf b) = some (kind, again) ∧
      textOf again = textOf f ++ w ++ textOf b := by
  have hjoins : EndsInLine f → Joins w := fun hends ↦ hw.joins (hline hends)
  obtain ⟨qs, hqs, htext⟩ := (isTag_of_tag? h).insert hcut hf hb hw hjoins hslash
  obtain ⟨again, hagain, hsame⟩ := hqs.tag?_append []
  rw [List.append_nil, htext, ← List.append_assoc] at hagain
  exact ⟨again, hagain, by rw [hsame, htext, List.append_assoc]⟩

end

/-- A comment may stand behind the name of a tag. -/
theorem tag_insert_filler_name : ∃ again, tag? "<a/*c*/>".toList = some (.opening, again) ∧
    textOf again = "<a/*c*/>".toList := by
  have hcut : Cut (lasting [punctuation "<", .token .tagName "a".toList, punctuation ">"])
      [punctuation "<", .token .tagName "a".toList] [punctuation ">"] :=
    .behind (.behind .here)
  have hcomment : BlockComment "/*c*/".toList :=
    .mk (show ¬ "*/".toList <:+: "c".toList ++ ['*'] by decide)
  have htag := tag_insert_filler (tag?_opening []) hcut (List.cons_ne_nil _ _)
    (List.cons_ne_nil _ _) (.blockComment hcomment) (fun _ _ ↦ by simp [isLineTerminator])
    (by simp [punctuation])
  generalize hs : textOf _ ++ _ ++ textOf _ = s at htag
  obtain rfl : s = "<a/*c*/>".toList := hs.symm
  exact htag

/-- What begins like a closing tag with a star behind its slash is no tag. -/
theorem tag?_star [Text.IdentifierClasses] (t : List Char) : tag? ("</*".toList ++ t) = none := by
  cases htag : tag? ("</*".toList ++ t) with
  | none => rfl
  | some found =>
    obtain ⟨kind, parts⟩ := found
    have hwhole := (fits_tag? htag).textOf_append_drop
    have hform := isTag_of_tag? htag
    rw [← Piece.textOf_lasting] at hwhole
    generalize lasting parts = pieces at hwhole hform
    cases hform with
    | @opened ps _ hopened hrest =>
      have hbehind : textOf ps ++ _ = '/' :: '*' :: t := (List.cons.inj hwhole).2
      rw [← Text.startsIn_append hrest.textOf_ne_nil, hbehind] at hopened
      exact absurd hopened (by simp)
    | @closing ps _ hrest =>
      have hbehind : textOf ps ++ _ = '*' :: t := (List.cons.inj (List.cons.inj hwhole).2).2
      have hstar := hrest.startsIn_star
      rw [← Text.startsIn_append hrest.textOf_ne_nil, hbehind] at hstar
      exact absurd hstar (by simp)

theorem isTag_a : IsTag [punctuation "<", .token .tagName "a".toList, punctuation "/>"]
    .selfClosing := by
  have hname : markupIdentifierLength ['a'] = 1 := by
    simp [markupIdentifierLength, Text.wordLength, identifier_a]
  have hafter : afterName (membersLengthFrom 0) [] = some 0 := by
    rw [afterName, membersLengthFrom]
    rfl
  have hlength : tagNameLength ['a'] = 1 := by
    rw [tagNameLength, qualifiedLength_eq, hname, if_neg Nat.one_ne_zero, List.drop_succ_cons,
      List.drop_zero, hafter]
    rfl
  have hgoes : Goes (textOf [punctuation "/>"]) .opened (.token .tagName "a".toList) .inside := by
    have hsplit : "a".toList ++ textOf [punctuation "/>"] = ['a'] ++ '/' :: ['>'] := rfl
    refine .name (List.cons_ne_nil _ _) ?_
    rw [hsplit, tagNameLength_append_cons endsName_slash, hlength]
    rfl
  have hend : Rest .inside [punctuation "/>"] .selfClosing := .ends .nil (.selfClosing rfl)
  exact .opened rfl (.goes .nil hgoes hend)

/-- A comment may not stand between the bracket of `<a/>` and its name. -/
theorem tag_comment_behind_bracket :
    (∃ parts ps, tag? "<a/>".toList = some (.selfClosing, parts) ∧
      textOf parts = "<a/>".toList ∧ Cut (lasting parts) [punctuation "<"] ps ∧
      textOf ps = "a/>".toList) ∧
    BlockComment "/*c*/".toList ∧
    tag? ("<".toList ++ "/*c*/".toList ++ "a/>".toList) = none := by
  have hcomment : BlockComment "/*c*/".toList :=
    .mk (show ¬ "*/".toList <:+: "c".toList ++ ['*'] by decide)
  have hjoined : "<".toList ++ "/*c*/".toList ++ "a/>".toList =
      "</*".toList ++ "c*/a/>".toList := rfl
  obtain ⟨parts, htag, htext⟩ := isTag_a.tag?_append []
  generalize hs : textOf _ = s at htag htext
  obtain rfl : s = "<a/>".toList := hs.symm
  rw [List.append_nil] at htag
  have hform := isTag_of_tag? htag
  have hlasting := Piece.textOf_lasting parts
  rw [htext] at hlasting
  generalize hpieces : lasting parts = pieces at hform hlasting
  rw [hjoined]
  refine ⟨⟨parts, pieces.drop 1, htag, htext, ?_, ?_⟩, hcomment, tag?_star _⟩
  · rw [hpieces]
    cases hform with
    | opened => exact .behind .here
    | closing => simp [punctuation, Piece.text] at hlasting
  · cases hform with
    | opened => exact (List.cons.inj hlasting).2
    | closing => simp [punctuation, Piece.text] at hlasting

end Highlight.JavaScript
