import Highlight.Proofs.Coalescing
import Highlight.Proofs.Piece.Labels
import Highlight.Proofs.Progress

/-!
# The tokens of a scan

A scan adds tokens to a sink and changes none of those that are there. Which ones it adds depends on
the source, the language and the options alone: they are the laid out pieces of the source, merged
if the options say so. Neither the marks that a scan takes nor the token in front of it nor poison
left by an earlier scan can be told from the outcome.
-/

namespace Highlight

namespace Sink

/-- The tokens of the scans before the current one. -/
def earlier (sink : Sink) : List Token := sink.tokens.toList.take sink.scanStart

theorem earlier_append_currentScan (sink : Sink) :
    sink.earlier ++ sink.currentScan.toList = sink.tokens.toList := by
  rw [earlier, toList_currentScan, List.take_append_drop]

theorem earlier_startScan (sink : Sink) : sink.startScan.earlier = sink.tokens.toList :=
  List.take_length

theorem earlier_push {sink : Sink} (h : sink.WellFormed) (token : Token) :
    (sink.push token).earlier = sink.earlier := by
  rw [earlier, push, Array.toList_push]
  exact List.take_append_of_le_length (by simpa using show _ ≤ _ from h)

theorem earlier_resizeLast {sink : Sink} {last : Token} (h : sink.last? = some last)
    (length : Nat) : (sink.resizeLast length).earlier = sink.earlier := by
  have hscan : sink.scanStart < sink.tokens.size := by
    by_contra hempty
    rw [last?, if_neg hempty] at h
    exact absurd h (by simp)
  rw [earlier, resizeLast, Array.toList_modify, List.take_modify, List.modify_eq_self]
  · rfl
  · change (sink.tokens.toList.take sink.scanStart).length ≤ _
    rw [List.length_take]
    omega

theorem earlier_merge {sink : Sink} (h : sink.WellFormed) (token : Token) :
    (sink.merge token).earlier = sink.earlier := by
  rcases merge_cases sink token with hpush | ⟨last, hlast, -, -, hresize⟩
  · rw [hpush]
    exact earlier_push h token
  · rw [hresize]
    exact earlier_resizeLast hlast _

theorem earlier_accept {sink : Sink} (token : Token) {store : Sink → Sink}
    (h : (store sink).earlier = sink.earlier) :
    (sink.accept token store).earlier = sink.earlier := by
  apply accept_cases (motive := fun after ↦ after.earlier = sink.earlier)
  · exact fun _ ↦ rfl
  · exact fun _ _ ↦ rfl
  · exact fun _ _ ↦ h

end Sink

namespace Cursor

theorem earlier_emit {cursor : Cursor} (h : cursor.sink.WellFormed) (token : Token) :
    (cursor.emit token).sink.earlier = cursor.sink.earlier := by
  unfold Cursor.emit
  split
  · exact Sink.earlier_accept token (Sink.earlier_merge h token)
  · exact Sink.earlier_accept token (Sink.earlier_push h token)

/-- Reading leaves earlier scans alone, also where an attempt fails. -/
theorem earlier_read {cursor : Cursor} (h : cursor.sink.WellFormed) (pieces : List (Piece Kind)) :
    (cursor.read pieces).sink.earlier = cursor.sink.earlier := by
  induction pieces generalizing cursor with
  | nil => rw [read_nil]
  | cons piece pieces ih =>
    have hafter := ((Follows.refl cursor).take h piece).sink_extends.wellFormed h
    rw [read_cons, ih hafter]
    cases piece with
    | gap text =>
      rw [take_gap]
      rfl
    | token kind text =>
      rw [take_token]
      exact earlier_emit h _
    | withdrawn reported =>
      rw [take_withdrawn_eq h]
      rfl

/-- In step and without merging, a piece adds its token. -/
theorem InStep.currentScan_take {cursor : Cursor} (h : cursor.InStep)
    (hplain : cursor.options.coalescing = false) (piece : Piece Kind) :
    (cursor.take piece).sink.currentScan.toList =
      cursor.sink.currentScan.toList ++ Piece.tokens cursor.index [piece] := by
  cases piece with
  | gap text =>
    rw [take_gap, Piece.tokens_gap, Piece.tokens_nil, List.append_nil]
    rfl
  | token kind text =>
    rw [take_token, Piece.tokens_token, Piece.tokens_nil, List.append_nil, emitAndAdvance]
    change (cursor.emit _).sink.currentScan.toList = _
    unfold Cursor.emit
    rw [hplain]
    by_cases hempty : Text.byteLength text = 0
    · simp only [Bool.false_eq_true, if_false, Sink.emit]
      rw [Sink.accept_empty _ _ hempty, if_pos hempty, List.append_nil]
    · simp only [Bool.false_eq_true, if_false, Sink.emit]
      rw [Sink.accept_stored _ _ hempty h.stop_le, if_neg hempty,
        Sink.currentScan_push h.wellFormed]
  | withdrawn reported =>
    rw [take_withdrawn_eq h.wellFormed, Piece.tokens_withdrawn, Piece.tokens_nil, List.append_nil]
    rfl

variable [Text.IdentifierClasses]

/-- In step and without merging, pieces add the tokens that they leave. -/
theorem InStep.currentScan_read {cursor : Cursor} {pieces : List (Piece Kind)} (h : cursor.InStep)
    (hplain : cursor.options.coalescing = false) (hfits : Piece.Fits pieces cursor.remainder) :
    (cursor.read pieces).sink.currentScan.toList =
      cursor.sink.currentScan.toList ++ Piece.tokens cursor.index pieces := by
  induction pieces generalizing cursor with
  | nil => rw [read_nil, Piece.tokens_nil, List.append_nil]
  | cons piece pieces ih =>
    obtain ⟨hstands, hrest⟩ := (Piece.fits_cons _ _ _).1 hfits
    obtain ⟨front, hbetween⟩ := h.between
    rw [← List.prefix_iff_eq_append.1 hstands.text_front] at hbetween
    rw [← hbetween.take.remainder_eq] at hrest
    have hoptions := ((Follows.refl cursor).take h.wellFormed piece).options_eq
    have htext : Piece.textOf [piece] = piece.text := List.append_nil _
    rw [read_cons, ih (h.take hstands).1 (by rw [hoptions, hplain]) hrest,
      h.currentScan_take hplain, index_take, List.append_assoc, ← htext, ← Piece.tokens_append]
    rfl

/-- In step, what is withdrawn leaves the cursor as it is. -/
theorem InStep.read_withdrawal {cursor : Cursor} {reported : List (Piece Kind)} (h : cursor.InStep)
    (hfits : Piece.Fits reported cursor.remainder) :
    cursor.read (Piece.withdrawal reported) = cursor := by
  unfold Piece.withdrawal
  split
  · exact read_nil cursor
  · have haccepted := (h.read hfits _ (read_mem_passed _ _)).accepted
    rw [read_cons, read_nil, take_withdrawn_eq h.wellFormed, haccepted, ← h.accepted]

/-- In step and without merging, pieces add the tokens that they leave and move the cursor over
their text. -/
theorem InStep.read_eq {cursor : Cursor} {pieces : List (Piece Kind)} (h : cursor.InStep)
    (hplain : cursor.options.coalescing = false) (hfits : Piece.Fits pieces cursor.remainder) :
    cursor.read pieces =
      { cursor with
        index := cursor.index + Text.byteLength (Piece.textOf pieces)
        sink := { cursor.sink with
          tokens := cursor.sink.tokens ++ (Piece.tokens cursor.index pieces).toArray } } := by
  have hfollows := (Follows.refl cursor).read h.wellFormed pieces
  have hindex := index_read cursor pieces
  have htokens : (cursor.read pieces).sink.tokens =
      cursor.sink.tokens ++ (Piece.tokens cursor.index pieces).toArray := by
    apply Array.toList_inj.1
    rw [← Sink.earlier_append_currentScan, earlier_read h.wellFormed,
      h.currentScan_read hplain hfits, ← List.append_assoc, Sink.earlier_append_currentScan,
      Array.toList_append]
  have haccepted : (cursor.read pieces).sink.poisoned = cursor.sink.poisoned :=
    (h.read hfits _ (read_mem_passed _ _)).accepted.trans h.accepted.symm
  have hsource := hfollows.source_eq
  have hstop := hfollows.stop_eq
  have hoptions := hfollows.options_eq
  have hscanStart := hfollows.sink_extends.scanStart_eq
  generalize cursor.read pieces = after at *
  obtain ⟨source, index, stop, ⟨tokens, scanStart, poisoned⟩, options⟩ := after
  simp only at hindex htokens haccepted hsource hstop hoptions hscanStart
  rw [hindex, htokens, haccepted, hsource, hstop, hoptions, hscanStart]

/-- Pieces that fit a range of a source leave their tokens in a new scan of any sink, without
regard to the source around the range. -/
theorem currentScan_read_ofRange (sink : Sink) (front text behind : List Char) {options : Options}
    (hplain : options.coalescing = false) {pieces : List (Piece Kind)}
    (hfits : Piece.Fits pieces text) :
    ((ofRange sink.startScan (front ++ (text ++ behind)) (Text.byteLength front)
      (Text.byteLength (front ++ text)) options).read pieces).sink.currentScan.toList =
        Piece.tokens (Text.byteLength front) pieces := by
  let cursor := ofRange sink.startScan (front ++ text) (Text.byteLength front)
    (Text.byteLength (front ++ text)) options
  have hbetween : cursor.IsBetween front text := ⟨rfl, rfl, rfl⟩
  have hstart : cursor.InStep := by
    apply hbetween.inStep (Sink.wellFormed_startScan sink)
    · change WellPlaced (front ++ text) sink.startScan.currentScan.toList
      rw [Sink.currentScan_startScan]
      exact WellPlaced.nil
    · change sink.startScan.stop ≤ _
      rw [Sink.stop_eq, Sink.currentScan_startScan]
      exact Nat.zero_le _
    · rfl
  have hread := hstart.currentScan_read hplain (by rw [hbetween.remainder_eq]; exact hfits)
  change _ = sink.startScan.currentScan.toList ++ _ at hread
  rw [Sink.currentScan_startScan, List.nil_append] at hread
  change ((cursor.within _ _).read pieces).sink.currentScan.toList = _
  rw [read_within]
  exact hread

end Cursor

section

variable [Text.IdentifierClasses]

namespace Language

def tokens (language : Language) (options : Options) (source : List Char) : List Token :=
  let plain := Piece.tokens 0 (language.scan options.strict source)
  if options.coalescing then coalesce plain else plain

/-- Whether the pieces of a source reach its end. -/
def completes (language : Language) (strict : Bool) (source : List Char) : Bool :=
  Piece.width (language.scan strict source) = source.length

/-- Whatever the sink held before, a scan puts the same tokens into it. -/
theorem currentScan_scanInto (language : Language) (options : Options) (source : List Char)
    (sink : Sink) : (language.scanInto options source sink.startScan).1.currentScan.toList =
      language.tokens options source := by
  obtain ⟨coalescing, strict⟩ := options
  have hstart := Cursor.inStep_ofSource (Sink.wellFormed_startScan sink)
    (Sink.currentScan_startScan sink) rfl source { coalescing := false, strict }
  have hfits : Piece.Fits (language.scan strict source)
      (Cursor.ofSource sink.startScan source { coalescing := false, strict }).remainder := by
    rw [(Cursor.isBetween_ofSource _ _ _).remainder_eq]
    exact language.fits_scan strict source
  have hplain := hstart.currentScan_read rfl hfits
  change _ = sink.startScan.currentScan.toList ++ _ at hplain
  rw [Sink.currentScan_startScan, List.nil_append] at hplain
  cases coalescing with
  | false => exact hplain
  | true =>
    have hcoalesced : Cursor.Coalesced
        (.ofSource sink.startScan source { coalescing := false, strict })
        (.ofSource sink.startScan source { coalescing := true, strict }) :=
      ⟨rfl, rfl, rfl, rfl, rfl, Sink.coalesced_startScan sink⟩
    have hmerged := (hcoalesced.read (language.scan strict source)).sink.currentScan_eq
    rw [hplain] at hmerged
    exact hmerged

/-- A scan puts the tokens of the source behind those that are there. -/
theorem scanInto_eq (language : Language) (options : Options) (source : List Char) (sink : Sink) :
    language.scanInto options source sink.startScan =
      ({ tokens := sink.tokens ++ (language.tokens options source).toArray
         scanStart := sink.tokens.size },
        language.completes options.strict source) := by
  have hwellFormed := Sink.wellFormed_startScan sink
  have hcompletes : (language.scanInto options source sink.startScan).2 =
      language.completes options.strict source := by
    rw [Bool.eq_iff_iff, scanInto_completes_iff, completes, decide_eq_true_eq]
  have htokens : (language.scanInto options source sink.startScan).1.tokens =
      sink.tokens ++ (language.tokens options source).toArray := by
    apply Array.toList_inj.1
    rw [← Sink.earlier_append_currentScan, currentScan_scanInto, Array.toList_append]
    congr 1
    exact (Cursor.earlier_read hwellFormed _).trans (Sink.earlier_startScan sink)
  have hscanStart : (language.scanInto options source sink.startScan).1.scanStart =
      sink.tokens.size :=
    ((Cursor.Follows.refl (Cursor.ofSource sink.startScan source options)).read hwellFormed
      (language.scan options.strict source)).sink_extends.scanStart_eq
  have hpoisoned := language.poisoned_scanInto options source sink
  generalize language.scanInto options source sink.startScan = outcome at *
  obtain ⟨⟨tokens, scanStart, poisoned⟩, completed⟩ := outcome
  simp only at hcompletes htokens hscanStart hpoisoned
  rw [hcompletes, htokens, hscanStart, hpoisoned]

end Language

theorem highlight_eq (language : Language) (options : Options) (source : List Char) (sink : Sink) :
    highlight language options source sink =
      ({ tokens := sink.tokens ++ (language.tokens options source).toArray
         scanStart := sink.tokens.size },
        language.result false (language.completes options.strict source)) := by
  rw [highlight, language.scanInto_eq]

theorem currentScan_highlight (language : Language) (options : Options) (source : List Char)
    (sink : Sink) : (highlight language options source sink).1.currentScan.toList =
      language.tokens options source :=
  language.currentScan_scanInto options source sink

/-- Where tokens are not merged, they are those of the pieces. -/
theorem currentScan_highlight_plain (language : Language) (strict : Bool) (source : List Char)
    (sink : Sink) :
      (highlight language { coalescing := false, strict } source sink).1.currentScan.toList =
        Piece.tokens 0 (language.scan strict source) :=
  currentScan_highlight language { coalescing := false, strict } source sink

/-- Without coalescing the tokens of a source show what its pieces do. -/
theorem map_text_highlight (language : Language) (strict : Bool) (source : List Char)
    (sink : Sink) :
    (highlight language ⟨false, strict⟩ source sink).1.currentScan.toList.map
        (fun token ↦ (token.kind, token.text source)) =
      Piece.labelled (language.scan strict source) := by
  have hsource := (language.fits_scan strict source).textOf_append_drop
  have hlabels := Piece.map_text_tokens [] (source.drop (Piece.width (language.scan strict source)))
    (language.scan strict source)
  rw [hsource] at hlabels
  rw [currentScan_highlight]
  exact hlabels

/-- Without coalescing every piece that shows something leaves a token. -/
theorem exists_token_of_mem_scan (language : Language) {strict : Bool} {source text : List Char}
    {kind : Kind} (h : .token kind text ∈ language.scan strict source) (htext : text ≠ [])
    (sink : Sink) :
    ∃ token ∈ (highlight language ⟨false, strict⟩ source sink).1.currentScan.toList,
      token.kind = kind ∧ token.text source = text := by
  have hmem := Piece.mem_labelled.2 ⟨h, htext⟩
  rw [← map_text_highlight language strict source sink] at hmem
  obtain ⟨token, htoken, hpair⟩ := List.mem_map.1 hmem
  exact ⟨token, htoken, (Prod.mk.inj hpair).1, (Prod.mk.inj hpair).2⟩

end

/-! ## Selectors -/

namespace Language

theorem map_toLower_of_mem_selectors (language : Language) :
    ∀ name ∈ language.selectors, name.toList.map Char.toLower = name.toList := by
  cases language <;> decide

theorem eq_of_mem_selectors (language other : Language) :
    ∀ name ∈ language.selectors, name ∈ other.selectors → language = other := by
  cases language <;> cases other <;> decide

theorem mem_all (language : Language) : language ∈ all := by
  cases language <;> decide

/-- A selector names a language if that lists it once its capitals are made small. -/
theorem any_selectors_iff (language : Language) (selector : String) :
    (language.selectors.any fun name ↦ Text.sameIgnoringCase name.toList selector.toList) ↔
      selector.toLower ∈ language.selectors := by
  rw [List.any_eq_true]
  have hlower : selector.toLower.toList = selector.toList.map Char.toLower := String.toList_map
  have hsmall (name : String) (hname : name ∈ language.selectors) :
      Text.sameIgnoringCase name.toList selector.toList ↔ name = selector.toLower := by
    rw [Text.sameIgnoringCase, beq_iff_eq, language.map_toLower_of_mem_selectors name hname,
      ← String.toList_inj, hlower]
  constructor
  · rintro ⟨name, hname, hsame⟩
    rw [← (hsmall name hname).1 hsame]
    exact hname
  · intro hmem
    exact ⟨_, hmem, (hsmall _ hmem).2 rfl⟩

theorem ofSelector?_eq_some_iff {selector : String} {language : Language} :
    ofSelector? selector = some language ↔ selector.toLower ∈ language.selectors := by
  constructor
  · intro h
    have hfound := List.find?_some (show all.find? _ = some language from h)
    exact (any_selectors_iff language selector).1 hfound
  · intro hmem
    cases hfind : ofSelector? selector with
    | none =>
      have hnone := List.find?_eq_none.1 hfind language (mem_all language)
      exact absurd ((any_selectors_iff language selector).2 hmem) hnone
    | some other =>
      have hfound := List.find?_some (show all.find? _ = some other from hfind)
      have hother := (any_selectors_iff other selector).1 hfound
      rw [eq_of_mem_selectors language other _ hmem hother]

theorem ofSelector?_eq_none_iff {selector : String} :
    ofSelector? selector = none ↔ ∀ language : Language, selector.toLower ∉ language.selectors := by
  rw [Option.eq_none_iff_forall_ne_some]
  exact forall_congr' fun language ↦ not_congr ofSelector?_eq_some_iff

end Language

/-- A scan keeps the tokens of the sink and puts behind them what it would put into a new sink, with
the same result. Under a selector the source is scanned in the one language that lists it, in small
letters, and where there is none the sink stays as it is. -/
theorem highlight_independent [Text.IdentifierClasses]
    (language : Language) (options : Options) (source : List Char)
    (sink : Sink) (selector : String) :
    let after := highlight language options source sink
    let fresh := highlight language options source .empty
    let named := highlightNamed selector options source sink
    (after.1.tokens = sink.tokens ++ fresh.1.tokens ∧
      after.1.currentScan = fresh.1.tokens ∧
      after.1.poisoned = fresh.1.poisoned ∧ after.2 = fresh.2) ∧
    ((∃ selected : Language, selector.toLower ∈ selected.selectors ∧
        (∀ other : Language, selector.toLower ∈ other.selectors → other = selected) ∧
        named = highlight selected options source sink) ∨
      (∀ other : Language, selector.toLower ∉ other.selectors) ∧
        named = (sink, .error (.badLanguage selector))) := by
  intro after fresh named
  have hafter : after = _ := highlight_eq language options source sink
  have hfresh : fresh = _ := highlight_eq language options source .empty
  have hfreshTokens : fresh.1.tokens = (language.tokens options source).toArray := by
    rw [hfresh]
    exact Array.empty_append
  refine ⟨⟨?_, ?_, ?_, ?_⟩, ?_⟩
  · rw [hfreshTokens, hafter]
  · rw [hfreshTokens]
    apply Array.toList_inj.1
    exact currentScan_highlight language options source sink
  · rw [hafter, hfresh]
  · rw [hafter, hfresh]
  · cases hselected : Language.ofSelector? selector with
    | some selected =>
      have hselect : Language.select selector = .ok selected := by
        rw [Language.select, hselected]
      have hnamed : named = highlight selected options source sink := by
        simp only [named, highlightNamed, hselect]
      have hmem := Language.ofSelector?_eq_some_iff.1 hselected
      exact .inl ⟨selected, hmem, fun other hother ↦
        Language.eq_of_mem_selectors other selected _ hother hmem, hnamed⟩
    | none =>
      have hselect : Language.select selector = .error (.badLanguage selector) := by
        rw [Language.select, hselected]
      have hnamed : named = (sink, .error (.badLanguage selector)) := by
        simp only [named, highlightNamed, hselect]
      exact .inr ⟨Language.ofSelector?_eq_none_iff.1 hselected, hnamed⟩

end Highlight
