import Highlight.Proofs.Html.Group
import Highlight.Proofs.Tokens
import Highlight.Text.Unicode

/-!
# Tags are shown as a whole or not at all

A tag is shown token by token before it is known to be well formed. What was shown of a tag that
turns out not to be one is taken back, so that no source leaves the marks of half a tag.
-/

namespace Highlight

open Markup (Group Grouped closings openings)

theorem grouped_scan [Text.IdentifierClasses]
    {language : Language} (h : language ∈ [.xml, .html]) (strict : Bool)
    (source : List Char) : Grouped language (Piece.labelled (language.scan strict source)) := by
  simp only [List.mem_cons, List.not_mem_nil, or_false] at h
  rcases h with rfl | rfl
  · exact Xml.grouped_scan source
  · exact Html.grouped_scan source

/-- In markup every mark that opens a tag is followed by the whole of the tag, and every mark that
closes one has the whole of it before it, however the scan ends. -/
theorem highlight_markup_wholeTags [Text.IdentifierClasses]
    {language : Language} (hlanguage : language ∈ [.xml, .html])
    (strict : Bool) (source : List Char) (sink : Sink) :
    let tokens := (highlight language ⟨false, strict⟩ source sink).1.currentScan.toList
    let shown := tokens.map fun token ↦ (token.kind, token.text source)
    ∀ before entry after, shown = before ++ entry :: after →
      (entry ∈ openings →
        ∃ group rest, Group language group ∧ entry :: after = group ++ rest) ∧
      (entry ∈ closings →
        ∃ front group, Group language group ∧ before ++ [entry] = front ++ group) := by
  intro tokens shown before entry after hshown
  have hgrouped : Grouped language (before ++ entry :: after) := by
    rw [← hshown, show shown = _ from map_text_highlight language strict source sink]
    exact grouped_scan hlanguage strict source
  exact ⟨hgrouped.begins, hgrouped.ends⟩

/-- Two tags before one that is broken off. -/
theorem highlight_markup_wholeTags_broken :
    let source := "<a b=\"&lt;\"/><?p?><c d".toList
    let tokens := (highlight .xml ⟨false, true⟩ source .empty).1.currentScan.toList
    let shown := tokens.map fun token ↦ (token.kind, token.text source)
    let tags : List Entry :=
      [(.symPunc, ['<']), (.markupTag, ['a']), (.markupAttr, ['b']), (.string, ['"']),
        (.escape, "&lt;".toList), (.string, ['"']), (.symPunc, ['/', '>']),
        (.symPunc, ['<', '?']), (.directive, ['p']), (.symPunc, ['?', '>'])]
    shown = tags ∧ (∃ group rest, Group .xml group ∧ tags = group ++ rest) ∧
      ∃ front group, Group .xml group ∧ tags = front ++ group := by
  intro source tokens shown tags
  have hshown : shown = tags := by decide +kernel
  have hwhole (before : List Entry) (entry : Entry) (after : List Entry)
      (h : tags = before ++ entry :: after) :=
    highlight_markup_wholeTags (by decide) true source .empty before entry after (hshown.trans h)
  exact ⟨hshown, (hwhole [] _ _ rfl).1 (by decide), (hwhole tags.dropLast _ [] rfl).2 (by decide)⟩

end Highlight
