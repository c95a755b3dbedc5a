import Highlight.JavaScript.Keyword
import Highlight.Proofs.CFamily.Words
import Highlight.Proofs.Search
import Highlight.Proofs.Text.Order

/-!
# Looking up keywords

A table is searched by halving, which finds all its words only if they ascend. They do in every
table, by their bytes, so a search finds a word exactly where the table has it, and no table has a
word twice. Where tables are searched one after another the first one with the word decides, as if
they were one list that is read from its front.
-/

namespace Highlight

namespace Keywords

variable {table : Keywords} {name : List Char} {kind : Kind}

/-- Each word of the table has greater bytes than the word before it. -/
def Ascending (table : Keywords) : Prop :=
  table.toList.IsChain fun entry next ↦ Text.bytes entry.1.toList < Text.bytes next.1.toList

instance : DecidablePred Ascending := fun table ↦
  inferInstanceAs (Decidable (table.toList.IsChain fun entry next ↦
    Text.bytes entry.1.toList < Text.bytes next.1.toList))

theorem Ascending.pairwise (h : table.Ascending) :
    table.toList.Pairwise fun entry later ↦ entry.1 < later.1 := by
  have hchain : table.toList.IsChain fun entry next ↦ entry.1 < next.1 :=
    h.imp fun _ _ hbytes ↦ String.lt_iff_toList_lt.2 (Text.bytes_lt_bytes_iff.1 hbytes)
  have htrans : IsTrans (String × Kind) fun entry later ↦ entry.1 < later.1 :=
    ⟨fun _ _ _ h h' ↦ lt_trans h h'⟩
  exact List.isChain_iff_pairwise.1 hchain

/-- The search in a sorted table finds every word of it. -/
theorem Ascending.kind?_of_mem (h : table.Ascending) (hmem : (String.ofList name, kind) ∈ table) :
    table.kind? name = some kind := by
  obtain ⟨k, hk, hentry⟩ := Array.mem_iff_getElem.1 hmem
  have hlt {i j : Nat} (hi : i < table.size) (hj : j < table.size) (hij : i < j) :
      table[i].1 < table[j].1 :=
    List.pairwise_iff_getElem.1 h.pairwise i j hi hj hij
  have hplace : ∀ i (hi : i < table.size),
      compare table[i].1 (String.ofList name) = compare i k := by
    intro i hi
    have hword : table[k].1 = String.ofList name := by rw [hentry]
    rw [← hword]
    rcases Nat.lt_trichotomy i k with hik | rfl | hki
    · rw [compare_lt_iff_lt.2 (hlt hi hk hik), Nat.compare_eq_lt.2 hik]
    · rw [compare_eq_iff_eq.2 rfl, Nat.compare_eq_eq.2 rfl]
    · rw [compare_gt_iff_gt.2 (hlt hk hi hki), Nat.compare_eq_gt.2 hki]
  rw [kind?, Search.find?, Search.within_eq_some hk hplace (Nat.zero_le k) hk, hentry]
  rfl

/-- A search finds what the table has, and nothing else. -/
theorem Ascending.kind?_eq_some_iff (h : table.Ascending) :
    table.kind? name = some kind ↔ (String.ofList name, kind) ∈ table :=
  ⟨mem_of_kind?, h.kind?_of_mem⟩

/-- No entry before that of a word has the same word. -/
theorem Ascending.lookup_of_mem (h : table.Ascending)
    (hmem : (String.ofList name, kind) ∈ table) :
    table.toList.lookup (String.ofList name) = some kind := by
  obtain ⟨before, after, hsplit⟩ := List.append_of_mem (Array.mem_toList_iff.2 hmem)
  refine List.lookup_eq_some_iff.2 ⟨before, after, hsplit, fun entry hentry ↦ ?_⟩
  have hpairwise := h.pairwise
  rw [hsplit] at hpairwise
  have hlt := (List.pairwise_append.1 hpairwise).2.2 entry hentry _ List.mem_cons_self
  exact bne_iff_ne.2 (ne_of_gt hlt)

/-- A search by halving finds what a search from the front finds. -/
theorem Ascending.kind?_eq_lookup (h : table.Ascending) (name : List Char) :
    table.kind? name = table.toList.lookup (String.ofList name) := by
  apply Option.ext
  intro kind
  rw [h.kind?_eq_some_iff]
  constructor
  · exact h.lookup_of_mem
  · intro hlookup
    obtain ⟨before, after, hsplit, -⟩ := List.lookup_eq_some_iff.1 hlookup
    rw [← Array.mem_toList_iff, hsplit]
    exact List.mem_append_right before List.mem_cons_self

/-- Tables one after another are searched like the list of all their entries. -/
theorem findSome?_kind?_eq_lookup {tables : List Keywords} (h : ∀ table ∈ tables, table.Ascending)
    (name : List Char) :
    tables.findSome? (·.kind? name) =
      (tables.flatMap Array.toList).lookup (String.ofList name) := by
  induction tables with
  | nil => rfl
  | cons table tables ih =>
    rw [List.forall_mem_cons] at h
    rw [List.flatMap_cons, List.lookup_append, List.findSome?_cons, h.1.kind?_eq_lookup, ih h.2]
    cases table.toList.lookup (String.ofList name) <;> rfl

end Keywords

theorem JavaScript.ascending_keywords : JavaScript.keywords.Ascending := by decide +kernel

theorem CFamily.ascending_keywords :
    ∀ table ∈ [cKeywords, cOnlyKeywords, cppKeywords, extensionKeywords], table.Ascending := by
  decide +kernel

theorem CFamily.ascending_keywordTables (dialect : Dialect) (strict : Bool) :
    ∀ table ∈ keywordTables dialect strict, table.Ascending := by
  have hsubset : keywordTables dialect strict ⊆
      [cKeywords, cOnlyKeywords, cppKeywords, extensionKeywords] := by
    cases dialect <;> cases strict <;> simp [keywordTables]
  exact fun table hmem ↦ ascending_keywords table (hsubset hmem)

/-- A word is a keyword of a script as the table says. In C and C++ the first entry for it in the
tables of the dialect decides, and what strict mode knows the other mode knows as well, with the
same kind. -/
theorem keywords_lookup (name : List Char) :
    (∀ kind, JavaScript.keyword? name = some kind ↔
      (String.ofList name, kind) ∈ JavaScript.keywords) ∧
    ∀ dialect,
      (∀ strict, CFamily.keyword? dialect strict name =
        ((CFamily.keywordTables dialect strict).flatMap Array.toList).lookup
          (String.ofList name)) ∧
      ∀ kind, CFamily.keyword? dialect true name = some kind →
        CFamily.keyword? dialect false name = some kind := by
  refine ⟨fun kind ↦ JavaScript.ascending_keywords.kind?_eq_some_iff, fun dialect ↦ ⟨?_, ?_⟩⟩
  · intro strict
    exact Keywords.findSome?_kind?_eq_lookup (CFamily.ascending_keywordTables dialect strict) name
  · intro kind hstrict
    rw [CFamily.keyword?_false, hstrict, Option.some_or]

/-- Strict mode knows a word of the second table, and so the other mode does. -/
theorem keywords_lookup_typeof : CFamily.keyword? .c false "typeof".toList = some .keywordOp := by
  have h := (keywords_lookup "typeof".toList).2 .c
  exact h.2 .keywordOp ((h.1 true).trans (by decide +kernel))

end Highlight
