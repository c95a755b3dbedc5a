import Highlight.Cli.Run
import Highlight.Proofs.Coverage
import Highlight.Proofs.Text.Escaped
import Highlight.Text.Unicode

/-!
# Listings read back

The lines of a listing tell its tokens: each has a line of its own, and the fields of the line give
the place of the token, the id of its kind and, once the escapes are undone, its text. Neither a tab
nor a line break in a text can be taken for one of the listing.
-/

namespace Highlight

open Text (byteLength)

namespace Cli

/-- The lines of a text, each of which ends with a line break. -/
def lines (s : List Char) : List (List Char) := (s.splitOn '\n').dropLast

theorem lines_flatMap {rows : List (List Char)} (h : ∀ row ∈ rows, '\n' ∉ row) :
    lines (rows.flatMap (· ++ ['\n'])) = rows := by
  induction rows with
  | nil => rfl
  | cons row rows ih =>
    rw [List.forall_mem_cons] at h
    rw [List.flatMap_cons, List.append_assoc, List.singleton_append, lines,
      List.splitOn_append_cons_self_of_not_mem h.1, List.dropLast_cons_of_ne_nil]
    · exact congrArg (row :: ·) (ih h.2)
    · exact List.splitOn_ne_nil _ _

/-- What the line of a token says. -/
structure Entry where
  begin : Nat
  length : Nat
  id : String
  text : List Char
  deriving DecidableEq, Repr

/-- What stands in a line before its first tab, and what stands behind that. -/
def cut? (line : List Char) : Option (List Char × List Char) :=
  match line.dropWhile (· != '\t') with
  | [] => none
  | _ :: rest => some (line.takeWhile (· != '\t'), rest)

theorem cut?_append {field : List Char} (h : '\t' ∉ field) (rest : List Char) :
    cut? (field ++ '\t' :: rest) = some (field, rest) := by
  have hfield : ∀ c ∈ field, c != '\t' := by
    intro c hc
    rw [bne_iff_ne]
    rintro rfl
    exact h hc
  simp [cut?, List.dropWhile_append_of_pos hfield, List.takeWhile_append_of_pos hfield]

/-- Reads a line: three fields that tabs close, and an escaped text. -/
def Entry.ofLine? (line : List Char) : Option Entry := do
  let (begin, line) ← cut? line
  let (length, line) ← cut? line
  let (id, text) ← cut? line
  return {
    begin := ← Text.number? 10 begin
    length := ← Text.number? 10 length
    id := String.ofList id
    text := ← Text.unescaped? text }

/-- The line of a token without its line break. -/
def row (source : List Char) (token : Token) : List Char :=
  Nat.toDigits 10 token.begin ++ '\t' :: (Nat.toDigits 10 token.length ++
    '\t' :: (token.kind.shortId.toList ++ '\t' :: Text.escaped (token.text source)))

theorem tokenLine_eq (source : List Char) (token : Token) :
    tokenLine source token = row source token ++ ['\n'] := by
  simp [tokenLine, row]

theorem not_mem_shortId (kind : Kind) :
    '\t' ∉ kind.shortId.toList ∧ '\n' ∉ kind.shortId.toList := by
  cases kind <;> decide

theorem break_not_mem_row (source : List Char) (token : Token) : '\n' ∉ row source token := by
  have hnumber (n : Nat) : '\n' ∉ Nat.toDigits 10 n :=
    Text.not_mem_toDigits (by decide) (by decide) n (by decide)
  have htext := Text.break_not_mem_escaped (token.text source)
  simp [row, hnumber, (not_mem_shortId token.kind).2, htext]

theorem ofLine?_row (source : List Char) (token : Token) :
    Entry.ofLine? (row source token) =
      some ⟨token.begin, token.length, token.kind.shortId, token.text source⟩ := by
  have hnumber (n : Nat) : Text.number? 10 (Nat.toDigits 10 n) = some n :=
    Text.number?_toDigits (by decide) (by decide) n
  have htab (n : Nat) : '\t' ∉ Nat.toDigits 10 n :=
    Text.not_mem_toDigits (by decide) (by decide) n (by decide)
  simp only [Entry.ofLine?, row, cut?_append (htab _), cut?_append (not_mem_shortId _).1, hnumber,
    Text.unescaped?_escaped, String.ofList_toList, bind, Option.bind_some, pure]

theorem toList_listing (source : List Char) (tokens : List Token) :
    (listing source tokens).toList = (tokens.map (row source)).flatMap (· ++ ['\n']) := by
  rw [listing, String.toList_ofList, List.flatMap_map]
  exact List.flatMap_congr fun token _ ↦ tokenLine_eq source token

theorem lines_listing (source : List Char) (tokens : List Token) :
    lines (listing source tokens).toList = tokens.map (row source) := by
  rw [toList_listing, lines_flatMap]
  intro line hline
  obtain ⟨token, -, rfl⟩ := List.mem_map.1 hline
  exact break_not_mem_row source token

theorem mapM_ofLine?_row (source : List Char) (tokens : List Token) :
    (tokens.map (row source)).mapM Entry.ofLine? = some (tokens.map fun token ↦
      ⟨token.begin, token.length, token.kind.shortId, token.text source⟩) := by
  induction tokens with
  | nil => rfl
  | cons token tokens ih =>
    rw [List.map_cons, List.mapM_cons, ofLine?_row, ih]
    rfl

section

variable {readFile : String → FileContent} {target : Target} {language : Language}
  {content : String}

theorem stdout_reportTokens (path : String) (source : List Char) (sink : Sink)
    (result : Except HighlightError Unit) :
    (reportTokens path source sink result).stdout = listing source sink.tokens.toList := by
  cases result <;> rfl

variable [Text.IdentifierClasses]

theorem withScan_text {coalescing : Bool}
    {report : List Char → Sink → Except HighlightError Unit → Output}
    (hlanguage : target.language = .ok language)
    (hcontent : readFile target.path = .text content) :
    withScan readFile target coalescing report =
      let outcome := highlight language ⟨coalescing, target.strict⟩ content.toList .empty
      report content.toList outcome.1 outcome.2 := by
  rw [withScan, hlanguage, hcontent]

/-- What is listed for a file that can be read can be read back: there is one line for each token in
the sink, in their order, and it gives the place of the token, the id of its kind and the text of
the source in that place. This holds whether or not the scan completed. -/
theorem listing_roundTrip (readFile : String → FileContent) (target : Target) (coalescing : Bool)
    (hlanguage : target.language = .ok language)
    (hcontent : readFile target.path = .text content) :
    let source := content.toList
    let sink := (highlight language ⟨coalescing, target.strict⟩ source .empty).1
    let stdout := ((Command.tokens target coalescing).run readFile).stdout.toList
    (lines stdout).flatMap (· ++ ['\n']) = stdout ∧
    (lines stdout).mapM Entry.ofLine? = some (sink.tokens.toList.map fun token ↦
      ⟨token.begin, token.length, token.kind.shortId, token.text source⟩) ∧
    ∀ token ∈ sink.tokens.toList, ∃ front behind,
      source = front ++ (token.text source ++ behind) ∧ byteLength front = token.begin ∧
        byteLength (token.text source) = token.length := by
  intro source sink stdout
  have hstdout : stdout = (listing source sink.tokens.toList).toList := by
    simp only [stdout, Command.run]
    rw [withScan_text hlanguage hcontent, stdout_reportTokens]
  have hlines : lines stdout = sink.tokens.toList.map (row source) := by
    rw [hstdout, lines_listing]
  refine ⟨?_, ?_, ?_⟩
  · rw [hlines, hstdout, toList_listing]
  · rw [hlines, mapM_ofLine?_row]
  · intro token htoken
    have htokens : sink.tokens.toList =
        language.tokens ⟨coalescing, target.strict⟩ source := by
      simp only [sink]
      rw [highlight_eq]
      exact congrArg Array.toList Array.empty_append
    rw [htokens] at htoken
    exact ((language.wellPlaced_tokens _ source).placed token htoken).exists_text

end

/-- A comment is listed with its line break, although no more can be read behind it. -/
theorem listing_roundTrip_comment :
    let output := (Command.tokens { path := "a", selector? := some "svg" } true).run fun _ ↦
      .text "<!--\n\\--><"
    output.code = 1 ∧ (lines output.stdout.toList).mapM Entry.ofLine? =
      some [⟨0, 4, "cmt_dlim", "<!--".toList⟩, ⟨4, 2, "cmt", ['\n', '\\']⟩,
        ⟨6, 3, "cmt_dlim", "-->".toList⟩] := by
  intro output
  obtain ⟨-, hread, -⟩ := listing_roundTrip (fun _ ↦ .text "<!--\n\\--><")
    { path := "a", selector? := some "svg" } true
    (show Target.language _ = .ok .xml by decide +kernel) rfl
  refine ⟨by decide +kernel, hread.trans ?_⟩
  decide +kernel

end Cli

end Highlight
