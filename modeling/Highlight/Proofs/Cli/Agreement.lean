import Highlight.Proofs.Cli.Listing
import Highlight.Text.Unicode

/-!
# The two commands on files

Listing the tokens of a file and checking it come to the same end, with the same code and the same
error. What decides is first the selector, then the file and last the scan, and merging tokens has
no part in it. Where a check goes well it counts the lines of the listing.
-/

namespace Highlight

namespace Language

/-- Only in XML can a scan stop before the end of its source. -/
theorem result_cases [Text.IdentifierClasses]
    (language : Language) (strict : Bool) (source : List Char) :
    language.result false (language.completes strict source) = .ok () ∨
      language = .xml ∧
        language.result false (language.completes strict source) = .error (.badCode .xml) := by
  by_cases hlanguage : language = .xml
  · subst hlanguage
    cases hcompletes : xml.completes strict source with
    | true => exact .inl rfl
    | false => exact .inr ⟨rfl, rfl⟩
  · have hcompletes : language.completes strict source = true :=
      decide_eq_true (language.covers_scan hlanguage strict source).2
    rw [hcompletes]
    exact .inl rfl

end Language

namespace Cli

/-- The selector of a target, given or taken from its path. -/
def Target.selector (target : Target) : String :=
  target.selector?.getD ((Path.extension? target.path).getD "")

variable {target : Target} {language : Language}

theorem Target.language_eq_ok_iff :
    target.language = .ok language ↔ target.selector.toLower ∈ language.selectors := by
  rw [← Language.ofSelector?_eq_some_iff]
  change Language.select target.selector = _ ↔ _
  unfold Language.select
  cases Language.ofSelector? target.selector with
  | none => simp
  | some selected => simp

theorem Target.language_eq_error {error : HighlightError} (h : target.language = .error error) :
    error = .badLanguage target.selector := by
  change Language.select target.selector = _ at h
  unfold Language.select at h
  cases hselected : Language.ofSelector? target.selector with
  | none =>
    rw [hselected] at h
    exact (Except.error.inj h).symm
  | some selected =>
    rw [hselected] at h
    cases h

section

variable {readFile : String → FileContent} {error : HighlightError} {content : String}

variable [Text.IdentifierClasses]

theorem withScan_error (h : target.language = .error error) (coalescing : Bool)
    (report : List Char → Sink → Except HighlightError Unit → Output) :
    withScan readFile target coalescing report = .failed target.path "" error := by
  rw [withScan, h]

theorem exists_withScan_unread (hlanguage : target.language = .ok language)
    (hunread : ∀ content, readFile target.path ≠ .text content) :
    ∃ message, ∀ coalescing report,
      withScan readFile target coalescing report = .unreadable message := by
  cases hcontent : readFile target.path with
  | missing =>
    refine ⟨"file not found: " ++ target.path, fun coalescing report ↦ ?_⟩
    rw [withScan, hlanguage, hcontent]
  | unreadable reason =>
    refine ⟨"reading " ++ target.path ++ ": " ++ reason, fun coalescing report ↦ ?_⟩
    rw [withScan, hlanguage, hcontent]
  | text content => exact absurd hcontent (hunread content)

/-- The result of a scan does not depend on whether tokens are merged. -/
theorem withScan_read (hlanguage : target.language = .ok language)
    (hcontent : readFile target.path = .text content) (coalescing : Bool)
    (report : List Char → Sink → Except HighlightError Unit → Output) :
    withScan readFile target coalescing report =
      report content.toList
        (highlight language ⟨coalescing, target.strict⟩ content.toList .empty).1
        (language.result false (language.completes target.strict content.toList)) := by
  rw [withScan_text hlanguage hcontent, highlight_eq]

end

/-- What stops a command, if something does: the selector, then the file, then the scan. -/
theorem stops_or_reads (readFile : String → FileContent) (target : Target) :
    (∃ error, target.language = .error error) ∨
    (∃ language, target.language = .ok language ∧
      ∀ content, readFile target.path ≠ .text content) ∨
    ∃ language content, target.language = .ok language ∧
      readFile target.path = .text content := by
  cases hlanguage : target.language with
  | error error => exact .inl ⟨error, rfl⟩
  | ok language =>
    by_cases hread : ∃ content, readFile target.path = .text content
    · obtain ⟨content, hcontent⟩ := hread
      exact .inr (.inr ⟨language, content, rfl, hcontent⟩)
    · exact .inr (.inl ⟨language, rfl, fun content hcontent ↦ hread ⟨content, hcontent⟩⟩)

/-- A listing ends as a check does: with the same code, and with the same line on standard error
where that gives an error. -/
structure Output.EndsAs (listed checked : Output) : Prop where
  code_eq : listed.code = checked.code
  stderr_eq_empty : checked.code = 0 → listed.stderr = ""
  stderr_eq_errorLine : checked.code ≠ 0 → ∃ message,
    listed.stderr = errorLine message ∧ checked.stderr = errorLine message

theorem endsAs_failed (path stdout stdout' : String) (error : HighlightError) :
    (Output.failed path stdout error).EndsAs (.failed path stdout' error) where
  code_eq := rfl
  stderr_eq_empty h := by cases error <;> cases h
  stderr_eq_errorLine _ := ⟨path ++ ": " ++ error.message, rfl, rfl⟩

theorem endsAs_unreadable (message : String) :
    (Output.unreadable message).EndsAs (.unreadable message) where
  code_eq := rfl
  stderr_eq_empty h := by cases h
  stderr_eq_errorLine _ := ⟨message, rfl, rfl⟩

theorem endsAs_report (path : String) (source : List Char) (listed checked : Sink)
    (result : Except HighlightError Unit) :
    (reportTokens path source listed result).EndsAs (reportCheck path source checked result) := by
  cases result with
  | ok _ => exact ⟨rfl, fun _ ↦ rfl, fun h ↦ absurd rfl h⟩
  | error error => exact endsAs_failed path _ _ error

variable (readFile : String → FileContent) (target : Target)

theorem tokens_endsAs_check [Text.IdentifierClasses] (coalescing : Bool) :
    ((Command.tokens target coalescing).run readFile).EndsAs
      ((Command.check target).run readFile) := by
  simp only [Command.run]
  rcases stops_or_reads readFile target with
    ⟨error, hlanguage⟩ | ⟨language, hlanguage, hunread⟩ | ⟨language, content, hlanguage, hcontent⟩
  · rw [withScan_error hlanguage, withScan_error hlanguage]
    exact endsAs_failed _ _ _ error
  · obtain ⟨message, hrun⟩ := exists_withScan_unread hlanguage hunread
    rw [hrun, hrun]
    exact endsAs_unreadable message
  · rw [withScan_read hlanguage hcontent, withScan_read hlanguage hcontent]
    exact endsAs_report _ _ _ _ _

variable {readFile target}

section

variable [Text.IdentifierClasses]

theorem code_check_of_unknown
    (h : ∀ language : Language, target.selector.toLower ∉ language.selectors) :
    ((Command.check target).run readFile).code = 2 := by
  cases hlanguage : target.language with
  | ok language => exact absurd (Target.language_eq_ok_iff.1 hlanguage) (h language)
  | error error =>
    rw [Command.run, withScan_error hlanguage, Target.language_eq_error hlanguage]
    rfl

theorem code_check_of_unread (hlanguage : target.language = .ok language)
    (hunread : ∀ content, readFile target.path ≠ .text content) :
    ((Command.check target).run readFile).code = 4 := by
  obtain ⟨message, hrun⟩ := exists_withScan_unread hlanguage hunread
  rw [Command.run, hrun]
  rfl

theorem code_check_of_text {content : String} (hlanguage : target.language = .ok language)
    (hcontent : readFile target.path = .text content) :
    ((Command.check target).run readFile).code = 0 ∨
      ((Command.check target).run readFile).code = 1 ∧ language = .xml := by
  rw [Command.run, withScan_read hlanguage hcontent]
  rcases language.result_cases target.strict content.toList with hok | ⟨hxml, herror⟩
  · rw [hok]
    exact .inl rfl
  · rw [herror]
    exact .inr ⟨rfl, hxml⟩

/-- A listing has as many lines as there are tokens. -/
theorem length_lines_tokens {content : String} (hlanguage : target.language = .ok language)
    (hcontent : readFile target.path = .text content) (coalescing : Bool) :
    (lines ((Command.tokens target coalescing).run readFile).stdout.toList).length =
      (highlight language ⟨coalescing, target.strict⟩ content.toList .empty).1.tokens.size := by
  rw [Command.run, withScan_read hlanguage hcontent, stdout_reportTokens, lines_listing,
    List.length_map, Array.length_toList]

/-- The number that a check reports is that of the lines of the plain listing. -/
theorem stderr_check (h : ((Command.check target).run readFile).code = 0) :
    ((Command.check target).run readFile).stderr = "OK: " ++ target.path ++ " (" ++
      Nat.repr (lines ((Command.tokens target false).run readFile).stdout.toList).length ++
        " tokens)\n" := by
  rcases stops_or_reads readFile target with
    ⟨error, hlanguage⟩ | ⟨language, hlanguage, hunread⟩ | ⟨language, content, hlanguage, hcontent⟩
  · rw [Command.run, withScan_error hlanguage] at h
    cases error <;> cases h
  · obtain ⟨message, hrun⟩ := exists_withScan_unread hlanguage hunread
    rw [Command.run, hrun] at h
    cases h
  · rw [length_lines_tokens hlanguage hcontent]
    rw [Command.run, withScan_read hlanguage hcontent] at h ⊢
    rcases language.result_cases target.strict content.toList with hok | ⟨-, herror⟩
    · rw [hok]
      rfl
    · rw [herror] at h
      cases h

/-- Listing and checking a file end alike, whether or not tokens are merged. An unknown selector
gives 2, whatever the file is. Under a known one a file that cannot be read gives 4, and the others
give 0 or, in XML alone, 1. Where it gives 0 a check counts the lines of the plain listing. -/
theorem tokens_agree_check (readFile : String → FileContent) (target : Target) :
    let check := (Command.check target).run readFile
    let tokens (coalescing : Bool) := (Command.tokens target coalescing).run readFile
    (∀ coalescing, (tokens coalescing).EndsAs check) ∧
    ((∀ language : Language, target.selector.toLower ∉ language.selectors) → check.code = 2) ∧
    (∀ language : Language, target.selector.toLower ∈ language.selectors →
      ((∀ content, readFile target.path ≠ .text content) → check.code = 4) ∧
      ∀ content, readFile target.path = .text content →
        check.code = 0 ∨ check.code = 1 ∧ language = .xml) ∧
    (check.code = 0 → check.stderr = "OK: " ++ target.path ++ " (" ++
      Nat.repr (lines (tokens false).stdout.toList).length ++ " tokens)\n") := by
  refine ⟨tokens_endsAs_check readFile target, code_check_of_unknown, ?_, stderr_check⟩
  intro language hselector
  have hlanguage := Target.language_eq_ok_iff.2 hselector
  exact ⟨code_check_of_unread hlanguage, fun content ↦ code_check_of_text hlanguage⟩

end

/-- A number in data gives one token; without the file, or under a selector that names no language,
there is nothing to be read. -/
theorem tokens_agree_check_number :
    let known : Target := { path := "n", selector? := some "JSON" }
    let unknown : Target := { path := "n", selector? := some "cobol" }
    let number (_ : String) := FileContent.text "1"
    let nothing (_ : String) := FileContent.missing
    ((Command.check known).run number).code = 0 ∧
      ((Command.check known).run number).stderr = "OK: n (1 tokens)\n" ∧
      ((Command.tokens known true).run number).stderr = "" ∧
      ((Command.check known).run nothing).code = 4 ∧
      ((Command.check unknown).run number).code = 2 := by
  intro known unknown number nothing
  have hknown : known.selector.toLower ∈ Language.json.selectors :=
    Language.ofSelector?_eq_some_iff.1 (by decide +kernel)
  have hunknown : ∀ language : Language, unknown.selector.toLower ∉ language.selectors :=
    Language.ofSelector?_eq_none_iff.1 (by decide +kernel)
  obtain ⟨hends, -, hcodes, hcount⟩ := tokens_agree_check number known
  have hcode : ((Command.check known).run number).code = 0 := by
    rcases (hcodes .json hknown).2 "1" rfl with hzero | ⟨-, hxml⟩
    · exact hzero
    · cases hxml
  have hlines : (lines ((Command.tokens known false).run number).stdout.toList).length = 1 := by
    have hcontent : number known.path = .text "1" := rfl
    rw [length_lines_tokens (Target.language_eq_ok_iff.2 hknown) hcontent]
    decide +kernel
  rw [hlines] at hcount
  refine ⟨hcode, hcount hcode, (hends true).stderr_eq_empty hcode, ?_, ?_⟩
  · exact ((tokens_agree_check nothing known).2.2.1 .json hknown).1 fun content ↦ by
      simp [nothing]
  · exact (tokens_agree_check number unknown).2.1 hunknown

end Cli

end Highlight
