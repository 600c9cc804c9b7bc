import SelectorCheck.Discovery

/-
  Analyses of whole directories.

  The files are analyzed one by one in order. A file that a front end refuses is
  skipped and not counted, unless the analyzer is told to fail on it; any other
  failure ends the analysis. The report is put in order at the end.
-/

namespace SelectorCheck

namespace Analyzer

abbrev FileOutcome := Except AnalysisError (List Violation)

def analyzeFile (a : Analyzer) (reads : FlagReads) (f : FoundFile) : FileOutcome :=
  match a.frontEnd? f.path with
  | none => .ok []
  | some front =>
    match f.text with
    | .error message => .error (.unreadable message)
    | .ok text => a.checkText front reads f.path text

/-- Adds the outcomes of files to a report, up to the first failure. -/
def collect (a : Analyzer) (r : Report) : List FileOutcome → Except AnalysisError Report
  | [] => .ok r
  | .ok violations :: rest =>
    a.collect (r.append { violations, filesChecked := 1 }) rest
  | .error (.unparsable path cause) :: rest =>
    if a.failOnParseError then .error (.unparsable path cause) else a.collect r rest
  | .error e :: _ => .error e

/-- The report on the outcomes of files. A set flag is an error even if no file
failed. -/
def conclude (a : Analyzer) (outcomes : List FileOutcome) (cancelled : Bool) :
    Except AnalysisError Report :=
  match a.collect {} outcomes with
  | .error e => .error e
  | .ok r => if cancelled then .error .cancelled else .ok r.sort

/-- The report on files that were found. No file is begun once the flag is set. -/
def report (a : Analyzer) (files : List FoundFile) (cancelled : Bool := false) :
    Except AnalysisError Report :=
  a.conclude (if cancelled then [] else files.map (a.analyzeFile (.const false))) cancelled

/-- The report on a whole directory. A cancelled analysis still looks for its
files. -/
def analyze (a : Analyzer) (m : Machine) (cancelled : Bool := false) :
    Except AnalysisError Report :=
  match a.discover m with
  | .error e => .error e
  | .ok files => a.report files cancelled

/-- The log lines on files that a front end refuses. -/
def refusedEvents (outcomes : List FileOutcome) : List Event :=
  outcomes.filterMap fun
    | .error (.unparsable path cause) =>
      some ⟨.warn, s!"Failed to parse {path.text}: {cause.message}"⟩
    | _ => none

/-- The log of an analysis that succeeds. -/
def analyzeEvents (a : Analyzer) (m : Machine) : List Event :=
  match (a.ignoreSettings m).search a.root with
  | .error _ => []
  | .ok found =>
    let files := a.admitted found
    let start := a.root.text.quote
    let outcomes := files.map (a.analyzeFile (.const false))
    [⟨.info, s!"Starting analysis at {start}"⟩] ++ a.excludedEvents found
      ++ [⟨.info, s!"Found {files.length} files to analyze"⟩,
          ⟨.debug, s!"Analyzing with {max 1 (min a.workers files.length)} worker(s)"⟩]
      ++ refusedEvents outcomes
      ++ match a.report files with
        | .error _ => []
        | .ok r =>
          [⟨.info,
            s!"Analysis complete: {r.violations.length} violations in {r.filesChecked} files"⟩]

end Analyzer

end SelectorCheck
