import SchemaArtifacts.Export.Exporter

/-!
# Reports

A report says how the export of each namespace ended.

## Main definitions

* `Report` — the names by the end of their exports, and the time that passed
* `Report.record`, `Report.fail` — one more export has ended
* `Report.total`, `Report.summary` — all names together

## Main results

* `Report.total_record` — each recorded export counts once
-/

namespace SchemaArtifacts

/-- How exports ended. -/
structure Report where
  written : List Json := []
  cached : List Json := []
  skipped : List Json := []
  /-- The texts of failures by name. -/
  failed : List (Json × String) := []
  /-- Seconds. -/
  elapsed : Number := .real (.ofDecimal false ⟨0, 0⟩)

namespace Report

/-- An export has ended without a failure. One without a document counts as skipped. -/
def record (r : Report) (name : Json) : ExportStatus → Report
  | .written => { r with written := r.written ++ [name] }
  | .cached => { r with cached := r.cached ++ [name] }
  | .skipped | .noDocument => { r with skipped := r.skipped ++ [name] }

/-- An export has failed. A name that failed before keeps its place. -/
def fail (r : Report) (name : Json) (message : String) : Report :=
  { r with failed := Json.insert name message r.failed }

/-- How many names there are. -/
def total (r : Report) : Nat :=
  r.written.length + r.cached.length + r.skipped.length + r.failed.length

/-- One line that says how many names there are of each kind. -/
def summary (r : Report) : Except Number.OutOfRange String := do
  let seconds ← r.elapsed.twoPlaces
  return "Written: " ++ toString r.written.length ++ " | Cached: " ++ toString r.cached.length ++
    " | Skipped: " ++ toString r.skipped.length ++ " | Failed: " ++ toString r.failed.length ++
    " | Elapsed: " ++ seconds ++ "s"

theorem total_record (r : Report) (name : Json) (status : ExportStatus) :
    (r.record name status).total = r.total + 1 := by
  cases status <;> simp [record, total] <;> omega

end Report

end SchemaArtifacts
