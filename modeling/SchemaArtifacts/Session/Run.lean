import SchemaArtifacts.Export.Report
import SchemaArtifacts.Format.Label
import SchemaArtifacts.Session.Schedule

/-!
# Exporting a schema

Each document of a schema is brought to the cache by a delivery of its own. All share one cache, and
the failure of one is recorded and does not stop the others.

## Main definitions

* `ExportRequest` — what is to be exported and how
* `Session.ofDocuments` — a session of one delivery for each document
* `Session.report` — how the deliveries of a session ended
* `Cache.exportAll` — the documents that a request asks for are exported

## Main results

* `Cache.snd_run_exportAll_finish` — what an export leaves behind does not depend on when it ends
-/

namespace SchemaArtifacts

/-- What is to be exported and how. -/
structure ExportRequest where
  /-- The label of the format. -/
  format : String := "ts"
  /-- How many exports may be on their way together. -/
  concurrency : Int := 20
  /-- The names to start from; a false value stands for all names. -/
  roots : Json := .null
  /-- The time at the start and at the end, in seconds. -/
  start : Number := .int 0
  finish : Number := .int 0

namespace Session

/-- A session of one delivery for each document. -/
def ofDocuments (cache : Cache) (format : Format) (limit : Nat) (documents : List Document) :
    Session :=
  { cache, limit
    deliveries := documents.map fun doc => { exporter := { doc := some doc, format } } }

/-- Notes in a report how a delivery has ended. -/
def note (s : Session) (r : Report) (i : Nat) : Report :=
  match s.deliveries[i]? with
  | none => r
  | some d =>
    match d.exporter.doc, d.result? with
    | some doc, some (.ok status) => r.record doc.name status
    | some doc, some (.error e) => r.fail doc.name e.message
    | _, _ => r

/-- How the deliveries of a session ended, in the order of their ends. -/
def report (s : Session) : Report := s.ended.foldl s.note {}

end Session

namespace Cache

/-- The documents that a request asks for are exported. Without documents nothing else of the
request is looked at. A report that cannot be summed up, because of its time, is none. -/
def exportAll (request : ExportRequest) (schema : Schema) : Act Cache Report := do
  let documents ← Act.ofExcept .shape (schema.collect request.roots)
  if documents.isEmpty then return {}
  if request.concurrency < 0 then throw .negativeConcurrency
  let format ← MonadExcept.ofExcept (Format.ofLabel request.format)
  let session := Session.ofDocuments (← get) format request.concurrency.toNat documents
  let done := session.finish
  set done.cache
  let elapsed ← Act.ofExcept .range (request.finish.sub request.start)
  let report := { done.report with elapsed }
  discard (Act.ofExcept .range report.summary)
  return report

/-- What an export leaves behind does not depend on when it ends. -/
theorem snd_run_exportAll_finish (request : ExportRequest) (finish : Number) (schema : Schema)
    (c : Cache) :
    ((exportAll { request with finish } schema).run c).2 =
      ((exportAll request schema).run c).2 := by
  -- The time is asked for last, and by then the cache has been left as it is.
  have hend : ∀ (report : Number → Report) (finish : Number) (c : Cache),
      ((do
        let elapsed ← Act.ofExcept .range (finish.sub request.start)
        discard (Act.ofExcept .range (report elapsed).summary)
        return report elapsed : Act Cache Report).run c).2 = c := by
    intro report finish c
    rw [Act.run_bind]
    cases finish.sub request.start with
    | error e => rfl
    | ok elapsed =>
      rw [Act.run_ofExcept_ok]
      dsimp only
      rw [Act.run_bind, Act.run_discard]
      cases (report elapsed).summary <;> rfl
  unfold exportAll
  rw [Act.run_bind, Act.run_bind]
  cases schema.collect request.roots with
  | error e => rfl
  | ok documents =>
    rw [Act.run_ofExcept_ok]
    dsimp only
    split
    · rfl
    · split
      · rfl
      · cases Format.ofLabel request.format with
        | error e => rfl
        | ok format => exact (hend _ _ _).trans (hend _ _ _).symm

end Cache

end SchemaArtifacts
