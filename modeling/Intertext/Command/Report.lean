import Intertext.Index.Resolve
import Intertext.Index.Sync
import Intertext.Text.Json
/-!
Reports of the command line.
-/

namespace Intertext.Command

open Text (Json)
open Index (Totals ProjectSync CorpusSync Location Resolution)

/-- The totals of a sync. -/
def totalsFields (totals : Totals) : List (String × Json) :=
  [("added", .number totals.added), ("updated", .number totals.updated),
    ("removed", .number totals.removed), ("skipped", .number totals.skipped)]

/-- What syncing did to a project. -/
def projectReport (project : ProjectSync) : Json :=
  .table (("action", .text project.label) :: totalsFields project.totals)

/-- What syncing did to the corpus. -/
def syncReport (sync : CorpusSync) : Json :=
  .table (totalsFields sync.totals ++
    [("orphaned_projects_removed", .number sync.orphans),
      ("projects", .table (sync.projects.map fun (name, project) =>
        (name, projectReport project)))])

/-- Where an identifier is; `kind` stands among the fields in their order. -/
def locationReport (location : Location) (kind : List (String × Json)) : Json :=
  .table ([("element_path", Json.ofOption location.path),
      ("file_name", .text location.file.name)] ++
    kind ++ [("project", .text location.file.project), ("urn", .text location.urn)])

/-- What an identifier denotes, fields in the order of their names. -/
def resolutionReport : Resolution → Json
  | .single location => locationReport location [("kind", .text "single")]
  | .range start stop =>
    .table [("end", locationReport stop []), ("kind", .text "range"),
      ("start", locationReport start [])]

/-- What an identifier denotes, each with the path of its file. -/
def resolveReport (base : String) (resolutions : List Resolution) : Json :=
  .list (resolutions.map fun resolution =>
    .table [("path", .text (Index.filePath base resolution.file)),
      ("resolution", resolutionReport resolution)])

/-- How much is recorded of projects. -/
def statsReport (stats : List Index.Tables.Stats) : Json :=
  .list (stats.map fun project =>
    .table [("project", .text project.project), ("files", .number project.files),
      ("urns", .number project.urns), ("references", .number project.references)])

end Intertext.Command
