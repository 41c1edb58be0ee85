import SchemaArtifacts.Address
import SchemaArtifacts.Main
import SchemaArtifacts.Package
import SchemaArtifacts.Export.Rehearsal
import SchemaArtifacts.Name.Location
import SchemaArtifacts.Path.Lexical
import SchemaArtifacts.Sorting.Gallop
import SchemaArtifacts.Sorting.Merge
import SchemaArtifacts.Sorting.Stable
import SchemaArtifacts.Text.Plain
import SchemaArtifacts.Proofs.Export.Relocation
import SchemaArtifacts.Proofs.Session.Again
import SchemaArtifacts.Proofs.Session.Alone
import SchemaArtifacts.Proofs.Session.Import
import SchemaArtifacts.Proofs.Session.Kept
import SchemaArtifacts.Proofs.Session.Presence
import SchemaArtifacts.Proofs.Session.Unlocated
import SchemaArtifacts.Proofs.Session.WriteOnce
import SchemaArtifacts.Proofs.Model.BreadthFirst
import SchemaArtifacts.Proofs.Export.Specifier
import SchemaArtifacts.Proofs.Model.Description
import SchemaArtifacts.Proofs.Export.Reordering
import SchemaArtifacts.Proofs.Format.Table
import SchemaArtifacts.Proofs.Export.Naming
import SchemaArtifacts.Proofs.Export.OutputPath
import SchemaArtifacts.Proofs.Cache.Aftermath
import SchemaArtifacts.Proofs.Cache.Tries
import SchemaArtifacts.Proofs.Number.Delay
import SchemaArtifacts.Proofs.Session.Together
import SchemaArtifacts.Proofs.Session.Cancelled
import SchemaArtifacts.Proofs.Disk.Rubbish
import SchemaArtifacts.Proofs.Export.Checked
import SchemaArtifacts.Proofs.Export.Imports
import SchemaArtifacts.Proofs.Export.Quoting
import SchemaArtifacts.Proofs.Format.Unambiguous
import SchemaArtifacts.Proofs.Export.Ledger
import SchemaArtifacts.Proofs.Export.Apart
import SchemaArtifacts.Proofs.Export.Rendering
