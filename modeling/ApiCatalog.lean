import ApiCatalog.Json.Reader
import ApiCatalog.Main
import ApiCatalog.Proofs.Block.Writing
import ApiCatalog.Proofs.Document.Codec
import ApiCatalog.Proofs.Report
import ApiCatalog.Proofs.Document.Algebra
import ApiCatalog.Proofs.Contribution
import ApiCatalog.Proofs.Document.Edits
import ApiCatalog.Proofs.Report.Order
import ApiCatalog.Proofs.Block.Place
import ApiCatalog.Proofs.Offence
import ApiCatalog.Proofs.Document.Inert
import ApiCatalog.Proofs.Text.Case
import ApiCatalog.Proofs.Contribution.Complete
import ApiCatalog.Proofs.Command.Init
import ApiCatalog.Proofs.Discovery.Fate
import ApiCatalog.Proofs.Path
import ApiCatalog.Proofs.FileTree
import ApiCatalog.Proofs.Command.Frame
import ApiCatalog.Proofs.FileTree.Below
import ApiCatalog.Proofs.Discovery.Relocation
import ApiCatalog.Proofs.Yaml.Quoted
import ApiCatalog.Proofs.Yaml.Lines
import ApiCatalog.Proofs.Yaml.Collections
import ApiCatalog.Proofs.Yaml.Rooted
import ApiCatalog.Proofs.Command.ManifestText
import ApiCatalog.Proofs.Command.ReadBack
import ApiCatalog.Proofs.Section
import ApiCatalog.Proofs.Param
import ApiCatalog.Proofs.Record.Notes
import ApiCatalog.Proofs.Record.Changes
import ApiCatalog.Proofs.Manifest
import ApiCatalog.Proofs.Record.Plain
import ApiCatalog.Proofs.Block.Position
import ApiCatalog.Proofs.Report.Listing
import ApiCatalog.Proofs.Discovery.Merge
import ApiCatalog.Proofs.Location.Boundary
import ApiCatalog.Proofs.Path.SourceName
import ApiCatalog.Proofs.Report.Faithful
