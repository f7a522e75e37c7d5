import Specimen.Declaration.Json
import Specimen.Files.FileSystem
import Specimen.Main
import Specimen.Proofs.Reference.Search
import Specimen.Proofs.Reference.Caught
import Specimen.Proofs.Reference.Detection
import Specimen.Proofs.Declaration.Index
import Specimen.Proofs.Declaration.Text
import Specimen.Proofs.Generation.Agreement
import Specimen.Proofs.Generation.Nesting
import Specimen.Proofs.Generation.Conformance
import Specimen.Proofs.Generation.Override
import Specimen.Proofs.Generation.Locality
import Specimen.Proofs.Generation.Null
import Specimen.Proofs.Generation.Divergence
import Specimen.Proofs.Generation.Membership
import Specimen.Proofs.Generation.Recurrence
import Specimen.Proofs.Generation.Flattening
import Specimen.Proofs.Generation.Literals
import Specimen.Proofs.Options.Format
import Specimen.Proofs.Source.RoundTrip
import Specimen.Proofs.Source.Tiling
import Specimen.Proofs.Source.RespacedDocument
import Specimen.Proofs.Source.Interspersed
import Specimen.Proofs.Source.CutShort
import Specimen.Proofs.Source.Signatures
import Specimen.Proofs.Source.LineBreaks
import Specimen.Proofs.Reference.Mention
import Specimen.Proofs.Source.Loops
import Specimen.Proofs.Source.FaultPlace
import Specimen.Proofs.Source.InterfaceHead
import Specimen.Proofs.Generation.Bounds
import Specimen.Proofs.Generation.Unbroken
import Specimen.Proofs.Sample.Lookup
import Specimen.Proofs.Command.Output
import Specimen.Proofs.Source.ComputedValue
import Specimen.Proofs.Source.NumberValue
import Specimen.Proofs.Reference.Retracing
import Specimen.Proofs.Source.ClosingBracket
import Specimen.Proofs.Source.Position
import Specimen.Proofs.Declaration.LastNamed
