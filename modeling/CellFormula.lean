import CellFormula.Command.Arguments
import CellFormula.Command.Files
import CellFormula.Command.Invocation
import CellFormula.Command.Run
import CellFormula.Document.Decode
import CellFormula.Document.Fault
import CellFormula.Document.Fields
import CellFormula.Document.Kind
import CellFormula.Document.Node
import CellFormula.Document.Position
import CellFormula.Document.Read
import CellFormula.Document.View
import CellFormula.Formula.Analysis
import CellFormula.Formula.Basic
import CellFormula.Formula.Chain
import CellFormula.Formula.Fault
import CellFormula.Formula.Text
import CellFormula.Formula.Validity
import CellFormula.Json.Error
import CellFormula.Json.Numeral
import CellFormula.Json.Read
import CellFormula.Json.Value
import CellFormula.Json.Write
import CellFormula.Main
import CellFormula.Number.Binary64
import CellFormula.Number.Layout
import CellFormula.Number.Numeral
import CellFormula.Number.Rounding
import CellFormula.Number.Shortest
import CellFormula.Proofs.Alike
import CellFormula.Proofs.Blanks
import CellFormula.Proofs.Calls
import CellFormula.Proofs.ChainEdits
import CellFormula.Proofs.ChainFacts
import CellFormula.Proofs.ChainShape
import CellFormula.Proofs.Clean
import CellFormula.Proofs.Closed
import CellFormula.Proofs.Compact
import CellFormula.Proofs.Comparisons
import CellFormula.Proofs.Composition
import CellFormula.Proofs.Cuts
import CellFormula.Proofs.Decimals
import CellFormula.Proofs.Decoding
import CellFormula.Proofs.Documents
import CellFormula.Proofs.Faithful
import CellFormula.Proofs.FieldOrder
import CellFormula.Proofs.Groups
import CellFormula.Proofs.Image
import CellFormula.Proofs.Inverse
import CellFormula.Proofs.JsonGrammar
import CellFormula.Proofs.JsonNumbers
import CellFormula.Proofs.JsonStrings
import CellFormula.Proofs.JsonText
import CellFormula.Proofs.KnownNames
import CellFormula.Proofs.Layouts
import CellFormula.Proofs.Levels
import CellFormula.Proofs.LoadedDepth
import CellFormula.Proofs.LoadedTrees
import CellFormula.Proofs.Locality
import CellFormula.Proofs.Losses
import CellFormula.Proofs.LowerCase
import CellFormula.Proofs.Misplaced
import CellFormula.Proofs.Narrow
import CellFormula.Proofs.NodeForms
import CellFormula.Proofs.NormalForm
import CellFormula.Proofs.NumberTexts
import CellFormula.Proofs.Outline
import CellFormula.Proofs.Overflow
import CellFormula.Proofs.Parentheses
import CellFormula.Proofs.Pieces
import CellFormula.Proofs.Pipeline
import CellFormula.Proofs.Preview
import CellFormula.Proofs.Provenance
import CellFormula.Proofs.QuotedTexts
import CellFormula.Proofs.ReadLayouts
import CellFormula.Proofs.ReadNumbers
import CellFormula.Proofs.Recognition
import CellFormula.Proofs.RecordSpellings
import CellFormula.Proofs.RecordUpdates
import CellFormula.Proofs.Records
import CellFormula.Proofs.References
import CellFormula.Proofs.RegistryUpdates
import CellFormula.Proofs.RereadTrees
import CellFormula.Proofs.Rereading
import CellFormula.Proofs.ResavedTrees
import CellFormula.Proofs.Retry
import CellFormula.Proofs.RoundTrip
import CellFormula.Proofs.Rounding
import CellFormula.Proofs.Shapes
import CellFormula.Proofs.ShortNumbers
import CellFormula.Proofs.Shortest
import CellFormula.Proofs.SortedMembers
import CellFormula.Proofs.Spelling
import CellFormula.Proofs.Subtrees
import CellFormula.Proofs.Suggestions
import CellFormula.Proofs.Surface
import CellFormula.Proofs.TreeSizes
import CellFormula.Proofs.TreeSpellings
import CellFormula.Proofs.ValidTrees
import CellFormula.Proofs.Weights
import CellFormula.Proofs.WrittenTexts
import CellFormula.Reading.Error
import CellFormula.Reading.Parse
import CellFormula.Reading.Rules
import CellFormula.Record.Basic
import CellFormula.Record.Document
import CellFormula.Record.Metadata
import CellFormula.Registry
import CellFormula.Scan.Nesting
import CellFormula.Scan.Split
import CellFormula.Scan.Wrapped
import CellFormula.Symbol
import CellFormula.Text.Blank
import CellFormula.Text.CaseTable
import CellFormula.Text.LowerCase
import CellFormula.Text.NameShape
import CellFormula.Text.Quoted
import CellFormula.Text.VisibilityTable
