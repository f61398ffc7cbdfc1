import KmlTree.Tree.Find
import KmlTree.Proofs.Document.RoundTrip
import KmlTree.Proofs.Document.Stability
import KmlTree.Proofs.Document.Policies
import KmlTree.Proofs.Document.Observed
import KmlTree.Proofs.Document.Depth
import KmlTree.Proofs.Document.Misplaced
import KmlTree.Proofs.Document.Transparency
import KmlTree.Proofs.Document.SchemaOrder
import KmlTree.Proofs.Document.Dropped
import KmlTree.Proofs.Document.Positions
import KmlTree.Proofs.Document.TypedFields
import KmlTree.Proofs.Markup.BuildOrder
import KmlTree.Proofs.Markup.Balance
import KmlTree.Proofs.Markup.Pieces
import KmlTree.Proofs.Reading.Liveness
import KmlTree.Proofs.Reading.FieldMarkup
import KmlTree.Proofs.Reading.Unclosed
import KmlTree.Proofs.Style.Loop
import KmlTree.Proofs.Tree.Search
import KmlTree.Proofs.Tree.Attributes
import KmlTree.Proofs.Text.Locations
import KmlTree.Proofs.Value.ColorText
