import CodeSplice.Main
import CodeSplice.Proofs.Document.Bears
import CodeSplice.Proofs.Document.Formatting
import CodeSplice.Proofs.Patch.Source
import CodeSplice.Proofs.Syntax.Run
import CodeSplice.Proofs.Syntax.Front
import CodeSplice.Proofs.Document.Holds
import CodeSplice.Proofs.Document.Carries
import CodeSplice.Proofs.Document.Pieces
import CodeSplice.Proofs.Document.Attachment
import CodeSplice.Proofs.Document.Head
import CodeSplice.Proofs.Syntax.Parts
import CodeSplice.Proofs.Document.Bodies
import CodeSplice.Proofs.Document.Listing
import CodeSplice.Proofs.Document.Stray
import CodeSplice.Proofs.Document.Conservation
import CodeSplice.Proofs.Patch.Order
import CodeSplice.Proofs.Patch.Progress
import CodeSplice.Proofs.Edit.Outcome
import CodeSplice.Proofs.Feature.ApiDocs
import CodeSplice.Proofs.Patch.Rerun
import CodeSplice.Proofs.Files.Tree
import CodeSplice.Proofs.Files.Replacing
import CodeSplice.Proofs.Project.Frame
import CodeSplice.Proofs.Project.Trial
import CodeSplice.Proofs.Document.Members
import CodeSplice.Proofs.Feature.Generated
import CodeSplice.Proofs.Layout.LineEnds
import CodeSplice.Proofs.Layout.Tidy
import CodeSplice.Proofs.Document.Neat
import CodeSplice.Proofs.Layout.Canonical
import CodeSplice.Proofs.Document.Shape
import CodeSplice.Proofs.Edit.Placing
import CodeSplice.Proofs.Edit.Binding
import CodeSplice.Proofs.Edit.Method
import CodeSplice.Proofs.Edit.Call
import CodeSplice.Proofs.Document.Seam
import CodeSplice.Proofs.Edit.Lines
import CodeSplice.Proofs.Edit.Tiers
import CodeSplice.Proofs.Patch.Warning
import CodeSplice.Proofs.Layout.Reread
import CodeSplice.Proofs.Feature.Body
import CodeSplice.Proofs.Document.Calls
import CodeSplice.Proofs.Document.RoundTrip
import CodeSplice.Proofs.Document.Template
import CodeSplice.Proofs.Layout.Stable
import CodeSplice.Proofs.Layout.Depth
import CodeSplice.Proofs.Config.Cause
import CodeSplice.Proofs.Layout.Unit
import CodeSplice.Proofs.Layout.Normal
import CodeSplice.Proofs.Layout.Nested
