import SyntaxForest.Conversion.Convert
import SyntaxForest.Forest.Build
import SyntaxForest.Forest.Chains
import SyntaxForest.Forest.Copy
import SyntaxForest.Forest.Lineage
import SyntaxForest.Forest.Moves
import SyntaxForest.Report.Render
import SyntaxForest.Tree.Reading
import SyntaxForest.Types.Table
import SyntaxForest.Walk.Editor
import SyntaxForest.Walk.Visitor
import SyntaxForest.Proofs.Aliasing
import SyntaxForest.Proofs.SourceText
import SyntaxForest.Proofs.Flattening
import SyntaxForest.Proofs.Regrouping
import SyntaxForest.Proofs.Branches
import SyntaxForest.Proofs.StatementText
import SyntaxForest.Proofs.Counterparts
import SyntaxForest.Proofs.CopyMap
import SyntaxForest.Proofs.Outcomes
import SyntaxForest.Proofs.Nesting
import SyntaxForest.Proofs.BottomUp
import SyntaxForest.Proofs.Ancestry
import SyntaxForest.Proofs.Traversing
import SyntaxForest.Proofs.Bookkeeping
import SyntaxForest.Proofs.Reading
import SyntaxForest.Proofs.TypeTexts
import SyntaxForest.Proofs.Independence
import SyntaxForest.Proofs.Destroying
import SyntaxForest.Proofs.FieldCopies
import SyntaxForest.Proofs.Installing
import SyntaxForest.Proofs.Swapping
import SyntaxForest.Proofs.Conserving
import SyntaxForest.Proofs.Undoing
import SyntaxForest.Proofs.Options
import SyntaxForest.Proofs.Literals
import SyntaxForest.Proofs.Sequencing
import SyntaxForest.Proofs.Promotion
import SyntaxForest.Proofs.Layout
import SyntaxForest.Proofs.Reports
import SyntaxForest.Proofs.Pointing
import SyntaxForest.Proofs.Descriptions
import SyntaxForest.Proofs.Recycling
