import TreePass.Adapter.Stock
import TreePass.Codec.Decode
import TreePass.Forest.Cursor
import TreePass.Guard.Stock
import TreePass.Proofs.Chain.Ledger
import TreePass.Proofs.Chain.Transparency
import TreePass.Proofs.Chain.WellPlaced
import TreePass.Proofs.Rewrite.Refinement
import TreePass.Rule.Stock
import TreePass.Sketch
import TreePass.View
import TreePass.Proofs.Plan.Verdict
import TreePass.Proofs.Editing.Tree
import TreePass.Proofs.Node.Maps
import TreePass.Proofs.Staging.Lookup
import TreePass.Proofs.Editing.Grove
import TreePass.Proofs.Editing.Mirror
import TreePass.Proofs.Editing.Simulation
import TreePass.Proofs.Rewrite.Balance
import TreePass.Proofs.Node.Alike
import TreePass.Proofs.Node.Twin
import TreePass.Proofs.Rule.Plain
import TreePass.Proofs.Rewrite.Likeness
import TreePass.Proofs.Forest.Accuracy
import TreePass.Proofs.Staging.Building
import TreePass.Proofs.Staging.RoundTrip
import TreePass.Proofs.Rewrite.Ending
import TreePass.Proofs.Rewrite.Correspondence
import TreePass.Proofs.Rewrite.Identity
import TreePass.Proofs.Rewrite.Composite
import TreePass.Proofs.Rewrite.Independence
import TreePass.Proofs.Attribute.Order
import TreePass.Proofs.Codec.RoundTrip
import TreePass.Proofs.Rewrite.Pruning
import TreePass.Proofs.Rewrite.Renaming
import TreePass.Proofs.Rewrite.Fusion
import TreePass.Proofs.Rewrite.Changes
import TreePass.Proofs.Staging.Met
import TreePass.Proofs.Staging.Gaps
import TreePass.Proofs.Rewrite.Reordering
import TreePass.Proofs.Rewrite.Repetition
import TreePass.Proofs.Staging.OneNode
import TreePass.Proofs.Editing.Answers
import TreePass.Proofs.Forest.Addressing
import TreePass.Proofs.Node.Canonical
import TreePass.Proofs.Path.Text
import TreePass.Proofs.Plan.Linking
import TreePass.Proofs.Rewrite.Coverage
import TreePass.Proofs.Attribute.Precedence
import TreePass.Proofs.Attribute.History
import TreePass.Proofs.Forest.Traversal
import TreePass.Proofs.Outline
import TreePass.Proofs.Editing.Renaming
