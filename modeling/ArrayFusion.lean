import ArrayFusion.Cluster.Run
import ArrayFusion.Kernel.Execute
import ArrayFusion.Program.Binding
import ArrayFusion.Program.Issue
import ArrayFusion.Program.Run
import ArrayFusion.Proofs.Cluster.Refinement
import ArrayFusion.Proofs.Program.Binding
import ArrayFusion.Signature.Take
import ArrayFusion.Proofs.Pattern.Destructuring
import ArrayFusion.Proofs.Program.Pairing
import ArrayFusion.Proofs.Pattern.Rebuilding
import ArrayFusion.Proofs.Program.Dropping
import ArrayFusion.Proofs.Frame
import ArrayFusion.Proofs.Kernel.Writes
import ArrayFusion.Proofs.Heap.Liveness
import ArrayFusion.Proofs.Cluster.Release
import ArrayFusion.Proofs.Cluster.Countdown
import ArrayFusion.Proofs.Program.Issues
import ArrayFusion.Proofs.Program.Typing
import ArrayFusion.Proofs.Pattern.Typing
import ArrayFusion.Proofs.Program.Normalizing
import ArrayFusion.Proofs.Expr.Bounds
import ArrayFusion.Proofs.Kernel.Bounds
import ArrayFusion.Proofs.Program.Bounds
import ArrayFusion.Proofs.Expr.Preservation
import ArrayFusion.Proofs.Program.Preservation
import ArrayFusion.Proofs.Program.Strengthening
import ArrayFusion.Proofs.Merge.Definedness
import ArrayFusion.Proofs.Cluster.Footprint
import ArrayFusion.Proofs.Permutation.Groupoid
import ArrayFusion.Proofs.Cluster.Nesting
import ArrayFusion.Proofs.Cluster.Horizontal
import ArrayFusion.Proofs.Kernel.Arguments
import ArrayFusion.Proofs.Kernel.Elementwise
import ArrayFusion.Proofs.Kernel.Contents
import ArrayFusion.Proofs.Cluster.Vertical
import ArrayFusion.Proofs.Program.Composition
import ArrayFusion.Proofs.Program.Occurrences
import ArrayFusion.Proofs.Pattern.Restricting
import ArrayFusion.Proofs.Program.Image
import ArrayFusion.Proofs.Program.Unused
import ArrayFusion.Proofs.Program.NormalForm
import ArrayFusion.Proofs.Program.Sites
import ArrayFusion.Proofs.Heap.Session
import ArrayFusion.Proofs.Permutation.Shortest
import ArrayFusion.Proofs.Expr.Typability
import ArrayFusion.Proofs.Program.Discipline
import ArrayFusion.Proofs.Pattern.Sinking
import ArrayFusion.Proofs.Pattern.Renumbering
import ArrayFusion.Proofs.Pattern.Recovering
