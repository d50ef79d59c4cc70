import Lowering.Allocation.Allocator
import Lowering.Allocation.Coloring
import Lowering.Allocation.Interference
import Lowering.Allocation.Liveness
import Lowering.Allocation.Round
import Lowering.Allocation.Spill
import Lowering.Command
import Lowering.Digits
import Lowering.Dominance.Building
import Lowering.Dominance.Forest
import Lowering.Dominance.Frontier
import Lowering.Dominance.Immediate
import Lowering.Dominance.Tour
import Lowering.Dominance.Tree
import Lowering.Emission
import Lowering.Fault
import Lowering.Flow.Edges
import Lowering.Flow.Graph
import Lowering.Flow.Reachability
import Lowering.Flow.Search
import Lowering.Folder
import Lowering.Graph
import Lowering.Invocation
import Lowering.Json.Machine
import Lowering.Json.Reader
import Lowering.Json.Ssa
import Lowering.Json.Value
import Lowering.Machine.Check
import Lowering.Machine.Func
import Lowering.Machine.Instr
import Lowering.Machine.Printing
import Lowering.Main
import Lowering.MinQueue
import Lowering.Order
import Lowering.Pass
import Lowering.Pipeline
import Lowering.Proofs.Allocation.AllocationFrame
import Lowering.Proofs.Allocation.Candidates
import Lowering.Proofs.Allocation.Coloring
import Lowering.Proofs.Allocation.Conflicts
import Lowering.Proofs.Allocation.Convergence
import Lowering.Proofs.Allocation.Exhaustion
import Lowering.Proofs.Allocation.Idempotence
import Lowering.Proofs.Allocation.LiveRanges
import Lowering.Proofs.Allocation.OneRound
import Lowering.Proofs.Allocation.Painting
import Lowering.Proofs.Allocation.Preservation
import Lowering.Proofs.Allocation.Relief
import Lowering.Proofs.Allocation.Renumbering
import Lowering.Proofs.Allocation.Shelter
import Lowering.Proofs.Allocation.SpillLocality
import Lowering.Proofs.Allocation.SpillSlots
import Lowering.Proofs.Allocation.SpillSteps
import Lowering.Proofs.Allocation.Worklists
import Lowering.Proofs.Dominance.Blocks
import Lowering.Proofs.Dominance.PathCompression
import Lowering.Proofs.Dominance.Preorder
import Lowering.Proofs.Dominance.Tree
import Lowering.Proofs.Graph
import Lowering.Proofs.GraphContents
import Lowering.Proofs.Json.RoundTrip
import Lowering.Proofs.Machine.FrameLayout
import Lowering.Proofs.Machine.ModuleLabels
import Lowering.Proofs.QueueContents
import Lowering.Proofs.Ssa.IteratedFrontier
import Lowering.Proofs.Ssa.Precedence
import Lowering.Proofs.Ssa.PromotedRuns
import Lowering.Proofs.Ssa.PromotionFrame
import Lowering.Proofs.Ssa.Pruning
import Lowering.Proofs.Ssa.ReachablePart
import Lowering.Proofs.Ssa.Termination
import Lowering.Proofs.Ssa.Validity
import Lowering.Register
import Lowering.Settings
import Lowering.Settings.Document
import Lowering.Ssa.Check
import Lowering.Ssa.Func
import Lowering.Ssa.Incoming
import Lowering.Ssa.Printing
import Lowering.Ssa.Promotion
import Lowering.Ssa.Promotion.Joins
import Lowering.Ssa.Promotion.Placement
import Lowering.Ssa.Promotion.Renaming
import Lowering.Ssa.Promotion.Slots
import Lowering.Ssa.Pruning
import Lowering.Table
import Lowering.Text.Printable
import Lowering.Text.Quoted
import Lowering.Width
