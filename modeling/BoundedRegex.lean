import BoundedRegex.Main
import BoundedRegex.Proofs.Match.Config
import BoundedRegex.Proofs.Match.Refinement
import BoundedRegex.Proofs.Pattern.Expr
import BoundedRegex.Proofs.Pattern.Results
import BoundedRegex.Proofs.Match.Offers
import BoundedRegex.Proofs.Code.Layout
import BoundedRegex.Proofs.Match.CommittedLoop
import BoundedRegex.Proofs.Code.Buffer
import BoundedRegex.Proofs.Code.Validation
import BoundedRegex.Proofs.Compile.Compiler
import BoundedRegex.Proofs.Compiled
import BoundedRegex.Proofs.Loaded
import BoundedRegex.Proofs.Code.Admission
import BoundedRegex.Proofs.Code.Loadable
import BoundedRegex.Proofs.Snippet.Array
import BoundedRegex.Proofs.Snippet.Declaration
import BoundedRegex.Proofs.Stored
import BoundedRegex.Proofs.Generated
import BoundedRegex.Proofs.Logged
import BoundedRegex.Proofs.CaptureSlots
import BoundedRegex.Proofs.Accepted
import BoundedRegex.Proofs.Isolated
import BoundedRegex.Proofs.Limited
import BoundedRegex.Proofs.Nullable
import BoundedRegex.Proofs.FixedCaptures
import BoundedRegex.Proofs.Exported
import BoundedRegex.Proofs.Resized
import BoundedRegex.Proofs.Code.Sequence
import BoundedRegex.Proofs.StackDiscipline
import BoundedRegex.Proofs.Leftmost
import BoundedRegex.Proofs.LoopForms
import BoundedRegex.Proofs.Greediness
import BoundedRegex.Proofs.Match.Ample
import BoundedRegex.Proofs.Replayed
import BoundedRegex.Proofs.Transparent
import BoundedRegex.Proofs.CaptureRegions
import BoundedRegex.Proofs.ScratchDepth
import BoundedRegex.Proofs.LiteralSearch
import BoundedRegex.Proofs.Counted
import BoundedRegex.Proofs.Bracketed
import BoundedRegex.Proofs.Shortest
import BoundedRegex.Proofs.Scanned
import BoundedRegex.Proofs.Capacity
import BoundedRegex.Proofs.Pinpointed
import BoundedRegex.Proofs.Compile.Alternations
import BoundedRegex.Proofs.Performed
