import Lisplet.Interpreter.Reach
import Lisplet.Main
import Lisplet.Proofs.Environment.Coherence
import Lisplet.Proofs.Environment.Erasure
import Lisplet.Proofs.Keeping
import Lisplet.Proofs.Kinds
import Lisplet.Proofs.Frames
import Lisplet.Proofs.Presence
import Lisplet.Proofs.Frames.Evaluation
import Lisplet.Proofs.Containment
import Lisplet.Proofs.Containment.Evaluation
import Lisplet.Proofs.Containment.Programs
import Lisplet.Proofs.Frames.Scope
import Lisplet.Proofs.Settled
import Lisplet.Proofs.Lockstep
import Lisplet.Proofs.Lockstep.Programs
import Lisplet.Proofs.Containment.Capture
import Lisplet.Proofs.Termination
import Lisplet.Proofs.Reading
import Lisplet.Proofs.Reading.RoundTrip
import Lisplet.Proofs.Reading.Brackets
import Lisplet.Proofs.Reading.Layout
import Lisplet.Proofs.Reading.Extension
import Lisplet.Proofs.Reading.Comments
import Lisplet.Proofs.Realm
import Lisplet.Proofs.Congruence
import Lisplet.Proofs.Budget
import Lisplet.Proofs.Renaming.Parallel
import Lisplet.Proofs.Renaming.Evaluation
import Lisplet.Proofs.Wholeness
import Lisplet.Proofs.Wholeness.Evaluation
import Lisplet.Proofs.Application
import Lisplet.Proofs.Clauses
import Lisplet.Proofs.Arithmetic
import Lisplet.Proofs.Comparison
import Lisplet.Proofs.Printing
import Lisplet.Proofs.Naming
import Lisplet.Proofs.Prompt
import Lisplet.Proofs.Prompt.Waiting
import Lisplet.Proofs.Forgetting
import Lisplet.Proofs.Forgetting.Evaluation
import Lisplet.Proofs.Lookup
import Lisplet.Proofs.Vectors
import Lisplet.Proofs.Equality.Trees
import Lisplet.Proofs.Data
import Lisplet.Proofs.Origin
import Lisplet.Proofs.Reading.Window
import Lisplet.Proofs.Arity
import Lisplet.Proofs.TailCalls
