import CallScript.Main
import CallScript.Access.Gate
import CallScript.Proofs.Value.Exploration
import CallScript.Proofs.Value.Unfolding
import CallScript.Proofs.Value.Snapshot
import CallScript.Proofs.Run.Soundness
import CallScript.Proofs.Function.Registered
import CallScript.Proofs.Function.Form
import CallScript.Proofs.Run.Reached
import CallScript.Proofs.Run.ArgumentOrder
import CallScript.Proofs.Run.Bond
import CallScript.Proofs.Run.Coupled
import CallScript.Proofs.Run.Limits
import CallScript.Proofs.Run.Termination
import CallScript.Proofs.Run.Isolation
import CallScript.Proofs.Program.RoundTrip
import CallScript.Proofs.Program.Endings
import CallScript.Proofs.Program.Cuts
import CallScript.Proofs.Program.Joining
import CallScript.Proofs.Session.LineByLine
import CallScript.Proofs.Session.Continuation
import CallScript.Proofs.Run.Builtins
import CallScript.Proofs.Run.Foresight
import CallScript.Proofs.Run.PlainResolver
import CallScript.Proofs.Run.Footprint
import CallScript.Proofs.Run.LiteralCells
import CallScript.Proofs.Run.Sightings
import CallScript.Proofs.Run.Stability
import CallScript.Proofs.Run.TypedParameters
import CallScript.Proofs.Run.Sure
import CallScript.Proofs.Run.InRange
import CallScript.Proofs.Screen.Dialogue
import CallScript.Proofs.Screen.Browsing
import CallScript.Proofs.Screen.Editing
import CallScript.Proofs.Value.Isomorphism
import CallScript.Proofs.Run.Assignment
import CallScript.Proofs.Access.Admissions
import CallScript.Proofs.Access.Independence
import CallScript.Proofs.Value.Equality
import CallScript.Proofs.Run.Blocks
import CallScript.Proofs.Run.OwnLets
import CallScript.Proofs.Run.Unwinding
import CallScript.Proofs.Run.CallChain
import CallScript.Proofs.Run.Effects
import CallScript.Proofs.Session.Recall
import CallScript.Proofs.Program.Positions
