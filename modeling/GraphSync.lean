import GraphSync.Graph.Edit
import GraphSync.Session.History
import GraphSync.Json.Reader
import GraphSync.Json.Printer
import GraphSync.Json.Forms
import GraphSync.Config.Document
import GraphSync.Sample.Automata
import GraphSync.Sample.Network
import GraphSync.Sample.Sessions
import GraphSync.Proofs.Correspondence.Calls
import GraphSync.Proofs.Pass.Cycles
import GraphSync.Proofs.Pass.Image
import GraphSync.Proofs.Pass.Accounting
import GraphSync.Proofs.Pass.Anchor
import GraphSync.Proofs.Pass.Completeness
import GraphSync.Proofs.Pass.Conflicts
import GraphSync.Proofs.Pass.Convergence
import GraphSync.Proofs.Pass.Idempotence
import GraphSync.Proofs.Pass.Mirroring
import GraphSync.Proofs.Pass.Order
import GraphSync.Proofs.Pass.Propagation
import GraphSync.Proofs.Pass.Removals
import GraphSync.Proofs.Pass.Safety
import GraphSync.Proofs.Pass.Stability
import GraphSync.Proofs.Pass.Termination
import GraphSync.Proofs.Pass.Survivors
import GraphSync.Proofs.Pass.Unlinking
import GraphSync.Proofs.Session.Foreign
import GraphSync.Proofs.Session.Source
import GraphSync.Proofs.Session.Symmetry
import GraphSync.Proofs.Session.Typed
import GraphSync.Proofs.Flush.Faults
import GraphSync.Proofs.Flush.Consumption
import GraphSync.Proofs.Flush.Deletions
import GraphSync.Proofs.Flush.Order
import GraphSync.Proofs.Flush.Agreement
import GraphSync.Proofs.Pass.Retry
import GraphSync.Graph.History
import GraphSync.Proofs.Graph.History
import GraphSync.Proofs.Graph.Replay
import GraphSync.Proofs.Correspondence.Requests
import GraphSync.Proofs.Pass.Dispatch
import GraphSync.Proofs.Graph.Deletion
import GraphSync.Proofs.Walk.Settled
import GraphSync.Proofs.Flush.Repetition
import GraphSync.Proofs.Graph.Refusal
import GraphSync.Proofs.Rule.Indexed
import GraphSync.Proofs.Json.Forms
