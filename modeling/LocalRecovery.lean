import LocalRecovery.Engine
import LocalRecovery.Instruction.Meaning
import LocalRecovery.Pass.Script
import LocalRecovery.Proofs.Encodable
import LocalRecovery.Proofs.Correspondence
import LocalRecovery.Proofs.Bindings
import LocalRecovery.Proofs.Handled
import LocalRecovery.Proofs.Narrowing
import LocalRecovery.Proofs.Simulation
import LocalRecovery.Proofs.Dangling
import LocalRecovery.Proofs.Removal
import LocalRecovery.Proofs.Settled
import LocalRecovery.Proofs.SecondRun
import LocalRecovery.Proofs.Independence
import LocalRecovery.Proofs.EngineRun
import LocalRecovery.Proofs.Accounting
import LocalRecovery.Proofs.Exhaustion
import LocalRecovery.Proofs.Composition
import LocalRecovery.Proofs.Switches
import LocalRecovery.Proofs.Respelling
import LocalRecovery.Proofs.Shortest
import LocalRecovery.Proofs.Confluence
import LocalRecovery.Proofs.ChangeFlag
import LocalRecovery.Proofs.Recount
import LocalRecovery.Proofs.GlobalType
import LocalRecovery.Proofs.Decoding
import LocalRecovery.Proofs.Views
import LocalRecovery.Proofs.Unambiguous
