import StyleGate.Main
import StyleGate.Policy.Json
import StyleGate.Proofs.Accounting
import StyleGate.Proofs.Bench
import StyleGate.Proofs.Boundaries
import StyleGate.Proofs.Comments
import StyleGate.Proofs.Composition
import StyleGate.Proofs.Crew
import StyleGate.Proofs.Depth
import StyleGate.Proofs.Descent
import StyleGate.Proofs.Documents
import StyleGate.Proofs.Enclosure
import StyleGate.Proofs.Faults
import StyleGate.Proofs.Flattening
import StyleGate.Proofs.Handover
import StyleGate.Proofs.Independence
import StyleGate.Proofs.Loosening
import StyleGate.Proofs.Pruning
import StyleGate.Proofs.Spelling
import StyleGate.Proofs.Survivors
