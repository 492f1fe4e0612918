import MultiSwap.Bench
import MultiSwap.Call.OnList
import MultiSwap.Counting
import MultiSwap.Display.Parts
import MultiSwap.Element.Binary64
import MultiSwap.Element.Caseless
import MultiSwap.Element.Keyed
import MultiSwap.Element.Tree
import MultiSwap.Memory.Logical
import MultiSwap.Proofs.Custody
import MultiSwap.Proofs.Exchange
import MultiSwap.Proofs.Justified
import MultiSwap.Proofs.Late
import MultiSwap.Proofs.Linearizable
import MultiSwap.Proofs.LockFree
import MultiSwap.Proofs.Nesting
import MultiSwap.Proofs.Once
import MultiSwap.Proofs.Safety
import MultiSwap.Proofs.Shift
import MultiSwap.Proofs.Tally
import MultiSwap.Proofs.Summary
import MultiSwap.Proofs.Frontier
import MultiSwap.Proofs.Tenure
import MultiSwap.Proofs.Handover
import MultiSwap.Proofs.Footprint
import MultiSwap.Proofs.Apart
import MultiSwap.Proofs.Interference
import MultiSwap.Proofs.Recurrence
import MultiSwap.Proofs.Relief
