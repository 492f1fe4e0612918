import MultiSwap.Verdict

/-! What a call notes down on its way: which parts of the work it enters, and what came of a step.
The notes of swaps and decisions are made by the winner alone. -/

namespace MultiSwap

inductive Note where
  | enterGet (slot : Nat)
  | enterSet (slot : Nat)
  | enterCas (slot : Nat)
  | enterMcas (words : Nat)
  | enterClaim
  | enterCommit
  | enterRollback
  | decided (v : Verdict)
  | helpsHandoff (slot : Nat)
  | helpsOperation (slots : Nat)
  | alreadyClaimed (slot : Nat)
  | mismatch (slot : Nat)
  | handoffResolved (slot : Nat) (v : Verdict)
  | committed (slot : Nat)
  | rolledBack (slot : Nat)
  deriving DecidableEq, Repr

namespace Note

def text : Note → String
  | enterGet slot => s!"enter get(index={slot})"
  | enterSet slot => s!"enter set(index={slot})"
  | enterCas slot => s!"enter cas(index={slot})"
  | enterMcas words => s!"enter casn(num_words={words})"
  | enterClaim => "enter claim_remaining()"
  | enterCommit => "enter set()"
  | enterRollback => "enter revert()"
  | decided v => "decided " ++ v.text
  | helpsHandoff slot => s!"helping rdcss descriptor on slot {slot}"
  | helpsOperation slots => s!"helping casn descriptor over {slots} slots"
  | alreadyClaimed slot => s!"slot {slot}: already claimed"
  | mismatch slot => s!"slot {slot}: did not hold the expected value"
  | handoffResolved slot v => s!"slot {slot}: rdcss resolved as " ++ v.text
  | committed slot => s!"slot {slot}: set to desired value"
  | rolledBack slot => s!"slot {slot}: reverted to expected value"

/-- What is noted of a proposal made while `current` holds. -/
def ofProposal (current proposal : Verdict) : List Note :=
  if current.isOpen then [decided proposal] else []

end Note

end MultiSwap
