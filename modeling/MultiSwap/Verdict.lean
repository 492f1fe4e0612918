/-! A verdict is settled once. The first proposal made while it is pending wins, and every later
proposal is answered with the verdict that already holds. -/

namespace MultiSwap

inductive Verdict where
  | pending
  | commit
  | abort
  deriving DecidableEq, Repr, Inhabited

namespace Verdict

def text : Verdict → String
  | pending => "Undecided"
  | commit => "Success"
  | abort => "Failed"

def code : Verdict → Nat
  | pending => 0
  | commit => 1
  | abort => 2

/-- Whether a proposal made now wins. It does so even when it proposes to leave things pending. -/
def isOpen (v : Verdict) : Bool := v == pending

/-- The verdict that holds after a proposal. -/
def propose (current proposal : Verdict) : Verdict :=
  if current.isOpen then proposal else current

@[simp] theorem isOpen_pending : pending.isOpen = true := rfl

theorem isOpen_eq_false_iff (v : Verdict) : v.isOpen = false ↔ v ≠ pending := by
  cases v <;> simp [isOpen]

theorem propose_of_settled {v : Verdict} (h : v ≠ pending) (p : Verdict) : v.propose p = v := by
  simp [propose, (isOpen_eq_false_iff v).2 h]

end Verdict

end MultiSwap
