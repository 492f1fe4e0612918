import MultiSwap.Cell

/-! The calls that an array of slots answers, and what they answer. An exchange whose expectations
do not hold is no error: its answer is `flag false`. -/

namespace MultiSwap

/-- `refused` is the answer to a call that names a slot the array does not have. `broken` says that
a rule was violated on the way, which calls on an array never do. -/
inductive Result (α : Type) where
  | size (n : Nat)
  | flag (b : Bool)
  | value (v : α)
  | values (vs : List α)
  | done
  | refused (e : OutOfBounds)
  | broken (b : Breach)
  deriving DecidableEq, Repr

def Result.values? {α : Type} : Result α → Option (List α)
  | .values vs => some vs
  | _ => none

inductive Call (α : Type) where
  | len
  | isEmpty
  | get (slot : Nat)
  | set (slot : Nat) (value : α)
  | cas (slot : Nat) (expected update : α)
  | mcas (words : List (Word α))
  /-- Gets all values, one by one, and notes each of these steps if `announced`. -/
  | contents (announced : Bool)
  deriving Repr

namespace Call

variable {α : Type}

def dcas (slot₁ : Nat) (expected₁ update₁ : α) (slot₂ : Nat) (expected₂ update₂ : α) : Call α :=
  .mcas [⟨slot₁, expected₁, update₁⟩, ⟨slot₂, expected₂, update₂⟩]

/-- The slots that a call names, in the order in which it names them. -/
def slots : Call α → List Nat
  | len | isEmpty | contents _ => []
  | get slot => [slot]
  | set slot _ => [slot]
  | cas slot _ _ => [slot]
  | mcas words => words.map (·.index)

/-- The first slot named that an array of length `n` does not have. -/
def firstBeyond (c : Call α) (n : Nat) : Option OutOfBounds :=
  (c.slots.find? fun i => n ≤ i).map fun i => ⟨i, n⟩

end Call

end MultiSwap
