import MultiSwap.Fault
import MultiSwap.Word

/-! What a slot can hold. Each cell carries a stamp, which no other cell of a run carries, so a slot
that went from a value to something else and back to the same value holds a different cell. A
descriptor is shared by many cells and has a stamp of its own. A handoff sits in one cell only and
goes by the stamp of that cell. -/

namespace MultiSwap

/-- Who made a thing, and at which of its own steps. Owner 0 makes the cells of a new memory. -/
structure Stamp where
  owner : Nat
  tick : Nat
  deriving DecidableEq, Repr

/-- One exchange over several slots. Its words are kept as they were when it was made; whether it
takes effect is a verdict that the memory keeps under `stamp`. -/
structure Descriptor (α : Type) where
  stamp : Stamp
  first : Word α
  others : List (Word α)
  deriving Repr

/-- A slot on its way to `operation`. It held `kept` before. -/
structure Handoff (α : Type) where
  operation : Descriptor α
  slot : Nat
  kept : α
  deriving Repr

inductive Content (α : Type) where
  | plain (value : α)
  | reserved (handoff : Handoff α)
  | claimed (operation : Descriptor α)
  deriving Repr

structure Cell (α : Type) where
  stamp : Stamp
  content : Content α
  deriving Repr

variable {α : Type}

namespace Descriptor

def words (d : Descriptor α) : List (Word α) := d.first :: d.others

/-- A descriptor needs two words at least, on ascending slots. -/
def ofWords (stamp : Stamp) : List (Word α) → Except Breach (Descriptor α)
  | first :: second :: rest =>
    if Word.ascending (first :: second :: rest) then .ok ⟨stamp, first, second :: rest⟩
    else .error .unsortedWords
  | _ => .error .tooFewWords

end Descriptor

namespace Cell

/-- Does the cell hold this very operation? -/
def isClaimedBy (c : Cell α) (d : Descriptor α) : Bool :=
  match c.content with
  | .claimed d' => d'.stamp = d.stamp
  | _ => false

def isHandoff (c : Cell α) (ticket : Stamp) : Bool :=
  match c.content with
  | .reserved _ => c.stamp = ticket
  | _ => false

def isHandoffTo (c : Cell α) (d : Descriptor α) : Bool :=
  match c.content with
  | .reserved g => g.operation.stamp = d.stamp
  | _ => false

end Cell

end MultiSwap
