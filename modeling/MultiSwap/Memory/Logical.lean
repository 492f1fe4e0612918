import MultiSwap.Memory

/-! The value that a slot stands for while work is in progress on it. A handoff stands for the value
it keeps. A claimed slot stands for the desired value once the operation is decided to take effect,
and for the expected value before that. -/

namespace MultiSwap

variable {α : Type}

namespace Descriptor

def wordAt (d : Descriptor α) (slot : Nat) : Option (Word α) :=
  d.words.find? fun w => w.index == slot

/-- What an operation leaves in a slot under a verdict. -/
def valueUnder (d : Descriptor α) (v : Verdict) (slot : Nat) : Option α :=
  (d.wordAt slot).map fun w => w.target (v == .commit)

end Descriptor

namespace Memory

def logicalValue (m : Memory α) (slot : Nat) (c : Cell α) : Option α :=
  match c.content with
  | .plain v => some v
  | .reserved h => some h.kept
  | .claimed d => d.valueUnder (m.verdict d.stamp) slot

def logical (m : Memory α) : List (Option α) := m.slots.toList.mapIdx m.logicalValue

/-- No work is in progress in the slots, and they hold `vs`. -/
def AtRest (m : Memory α) (vs : List α) : Prop :=
  m.slots.toList.map (fun c => c.content) = vs.map .plain

theorem logical_ofValues (values : Array α) :
    (ofValues values).logical = values.toList.map some := by
  apply List.ext_getElem?
  intro i
  simp only [logical, ofValues, Array.toList_mapIdx, List.getElem?_mapIdx, List.getElem?_map]
  cases values.toList[i]? <;> rfl

@[simp] theorem length_logical (m : Memory α) : m.logical.length = m.size := by
  simp [logical, size]

end Memory

end MultiSwap
