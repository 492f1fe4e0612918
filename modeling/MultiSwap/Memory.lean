import MultiSwap.Cell
import MultiSwap.Verdict

/-! The memory that threads share: the cells of the slots, and the verdicts on descriptors and
handoffs. Only a won swap changes a slot, and only a won proposal changes a verdict. -/

namespace MultiSwap

/-- Verdicts by stamp. What has no entry is pending. -/
structure Docket where
  rows : Array (Array Verdict)
  deriving Repr

namespace Docket

def grow {β : Type} (a : Array β) (fill : β) (n : Nat) : Array β :=
  a ++ Array.replicate (n - a.size) fill

/-- Changes entry `i` by `f`. An entry that is not there yet counts as `fill`. -/
def alter {β : Type} (a : Array β) (fill : β) (i : Nat) (f : β → β) : Array β :=
  (grow a fill (i + 1)).modify i f

theorem getElem?_grow {β : Type} (a : Array β) (fill : β) (n j : Nat) :
    (grow a fill n)[j]? = if j < a.size then a[j]? else if j < n then some fill else none := by
  simp only [grow, Array.getElem?_append, Array.getElem?_replicate]
  grind

theorem getD_alter {β : Type} (a : Array β) (fill : β) (i : Nat) (f : β → β) (j : Nat) :
    (alter a fill i f).getD j fill = if i = j then f (a.getD i fill) else a.getD j fill := by
  simp only [alter, Array.getD_eq_getD_getElem?, Array.getElem?_modify, getElem?_grow]
  grind

def empty : Docket := ⟨#[]⟩

def get (docket : Docket) (s : Stamp) : Verdict :=
  (docket.rows.getD s.owner #[]).getD s.tick .pending

def put (docket : Docket) (s : Stamp) (v : Verdict) : Docket :=
  ⟨alter docket.rows #[] s.owner fun row => alter row .pending s.tick fun _ => v⟩

@[simp] theorem get_empty (s : Stamp) : empty.get s = .pending := by
  simp [empty, get]

theorem get_put (docket : Docket) (s : Stamp) (v : Verdict) (r : Stamp) :
    (docket.put s v).get r = if s = r then v else docket.get r := by
  obtain ⟨so, st⟩ := s
  obtain ⟨ro, rt⟩ := r
  by_cases ho : so = ro <;> simp only [put, get, getD_alter, ho, if_true, if_false, Stamp.mk.injEq,
    true_and, false_and]

end Docket

structure Memory (α : Type) where
  slots : Array (Cell α)
  docket : Docket
  deriving Repr

namespace Memory

variable {α : Type}

def initialCell (i : Nat) (v : α) : Cell α := ⟨⟨0, i⟩, .plain v⟩

def ofValues (values : Array α) : Memory α := ⟨values.mapIdx initialCell, .empty⟩

def size (m : Memory α) : Nat := m.slots.size

def verdict (m : Memory α) (s : Stamp) : Verdict := m.docket.get s

def claims (m : Memory α) (d : Descriptor α) (k : Nat) : Bool :=
  m.slots[k]?.any fun c => c.isClaimedBy d

/-- A won swap. -/
def place (m : Memory α) (slot : Nat) (c : Cell α) : Memory α :=
  { m with slots := m.slots.setIfInBounds slot c }

/-- A proposal, which wins if nothing is settled yet. -/
def propose (m : Memory α) (s : Stamp) (proposal : Verdict) : Memory α :=
  if (m.verdict s).isOpen then { m with docket := m.docket.put s proposal } else m

@[simp] theorem size_ofValues (values : Array α) : (ofValues values).size = values.size := by
  simp [ofValues, size]

@[simp] theorem size_place (m : Memory α) (slot : Nat) (c : Cell α) :
    (m.place slot c).size = m.size := by
  simp [place, size]

@[simp] theorem verdict_place (m : Memory α) (slot : Nat) (c : Cell α) (s : Stamp) :
    (m.place slot c).verdict s = m.verdict s := rfl

@[simp] theorem slots_propose (m : Memory α) (s : Stamp) (p : Verdict) :
    (m.propose s p).slots = m.slots := by
  unfold propose
  split <;> rfl

theorem verdict_propose (m : Memory α) (s : Stamp) (p : Verdict) (r : Stamp) :
    (m.propose s p).verdict r = if s = r then (m.verdict s).propose p else m.verdict r := by
  unfold propose
  split
  · next h => simp [verdict, Docket.get_put, Verdict.propose] at h ⊢; grind
  · next h => simp [verdict, Verdict.propose] at h ⊢; grind

end Memory

end MultiSwap
