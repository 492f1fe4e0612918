import MultiSwap.Frame

/-! Accesses to the memory, as they are carried out. Each is one event, and events also tell of what
threads do between their accesses. -/

namespace MultiSwap

variable {α : Type}

/-- What happened in a step. The frames that end are told apart from the call that is answered. -/
inductive Event (α : Type) where
  | invoked (c : Call α)
  | loaded (slot : Nat) (c : Cell α)
  /-- `now` is what the slot holds afterwards. `old` is what it held before, if the swap was won, and
  else what the swap looked for. -/
  | swapped (slot : Nat) (old : Cell α) (won : Bool) (now : Cell α)
  | inspected (stamp : Stamp) (v : Verdict)
  | decided (stamp : Stamp) (proposal : Verdict) (won : Bool) (now : Verdict)
  | noted (n : Note)
  | closed (f : Frame α) (r : Result α)
  | returned (c : Call α) (r : Result α)
  deriving Repr

namespace Move

def noted (m : Move α) : List (Event α) := m.notes.map .noted

def closing (m : Move α) (f : Frame α) : List (Event α) :=
  match m.next with
  | .done r => [.closed f r]
  | _ => []

end Move

/-- Makes an access. A slot that does not exist breaks the call and leaves the memory as it was. -/
def Request.perform (m : Memory α) : Request α → Memory α × Except Breach (Event α × Move α)
  | .load slot onward =>
    match m.slots[slot]? with
    | none => (m, .error (.noSuchSlot m.size slot))
    | some c => (m, .ok (.loaded slot c, onward c))
  | .swap slot old new onward =>
    match m.slots[slot]? with
    | none => (m, .error (.noSuchSlot m.size slot))
    | some c =>
      if c.stamp = old.stamp then (m.place slot new, .ok (.swapped slot c true new, onward true))
      else (m, .ok (.swapped slot old false c, onward false))
  | .inspect stamp onward =>
    let v := m.verdict stamp
    (m, .ok (.inspected stamp v, onward v))
  | .propose stamp proposal onward =>
    let v := m.verdict stamp
    let now := v.propose proposal
    (m.propose stamp proposal, .ok (.decided stamp proposal v.isOpen now, onward v.isOpen now))

end MultiSwap
