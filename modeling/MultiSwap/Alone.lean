import MultiSwap.Schedule

/-! A caller that has the memory to itself. Its call is run to the answer at once, and what others
left in the slots it finishes on the way. -/

namespace MultiSwap

variable {α : Type}

/-- More accesses than one call makes while its thread runs alone on `slots` slots in which `others`
pieces of work were left. Each piece of work is finished once, slot by slot, and a slot is looked at
again only after something in it was finished. -/
def patience (slots others : Nat) : Nat := 64 * (slots + 2) * (slots + others + 2)

/-- How a call ended when it ran alone. There is no answer if it was given too few steps. -/
structure Report (α : Type) where
  memory : Memory α
  strand : Strand α
  events : Array (Event α)
  answer : Option (Result α)

namespace Report

def ofTurn (t : Turn α) : Report α := ⟨t.memory, t.strand, t.events.toArray, t.answer⟩

def notes (r : Report α) : List Note :=
  r.events.toList.filterMap fun
    | .noted n => some n
    | _ => none

variable [BEq α]

def resume : Nat → Report α → Report α
  | 0, r => r
  | fuel + 1, r =>
    match r.answer with
    | some _ => r
    | none =>
      match r with
      | ⟨memory, strand, events, _⟩ =>
        let t := strand.step memory
        resume fuel ⟨t.memory, t.strand, events ++ t.events, t.answer⟩

/-- Takes the steps that are enough when `others` operations were left in the slots. -/
def finish (others : Nat) (r : Report α) : Report α := r.resume (patience r.memory.size others)

end Report

variable [BEq α]

def Strand.perform (s : Strand α) (m : Memory α) (c : Call α) : Report α :=
  (Report.ofTurn (s.start m c)).finish 0

/-- An array in the hands of one caller. -/
structure Session (α : Type) where
  memory : Memory α
  strand : Strand α

namespace Session

def ofValues (values : Array α) : Session α := ⟨.ofValues values, .new 1⟩

def perform (s : Session α) (c : Call α) : Session α × Report α :=
  let r := s.strand.perform s.memory c
  (⟨r.memory, r.strand⟩, r)

end Session

namespace Memory

/-- The values of all slots as a new caller with the number `owner` reads them. -/
def readAll (m : Memory α) (owner : Nat) : Option (List α) :=
  (Strand.perform (.new owner) m (.contents false)).answer.bind Result.values?

end Memory

namespace System

def finalValues {σ : Type} (s : System σ α) : Option (List α) :=
  s.memory.readAll (s.threads.length + 1)

end System

end MultiSwap
