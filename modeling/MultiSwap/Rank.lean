import MultiSwap.System

/-! How far a system is from the end of its calls, as a number that goes down with every step.

What counts most are the changes that are still to come: an operation is opened and decided, a
handoff is offered, a slot is taken and given back. How many of them there can be is bounded, however
the steps of the threads are mixed. Between two changes each thread goes its own way towards its next
one. A frame that helps what is in a slot cannot end before something has changed, so as long as that
is so the frames below it do not count. Help goes to ever higher slots, so what is left of an
operation is counted by the slots above those that it holds. -/

namespace MultiSwap

variable {σ α : Type}

namespace Memory

/-- How high, among the first `n` slots, those claimed for `d` reach. -/
def crest (m : Memory α) (d : Descriptor α) : Nat → Nat
  | 0 => 0
  | n + 1 => if m.claims d n then n + 1 else crest m d n

/-- More than the accesses of a thread to the words of one operation. -/
def lap (m : Memory α) : Nat := 6 * m.size + 8

/-- A lap for each slot above those that a pending operation holds. -/
def climb (m : Memory α) (d : Descriptor α) : Nat :=
  if m.verdict d.stamp = .pending then (m.size - m.crest d m.size) * m.lap else 0

/-- More than the laps of help that any slot can lead to. -/
def summit (m : Memory α) : Nat := (m.size + 1) * m.lap

def toll (m : Memory α) : Nat := m.summit + m.lap

def isAt (m : Memory α) (slot : Nat) (s : Stamp) : Bool := m.slots[slot]?.any (·.stamp = s)

end Memory

namespace Frame

/-- A bound on the accesses that a frame makes before it ends or something changes. What a frame
found in a slot may be gone already. -/
def effort (m : Memory α) : Frame α → Nat
  | get _ => m.summit + 1
  | contents _ _ left _ => m.summit + 1 + left
  | set _ _ => m.summit + 2
  | setOver slot _ found => if m.isAt slot found.stamp then 1 else m.summit + 3
  | cas _ _ _ _ => m.summit + 2
  | casOver slot _ _ _ found => if m.isAt slot found.stamp then 1 else m.summit + 3
  | drive d => m.climb d + 2 * d.words.length + 4 * d.others.length + 2
  | check d _ rest => m.climb d + 2 * d.words.length + 4 * rest.length + 5
  | claim d _ rest =>
    (if m.verdict d.stamp = .pending then m.climb d else m.summit) + 2 * d.words.length +
      4 * rest.length + 4
  | offer d word rest seen _ =>
    m.climb d + 2 * d.words.length + 4 * rest.length + if m.isAt word.index seen then 2 else 6
  | conclude d _ => m.climb d + 2 * d.words.length + 1
  | clear _ _ _ rest => 2 * rest.length + 2
  | clearOver _ _ _ rest _ => 2 * rest.length + 1
  | settle _ _ => 5
  | weigh _ _ => 4
  | rule _ _ _ => 3
  | release _ _ _ => 2
  | releaseOver _ _ _ => 1

/-- Is something bound to change before the frame ends? -/
def isPledged (m : Memory α) : Frame α → Bool
  | drive d => m.verdict d.stamp = .pending || (List.range m.size).any (m.claims d)
  | check d _ _ | claim d _ _ | offer d _ _ _ _ | conclude d _ => m.verdict d.stamp = .pending
  | clear d _ word rest | clearOver d _ word rest _ =>
    (word :: rest).any fun w => m.claims d w.index
  | settle r h | weigh r h | rule r h _ | release r h _ | releaseOver r h _ =>
    m.slots[h.slot]?.any (·.isHandoff r)
  | _ => false

/-- Is the frame about to change a slot for an operation that is decided already? -/
def isHasty (m : Memory α) : Frame α → Bool
  | claim d _ _ | offer d _ _ _ _ => m.verdict d.stamp ≠ .pending
  | _ => false

def errand (stack : List (Frame α)) : Option (Role α) := stack.getLast?.map role

end Frame

namespace Memory

def isTaken (m : Memory α) (d : Descriptor α) (slot : Nat) : Bool :=
  m.slots[slot]?.any fun c => c.isClaimedBy d || c.isHandoffTo d

def missing (m : Memory α) (d : Descriptor α) : Nat := d.words.countP fun w => !m.isTaken d w.index

/-- The steps that a call has not done yet: to start, to open its operation, to decide it. -/
def stage (m : Memory α) : Option (Role α) → Nat
  | none => 3
  | some .own => 2
  | some (.driving d) => if m.verdict d.stamp = .pending then 1 else 0
  | some (.settling _ _) => 0

/-- The handoffs that may yet be offered for the operation of a call. -/
def dues (m : Memory α) : Option (Role α) → Nat
  | some (.driving d) => if m.verdict d.stamp = .pending then m.missing d else 0
  | _ => 0

/-- Is the thread about to offer a handoff too late? -/
def haste (m : Memory α) (stack : List (Frame α)) : Nat :=
  (stack.head?.any (·.isHasty m)).toNat

/-- The handoffs that may yet be offered for the operation of a call, and by its thread. -/
def offers (m : Memory α) (stack : List (Frame α)) : Nat :=
  m.dues (Frame.errand stack) + m.haste stack

def weight (m : Memory α) (c : Cell α) : Nat :=
  match c.content with
  | .plain _ => 0
  | .claimed _ => 1
  | .reserved _ => if m.verdict c.stamp = .pending then 3 else 2

def load (m : Memory α) : Nat := (m.slots.toList.map m.weight).foldr (· + ·) 0

/-- A bound on the accesses that a thread makes before it returns or something changes. -/
def toil (m : Memory α) : List (Frame α) → Nat
  | [] => 0
  | f :: below =>
    (if f.isPledged m then 0 else (below.length + 1) * (m.toll + 1)) + f.effort m

def girth (m : Memory α) : List (Frame α) → Nat
  | [] => 0
  | f :: below => below.length + 1 + if f.isPledged m then f.effort m else m.toll + 1

end Memory

/-- The steps that the calls of a thread have not done yet. `todo` counts the calls that are not
answered. -/
def Thread.stages (todo : σ → Nat) (m : Memory α) (th : Thread σ α) : Nat :=
  4 * todo th.state + m.stage (Frame.errand th.strand.stack)

namespace System

def sum (s : System σ α) (f : Thread σ α → Nat) : Nat := (s.threads.map f).foldr (· + ·) 0

def stages (todo : σ → Nat) (s : System σ α) : Nat := s.sum (Thread.stages todo s.memory)

def offers (s : System σ α) : Nat := s.sum fun th => s.memory.offers th.strand.stack

/-- A bound on the changes that are still to come. -/
def changes (todo : σ → Nat) (s : System σ α) : Nat :=
  (s.stages todo * (s.threads.length * (s.memory.size + 1) + 1) + s.offers) *
    (3 * s.memory.size + 1) + s.memory.load

def height (todo : σ → Nat) (s : System σ α) : Nat :=
  s.sum (fun th => s.memory.girth th.strand.stack) +
    (s.threads.length * (s.memory.toll + 1) + 1) * s.changes todo

/-- A bound on the steps that the threads take until all their calls are answered. -/
def rank (todo : σ → Nat) (s : System σ α) : Nat :=
  s.changes todo * ((s.height todo + s.threads.length + 1) * (s.memory.toll + 1)) +
    s.sum fun th => s.memory.toil th.strand.stack

end System

end MultiSwap
