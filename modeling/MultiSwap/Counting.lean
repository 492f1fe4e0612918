import MultiSwap.Alone

/-! Threads that count together. In each of its rounds a thread reads some slots and tries to raise
its target slots by one in a single exchange, again and again until it succeeds. -/

namespace MultiSwap

/-- Which slots a round is about: one, two different ones, or all. -/
inductive Pattern where
  | single
  | paired
  | wide
  deriving DecidableEq, Repr

namespace Pattern

/-- The slots that round `n` of thread `t` raises, of `s` slots. -/
def targets (p : Pattern) (s t n : Nat) : List Nat :=
  let i := (t + n) % s
  match p with
  | single => [i]
  | paired => [i, (i + 1 + n % (s - 1)) % s]
  | wide => List.range s

/-- The slots that it reads before. The last value read stands for the targets not read. -/
def sources (p : Pattern) (s t n : Nat) : List Nat :=
  match p with
  | wide => [s - 1]
  | p => p.targets s t n

end Pattern

structure Counter where
  thread : Nat
  round : Nat
  seen : List Nat
  deriving DecidableEq, Repr

namespace Counter

def raise (slots seen : List Nat) : List (Word Nat) :=
  slots.mapIdx fun k i =>
    let v := seen.getD k (seen.getLastD 0)
    ⟨i, v, v + 1⟩

def attempt (p : Pattern) (s : Nat) (c : Counter) : Call Nat :=
  match p, raise (p.targets s c.thread c.round) c.seen with
  | .single, [w] => .cas w.index w.expected w.desired
  | _, words => .mcas words

/-- A counter has `rounds` rounds on `s` slots. Anything but a value or a flag ends its work. -/
def client (p : Pattern) (s rounds : Nat) : Client Counter Nat where
  next c :=
    if rounds ≤ c.round then none
    else match (p.sources s c.thread c.round)[c.seen.length]? with
      | some i => some (.get i)
      | none => some (c.attempt p s)
  absorb c
    | .value v => { c with seen := c.seen ++ [v] }
    | .flag true => ⟨c.thread, c.round + 1, []⟩
    | .flag false => { c with seen := [] }
    | _ => { c with round := rounds }

end Counter

namespace System

variable {σ α : Type} [BEq α]

def drain (client : Client σ α) (t : Nat) : Nat → System σ α → System σ α
  | 0, s => s
  | fuel + 1, s =>
    if s.threads[t]?.any (!·.isFinished client) then drain client t fuel (s.step client t).1 else s

end System

/-- The values of `s` slots, zero at first, after `threads` threads have made their rounds. -/
def Pattern.count (p : Pattern) (threads s rounds : Nat) : Option (List Nat) :=
  let client := Counter.client p s rounds
  let start : System Counter Nat :=
    .new (.ofValues (Array.replicate s 0)) ((List.range threads).map fun t => ⟨t, 0, []⟩)
  let fuel := rounds * patience s threads
  let finished := (List.range threads).foldl (fun sys t => sys.drain client t fuel) start
  finished.finalValues

end MultiSwap
