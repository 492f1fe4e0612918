import MultiSwap.Strand

/-! Threads at work on one memory, one step at a time. A schedule is a list of thread numbers, and
any list is one: the number of a thread that has nothing left to do changes nothing. -/

namespace MultiSwap

/-- What a thread wants: the call it makes next from its state, and the state it goes to when that
call is answered. -/
structure Client (σ α : Type) where
  next : σ → Option (Call α)
  absorb : σ → Result α → σ

/-- The client that makes the calls of a list in turn. -/
def Client.script {α : Type} : Client (List (Call α)) α := ⟨List.head?, fun calls _ => calls.tail⟩

structure Thread (σ α : Type) where
  strand : Strand α
  state : σ
  deriving Repr

structure System (σ α : Type) where
  memory : Memory α
  threads : List (Thread σ α)
  deriving Repr

variable {σ α : Type}

namespace Thread

def isBusy (th : Thread σ α) : Bool := !th.strand.isIdle

def isFinished (client : Client σ α) (th : Thread σ α) : Bool :=
  !th.isBusy && (client.next th.state).isNone

variable [BEq α]

/-- The next step of a thread that wants `c`: the start of the call if none is in progress, else an
access. -/
def turn (th : Thread σ α) (m : Memory α) (c : Call α) : Turn α :=
  if th.isBusy then th.strand.step m else th.strand.start m c

end Thread

namespace System

/-- Threads with the given states on a memory. Owner 0 is the memory itself. -/
def new (memory : Memory α) (states : List σ) : System σ α :=
  ⟨memory, states.mapIdx fun t state => ⟨.new (t + 1), state⟩⟩

def isFinished (client : Client σ α) (s : System σ α) : Bool :=
  s.threads.all (·.isFinished client)

def isBusy (s : System σ α) (t : Nat) : Bool := s.threads[t]?.any (·.isBusy)

variable [BEq α]

def step (client : Client σ α) (s : System σ α) (t : Nat) : System σ α × List (Event α) :=
  match s with
  | ⟨memory, threads⟩ =>
    match threads[t]?.bind fun th => (client.next th.state).map (th, ·) with
    | none => (⟨memory, threads⟩, [])
    | some (th, c) =>
      let turn := th.turn memory c
      let state := turn.answer.elim th.state (client.absorb th.state)
      (⟨turn.memory, threads.set t ⟨turn.strand, state⟩⟩,
        turn.events ++ (turn.answer.map (Event.returned c)).toList)

end System

end MultiSwap
