import MultiSwap.Access
import MultiSwap.Call.Start

/-! A strand is one caller at work: the frames of its call, the innermost first, and a clock that
moves on at every step. A strand without frames is idle. What it makes in a step carries its number
and its clock, so that no two cells and no two descriptors of a run share a stamp. -/

namespace MultiSwap

variable {α : Type}

structure Strand (α : Type) where
  owner : Nat
  clock : Nat
  stack : List (Frame α)
  deriving Repr

/-- The outcome of a step. There is an answer when the step ended the call. -/
structure Turn (α : Type) where
  memory : Memory α
  strand : Strand α
  events : List (Event α)
  answer : Option (Result α)
  deriving Repr

namespace Strand

def new (owner : Nat) : Strand α := ⟨owner, 0, []⟩

def fresh (s : Strand α) : Stamp := ⟨s.owner, s.clock⟩

def isIdle (s : Strand α) : Bool := s.stack.isEmpty

def advance (s : Strand α) (stack : List (Frame α)) : Strand α := ⟨s.owner, s.clock + 1, stack⟩

/-- Carries out a move above the frames `below`. A frame that ends hands over to the one below it,
and the last one ends the call. -/
def follow (s : Strand α) (m : Memory α) (below : List (Frame α)) (move : Move α)
    (events : List (Event α)) : Turn α :=
  match move.next with
  | .goto f => ⟨m, s.advance (f :: below), events, none⟩
  | .call f after => ⟨m, s.advance (f :: after :: below), events, none⟩
  | .done r => ⟨m, s.advance below, events, if below.isEmpty then some r else none⟩

variable [BEq α]

def start (s : Strand α) (m : Memory α) (c : Call α) : Turn α :=
  let move := c.start s.fresh m.size
  s.follow m [] move (.invoked c :: move.noted)

/-- The next access of a strand at work. An idle strand does nothing. -/
def step (s : Strand α) (m : Memory α) : Turn α :=
  match s.stack with
  | [] => ⟨m, s, [], none⟩
  | f :: below =>
    match (f.request s.fresh).perform m with
    | (m', .error b) => ⟨m', s.advance [], [], some (.broken b)⟩
    | (m', .ok (e, move)) => s.follow m' below move (e :: move.noted ++ move.closing f)

end Strand

end MultiSwap
