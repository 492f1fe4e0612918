/-! What can go wrong. Naming a slot that an array does not have is answered with a refusal. A
breach is a violated rule of the exchange itself, which calls on an array never commit. -/

namespace MultiSwap

structure OutOfBounds where
  index : Nat
  len : Nat
  deriving DecidableEq, Repr

def OutOfBounds.message (e : OutOfBounds) : String :=
  s!"Index {e.index} is out of bounds for an array of length {e.len}."

inductive Breach where
  | tooFewWords
  | unsortedWords
  | noSuchSlot (len index : Nat)
  deriving DecidableEq, Repr

namespace Breach

def message : Breach → String
  | tooFewWords => "assertion failed: words.len() >= 2"
  | unsortedWords =>
    "assertion failed: words.windows(2).all(|pair| pair[0].index < pair[1].index)"
  | noSuchSlot len index => s!"index out of bounds: the len is {len} but the index is {index}"

end Breach

end MultiSwap
