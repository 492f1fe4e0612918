import MultiSwap.Frame
import MultiSwap.Word.Merge

/-! How a call starts: with an answer at once, or in a frame. Slots are checked before anything is
touched, in the order in which the call names them and before its words are merged. -/

namespace MultiSwap

variable {α : Type}

/-- Publishes a descriptor for the words and drives it. The words must already be merged. -/
def Move.exchangeAll (fresh : Stamp) (words : List (Word α)) : Move α :=
  ⟨[.enterMcas words.length],
    match Descriptor.ofWords fresh words with
    | .error b => .done (.broken b)
    | .ok d => .goto (.cas d.first.index d.first.expected (.claimed d) (some d))⟩

/-- An exchange of one slot needs no descriptor. -/
def Move.exchangeMerged (fresh : Stamp) : List (Word α) → Move α
  | [] => .done (.flag true)
  | [w] => .goto (.cas w.index w.expected (.plain w.desired) none)
  | words => .exchangeAll fresh words

namespace Call

def enterNotes : Call α → List Note
  | len | isEmpty | contents _ => []
  | get slot => [.enterGet slot]
  | set slot _ => [.enterSet slot]
  | cas slot _ _ => [.enterCas slot]
  | mcas words => [.enterMcas words.length]

variable [BEq α]

/-- How a call that names no missing slot goes on, on an array of length `n`. -/
def enter (fresh : Stamp) (n : Nat) : Call α → Move α
  | len => .done (.size n)
  | isEmpty => .done (.flag (n == 0))
  | get slot => .goto (.get slot)
  | set slot value => .goto (.set slot value)
  | cas slot expected update => .goto (.cas slot expected (.plain update) none)
  | mcas words =>
    match Word.merge? words with
    | none => .done (.flag false)
    | some merged => .exchangeMerged fresh merged
  | contents announced =>
    match n with
    | 0 => .done (.values [])
    | n + 1 => ⟨Move.noteIf announced (.enterGet 0), .goto (.contents announced 0 n [])⟩

def start (fresh : Stamp) (n : Nat) (c : Call α) : Move α :=
  let m : Move α := match c.firstBeyond n with
    | some e => .done (.refused e)
    | none => c.enter fresh n
  ⟨c.enterNotes ++ m.notes, m.next⟩

end Call

end MultiSwap
