import MultiSwap.Word

/-! Words on one slot are merged into one: the first keeps its expected value, the last supplies the
desired one. Words that expect different values of one slot can never hold together, so there is no
merged list then. The words are sorted by slot first. Those on one slot stand together then, in call
order, so each word is merged with the last of the words before it or with none. -/

namespace MultiSwap.Word

variable {α : Type}

def insertSorted (w : Word α) : List (Word α) → List (Word α)
  | [] => [w]
  | v :: rest => if v.index < w.index then v :: insertSorted w rest else w :: v :: rest

/-- The words by ascending slots. Those on one slot stay in call order. -/
def sorted (words : List (Word α)) : List (Word α) := words.foldr insertSorted []

variable [BEq α]

/-- Adds a word to merged words that it comes after. -/
def mergeLast (merged : List (Word α)) (w : Word α) : Option (List (Word α)) :=
  match merged.getLast? with
  | some last =>
    if last.index = w.index then
      if last.expected != w.expected then none
      else some (merged.dropLast ++ [{ last with desired := w.desired }])
    else some (merged ++ [w])
  | none => some [w]

/-- Words in call order, as at most one word a slot, slots ascending. -/
def merge? (words : List (Word α)) : Option (List (Word α)) := (sorted words).foldlM mergeLast []

end MultiSwap.Word
