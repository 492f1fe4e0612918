/-! A word asks for one slot: if the slot holds `expected`, it is to hold `desired`. Two words are
equal when their slots and both their values are, by the equality of the values. -/

namespace MultiSwap

structure Word (α : Type) where
  index : Nat
  expected : α
  desired : α
  deriving Repr, BEq

namespace Word

variable {α : Type}

/-- The value a word leaves in its slot, by whether the whole exchange takes effect. -/
def target (w : Word α) (takesEffect : Bool) : α := if takesEffect then w.desired else w.expected

@[simp] theorem target_true (w : Word α) : w.target true = w.desired := rfl

@[simp] theorem target_false (w : Word α) : w.target false = w.expected := rfl

/-- Are the slots of the words strictly ascending? -/
def ascending : List (Word α) → Bool
  | v :: w :: rest => v.index < w.index && ascending (w :: rest)
  | _ => true

end Word

end MultiSwap
