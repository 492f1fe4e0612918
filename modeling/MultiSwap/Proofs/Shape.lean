import MultiSwap.Proofs.Deed
import MultiSwap.Proofs.Ledger

/-! What there is of operations in slots and on stacks keeps the shape that its call gave it: several
words on ascending slots of the array, a claim only in the slot of a word, and a handoff only in
that of a word after the first. So no access misses. -/

namespace MultiSwap

variable {α : Type}

/-- The slot of a handoff is that of a word of its operation after the first. -/
def Handoff.Safe (n : Nat) (h : Handoff α) : Prop :=
  h.operation.Formed n ∧ ∃ w ∈ h.operation.others, w.index = h.slot

def Content.Safe (n k : Nat) : Content α → Prop
  | .plain _ => True
  | .reserved h => h.slot = k ∧ h.Safe n
  | .claimed d => d.Formed n ∧ ∃ w ∈ d.words, w.index = k

/-- The frame names no slot that an array of `n` slots does not have, and no word that its operation
does not have. -/
def Frame.Safe (n : Nat) : Frame α → Prop
  | get slot | set slot _ => slot < n
  | contents _ slot left _ => slot + left < n
  | setOver slot _ found => slot < n ∧ ∃ v, found.content = .plain v
  | cas slot _ content onward => slot < n ∧ content.Safe n slot ∧ ∀ d ∈ onward, d.Formed n
  | casOver slot _ content onward found =>
    slot < n ∧ content.Safe n slot ∧ (∀ d ∈ onward, d.Formed n) ∧ ∃ v, found.content = .plain v
  | drive d | conclude d _ => d.Formed n
  | check d word rest | claim d word rest | offer d word rest _ _ =>
    d.Formed n ∧ ∀ w ∈ word :: rest, w ∈ d.others
  | clear d _ word rest | clearOver d _ word rest _ => d.Formed n ∧ ∀ w ∈ word :: rest, w ∈ d.words
  | settle _ h | weigh _ h | rule _ h _ | release _ h _ | releaseOver _ h _ => h.Safe n

theorem Handoff.Safe.slot_lt {n : Nat} {h : Handoff α} (hs : h.Safe n) : h.slot < n := by
  obtain ⟨hf, w, hw, hi⟩ := hs
  exact hi ▸ hf.inBounds w (Descriptor.mem_of_others hw)

theorem Frame.Safe.touches_lt {n : Nat} {f : Frame α} (hf : f.Safe n) {k : Nat}
    (hk : f.touches = some k) : k < n := by
  cases f with
  | get slot | set slot value =>
    cases hk
    exact hf
  | contents announced slot left seen =>
    cases hk
    exact Nat.lt_of_le_of_lt (Nat.le_add_right _ _) hf
  | setOver slot value found | cas slot expected content onward =>
    cases hk
    exact hf.1
  | casOver slot expected content onward found =>
    cases hk
    exact hf.1
  | claim d word rest | offer d word rest seen kept =>
    cases hk
    exact hf.1.inBounds word (Descriptor.mem_of_others (hf.2 word List.mem_cons_self))
  | clear d takesEffect word rest | clearOver d takesEffect word rest seen =>
    cases hk
    exact hf.1.inBounds word (hf.2 word List.mem_cons_self)
  | release r h v | releaseOver r h v =>
    cases hk
    exact Handoff.Safe.slot_lt hf
  | drive d | check d word rest | conclude d p | settle r h | weigh r h | rule r h p =>
    simp [touches] at hk

end MultiSwap
