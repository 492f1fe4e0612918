/-! Sets of characters as closed ranges of codes. The ranges of a set ascend and stand apart, so a
search may stop at the first range that begins beyond the code. -/

namespace MultiSwap.Display

def ascending : List (Nat × Nat) → Bool
  | r :: s :: rest => r.1 ≤ r.2 && r.2 + 1 < s.1 && ascending (s :: rest)
  | [r] => r.1 ≤ r.2
  | [] => true

def covers : List (Nat × Nat) → Nat → Bool
  | [], _ => false
  | r :: rest, n => r.1 ≤ n && (n ≤ r.2 || covers rest n)

theorem lo_le_of_mem {r : Nat × Nat} {rest : List (Nat × Nat)}
    (h : ascending (r :: rest) = true) {s : Nat × Nat} (hs : s ∈ rest) : r.1 ≤ s.1 := by
  induction rest generalizing r with
  | nil => simp at hs
  | cons t rest ih =>
    simp only [ascending, Bool.and_eq_true, decide_eq_true_eq] at h
    rcases List.mem_cons.mp hs with rfl | hs
    · omega
    · have := ih h.2 hs
      omega

/-- Stopping early misses nothing. -/
theorem covers_iff {rs : List (Nat × Nat)} (h : ascending rs = true) (n : Nat) :
    covers rs n = true ↔ ∃ r ∈ rs, r.1 ≤ n ∧ n ≤ r.2 := by
  induction rs with
  | nil => simp [covers]
  | cons r rest ih =>
    have hrest : ascending rest = true := by
      cases rest with
      | nil => rfl
      | cons s rest =>
        simp only [ascending, Bool.and_eq_true] at h
        exact h.2
    simp only [covers, Bool.and_eq_true, Bool.or_eq_true, decide_eq_true_eq, ih hrest,
      List.mem_cons, exists_eq_or_imp]
    constructor
    · rintro ⟨hlo, hhi | hr⟩
      · exact Or.inl ⟨hlo, hhi⟩
      · exact Or.inr hr
    · rintro (⟨hlo, hhi⟩ | ⟨s, hs, hr⟩)
      · exact ⟨hlo, Or.inl hhi⟩
      · exact ⟨by have := lo_le_of_mem h hs; omega, Or.inr ⟨s, hs, hr⟩⟩

end MultiSwap.Display
