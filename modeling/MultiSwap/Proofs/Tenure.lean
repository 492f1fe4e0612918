import MultiSwap.Proofs.Ascent
import MultiSwap.Proofs.Growth
import MultiSwap.Proofs.Once

/-! How long a cell stays in its slot. It is there from the swap that puts it in until one winning
swap takes it out, and in no slot of the memory after that. -/

namespace MultiSwap

variable {σ α : Type}

def Event.withdraws (s : Stamp) : Event α → Bool
  | swapped _ old true _ => old.stamp = s
  | _ => false

def Memory.Lacks (m : Memory α) (s : Stamp) : Prop :=
  ∀ (k : Nat) c, m.slots[k]? = some c → c.stamp ≠ s

namespace Event

theorem withdraws_of_quiet {e : Event α} (h : e.wins = false) (s : Stamp) :
    e.withdraws s = false := by
  unfold withdraws
  split
  · simp [wins] at h
  · rfl

theorem withdraws_iff {e : Event α} {s : Stamp} :
    e.withdraws s = true ↔ ∃ k old now, e = .swapped k old true now ∧ old.stamp = s := by
  constructor
  · intro h
    cases e with
    | swapped k old won now =>
      cases won with
      | true => exact ⟨k, old, now, rfl, by simpa [withdraws] using h⟩
      | false => simp [withdraws] at h
    | _ => simp [withdraws] at h
  · intro h
    obtain ⟨k, old, now, rfl, hs⟩ := h
    simp [withdraws, hs]

end Event

variable [BEq α]

namespace Effect

variable {L : Ledger α} {m m' : Memory α} {fresh : Stamp} {e : Event α}

/-- What is in no slot does not come back. -/
theorem lacks_mono (h : Effect L m fresh e m') {s : Stamp} (hs : s ≠ fresh) (hm : m.Lacks s) :
    m'.Lacks s := by
  intro k c hc
  rcases h.slot_cases hc with hc | ⟨hfresh, -⟩
  · exact hm k c hc
  · exact fun he => hs (he.symm.trans hfresh)

theorem stamp_of_swapped (h : Effect L m fresh e m') {k : Nat} {old now : Cell α}
    (he : e = .swapped k old true now) : now.stamp = fresh := by
  cases h with
  | quiet hq =>
    rw [he] at hq
    simp [Event.wins] at hq
  | placed =>
    cases he
    rfl
  | decided => simp at he
  | ruled => simp at he

theorem withdraws (h : Effect L m fresh e m') (hm : m.Accords L) (hs : L fresh = none) {s : Stamp}
    (he : e.withdraws s = true) : ¬ m.Lacks s ∧ m'.Lacks s := by
  obtain ⟨k, old, now, rfl, rfl⟩ := Event.withdraws_iff.1 he
  obtain ⟨hold, hnow, -⟩ := h.slot_of_swapped rfl
  have hl := hm.cells k old hold
  have hne : old.stamp ≠ fresh := by
    intro hf
    rw [hf, hs] at hl
    simp at hl
  refine ⟨fun hlacks => hlacks k old hold rfl, fun j c hc hstamp => ?_⟩
  rcases h.slot_cases hc with hc' | ⟨hfresh, -⟩
  · -- the cell is known in slot `k` only, and there it was replaced
    obtain rfl : j = k := (hm.cell_eq hc' hl hstamp).1
    rw [hnow] at hc
    cases hc
    exact hne (hstamp.symm.trans (h.stamp_of_swapped rfl))
  · exact hne (hstamp.symm.trans hfresh)

end Effect

namespace Course

variable {client : Client σ α} {values : Array α} {states : List σ} {r : Run σ α} {L : Ledger α}

/-- A cell that was put into a slot is there, or was taken out. -/
theorem tenure (h : Course client values states r L) {s : Stamp} {k : Nat} {x : Content α}
    (hs : L s = some (.cell k x)) :
    r.system.memory.slots[k]? = some ⟨s, x⟩ ∨ ∃ y ∈ r.history, y.2.withdraws s = true := by
  induction h with
  | new =>
    obtain ⟨ho, v, hv, he⟩ := Ledger.plain_of_ofValues hs
    cases he
    obtain ⟨owner, tick⟩ := s
    cases ho
    refine Or.inl ?_
    simp only at hv
    simp [Run.new, System.new, Memory.ofValues, Memory.initialCell, hv]
  | start h hs' ht hi hc ho ih =>
    rw [Run.history_step]
    refine (ih (ho.cell_of_opening hs)).imp_right fun hy => ?_
    obtain ⟨y, hy, hw⟩ := hy
    exact ⟨y, List.mem_append_left _ hy, hw⟩
  | @access r L t th c f below m' e move h hs' ht hf hc hd ih =>
    have heff := hd.effect hs'.accords ((hs'.threads t th ht).sound_top hf)
    rw [Run.history_step]
    rcases Ledger.after_cases hs with hold | ⟨old, he⟩
    · rcases ih hold with hk | ⟨y, hy, hw⟩
      · rcases heff.slot_kept hk with hk' | ⟨now, he⟩
        · exact Or.inl hk'
        · refine Or.inr ⟨(t, e), by simp [Log.ofStep], ?_⟩
          exact Event.withdraws_iff.2 ⟨k, _, now, he, rfl⟩
      · exact Or.inr ⟨y, List.mem_append_left _ hy, hw⟩
    · exact Or.inl (heff.slot_of_swapped he).2.1

theorem lacks (h : Course client values states r L) {s : Stamp} {y : Nat × Event α}
    (hy : y ∈ r.history) (hw : y.2.withdraws s = true) : r.system.memory.Lacks s := by
  induction h with
  | new => simp [Run.history, Run.new] at hy
  | @start r L t th c move h hs ht hi hc ho ih =>
    rw [Run.history_step, List.mem_append] at hy
    refine ih (hy.resolve_right fun hy => ?_)
    rw [Event.withdraws_of_quiet (move.quiet_ofStart c t y hy)] at hw
    simp at hw
  | @access r L t th c f below m' e move h hs ht hf hc hd ih =>
    have hth := hs.threads t th ht
    have heff := hd.effect hs.accords (hth.sound_top hf)
    rw [Run.history_step] at hy
    have hwins : y.2.wins = true := by
      obtain ⟨k, old, now, he, -⟩ := Event.withdraws_iff.1 hw
      rw [he]
      rfl
    rcases Log.mem_of_wins (move.quiet_ofSequel f c below t) hy hwins with hy | rfl
    · refine heff.lacks_mono ?_ (ih hy)
      rintro rfl
      obtain ⟨t', e'⟩ := y
      obtain ⟨k, old, now, he, hs'⟩ := Event.withdraws_iff.1 hw
      cases he
      have hl := (h.chronicle.swapped t' k old now hy).1
      rw [hs', hth.fresh_unused] at hl
      simp at hl
    · exact (heff.withdraws hs.accords hth.fresh_unused hw).2

theorem withdrawn_once (h : Course client values states r L) (s : Stamp) :
    r.history.countP (fun x => x.2.withdraws s) ≤ 1 := by
  refine h.countP_le_one (fun e he => Event.withdraws_of_quiet he s) ?_
  intro r L fresh e m' h hfresh heff he y hy hw
  exact (heff.withdraws h.sound.accords hfresh he).1 (h.lacks hy hw)

end Course

end MultiSwap
