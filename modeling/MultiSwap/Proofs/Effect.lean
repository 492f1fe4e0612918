import MultiSwap.Proofs.Accord

/-! What one access changes. Every access of a run is one of four kinds: it changes nothing, it puts
a cell into a slot, or it decides an operation or a handoff. Each kind keeps memory and ledger in
accord, and what is known of the past stays true. -/

namespace MultiSwap

variable {α : Type}

/-- Does the event change the memory? -/
def Event.wins : Event α → Bool
  | swapped _ _ won _ => won
  | decided _ _ won _ => won
  | _ => false

/-- The ledger after an event. Only a won swap adds to it. -/
def Ledger.after (L : Ledger α) : Event α → Ledger α
  | .swapped k _ true c => L.record c.stamp (.cell k c.content)
  | _ => L

theorem Ledger.after_of_quiet {e : Event α} (h : e.wins = false) (L : Ledger α) :
    L.after e = L := by
  cases e with
  | swapped k old won now =>
    cases won with
    | false => rfl
    | true => simp [Event.wins] at h
  | _ => rfl

/-- What an access keeps for all threads. A claim of an operation that takes effect is not made
again once its slot is cleared, and a handoff that is in time stays so while it is in its slot. -/
structure Grows (L L' : Ledger α) (m m' : Memory α) : Prop where
  within : L.Within L'
  size : m'.size = m.size
  settled : ∀ s, m.verdict s ≠ .pending → m'.verdict s = m.verdict s
  cleared : ∀ d k, m.verdict d.stamp = .commit → m'.Holds d k → m.Holds d k
  timely : ∀ r (h : Handoff α), L r = some (.cell h.slot (.reserved h)) →
    (m.slots[h.slot]? = some ⟨r, .reserved h⟩ → h.Timely L m) →
      m'.slots[h.slot]? = some ⟨r, .reserved h⟩ → h.Timely L' m'

theorem Grows.refl (L : Ledger α) (m : Memory α) : Grows L L m m :=
  ⟨.refl L, rfl, fun _ _ => rfl, fun _ _ _ h => h, fun _ _ _ h => h⟩

variable [BEq α]

inductive Effect (L : Ledger α) (m : Memory α) (fresh : Stamp) : Event α → Memory α → Prop where
  | quiet {e : Event α} (he : e.wins = false) : Effect L m fresh e m
  | placed {k : Nat} {old : Cell α} {new : Content α} (hc : m.slots[k]? = some old)
      (hx : Exchange L m fresh.owner k old new) :
    Effect L m fresh (.swapped k old true ⟨fresh, new⟩) (m.place k ⟨fresh, new⟩)
  | decided {d : Descriptor α} {p : Verdict} (ho : L.Opened d) (hv : m.verdict d.stamp = .pending)
      (hp : p ≠ .pending) (hall : p = .commit → ∀ w ∈ d.words, L.Took d w.index) :
    Effect L m fresh (.decided d.stamp p true p) (m.propose d.stamp p)
  | ruled {r : Stamp} {h : Handoff α} {p : Verdict} (hr : L r = some (.cell h.slot (.reserved h)))
      (hv : m.verdict r = .pending) (hp : p ≠ .pending)
      (ht : p = .commit → m.slots[h.slot]? = some ⟨r, .reserved h⟩ → h.Timely L m) :
    Effect L m fresh (.decided r p true p) (m.propose r p)

namespace Effect

variable {L : Ledger α} {m m' : Memory α} {fresh : Stamp} {e : Event α}

theorem eq_of_quiet (h : Effect L m fresh e m') (he : e.wins = false) : m' = m := by
  cases h with
  | quiet => rfl
  | _ => simp [Event.wins] at he

theorem accords (h : Effect L m fresh e m') (hm : m.Accords L) (hs : L fresh = none) :
    m'.Accords (L.after e) := by
  cases h with
  | quiet he => rwa [Ledger.after_of_quiet he]
  | placed hc hx => exact hm.place hc hs hx
  | decided ho hv hp hall => exact hm.decide_operation ho hv hall
  | ruled hr hv hp ht => exact hm.decide_handoff hr hv ht

theorem size_eq (h : Effect L m fresh e m') : m'.size = m.size := by
  cases h with
  | quiet => rfl
  | placed => exact Memory.size_place _ _ _
  | decided => exact Memory.size_propose _ _ _
  | ruled => exact Memory.size_propose _ _ _

theorem within (h : Effect L m fresh e m') (hs : L fresh = none) : L.Within (L.after e) := by
  cases h with
  | quiet he =>
    rw [Ledger.after_of_quiet he]
    exact .refl L
  | placed => exact Ledger.within_record hs _
  | decided => exact .refl L
  | ruled => exact .refl L

theorem after_of_ne (h : Effect L m fresh e m') {s : Stamp} (hs : s ≠ fresh) :
    L.after e s = L s := by
  cases h with
  | quiet he => rw [Ledger.after_of_quiet he]
  | placed => exact Ledger.record_of_ne hs _
  | decided => rfl
  | ruled => rfl

theorem opened (h : Effect L m fresh e m') (hm : m.Accords L) {d : Descriptor α}
    (ho : (L.after e).Opened d) : L.Opened d ∨ d.stamp.owner = fresh.owner := by
  cases h with
  | quiet he => exact Or.inl (by rwa [Ledger.after_of_quiet he] at ho)
  | placed hc hx =>
    rcases Ledger.took_record ho with ho | he
    · exact Or.inl ho
    · exact (hx.opens hm hc (Entry.cell.inj he).2).imp_right And.right
  | decided => exact Or.inl ho
  | ruled => exact Or.inl ho

theorem settled_of_settled (h : Effect L m fresh e m') {s : Stamp} (hs : m.verdict s ≠ .pending) :
    m'.verdict s = m.verdict s := by
  have hpropose {r : Stamp} (hr : m.verdict r = .pending) (p : Verdict) :
      (m.propose r p).verdict s = m.verdict s :=
    Memory.verdict_propose_of_ne (by rintro rfl; exact hs hr) p
  cases h with
  | quiet => rfl
  | placed => rfl
  | decided ho hv hp hall => exact hpropose hv _
  | ruled hr hv hp ht => exact hpropose hv _

theorem grows (h : Effect L m fresh e m') (hm : m.Accords L) (hs : L fresh = none) :
    Grows L (L.after e) m m' := by
  refine ⟨h.within hs, h.size_eq, fun _ => h.settled_of_settled, ?_, ?_⟩
  · intro d k hv hh
    cases h with
    | quiet => exact hh
    | @placed j old new hc hx =>
      by_cases he : k = j
      · subst he
        obtain ⟨s, hk⟩ := hh
        rw [Memory.slot_place_self (Memory.lt_of_slot hc)] at hk
        cases hk
        exact absurd hv (hx.not_took hm hc rfl).2
      · obtain ⟨s, hk⟩ := hh
        exact ⟨s, by rwa [Memory.slot_place_of_ne he] at hk⟩
    | decided => exact hh.imp fun s hk => by rwa [Memory.slots_propose] at hk
    | ruled => exact hh.imp fun s hk => by rwa [Memory.slots_propose] at hk
  · intro r g hr ht hk
    cases h with
    | quiet he =>
      rw [Ledger.after_of_quiet he]
      exact ht hk
    | @placed j old new hc hx =>
      have hne : g.slot ≠ j := by
        rintro rfl
        rw [Memory.slot_place_self (Memory.lt_of_slot hc)] at hk
        cases hk
        simp [hs] at hr
      rw [Memory.slot_place_of_ne hne] at hk
      obtain ⟨hn, hv⟩ := ht hk
      refine ⟨fun htook => ?_, hv⟩
      rcases Ledger.took_record htook with htook | he
      · exact hn htook
      · exact hne (Entry.cell.inj he).1.symm
    | @decided d p ho hv hp hall =>
      rw [Memory.slots_propose] at hk
      obtain ⟨hn, hv'⟩ := ht hk
      refine ⟨hn, ?_⟩
      obtain ⟨-, hg, w, hw, hi, -⟩ := hm.formed.reserved hr
      by_cases he : g.operation.stamp = d.stamp
      · have := hm.formed.eq_of_stamp hg ho he
        subst this
        rw [Memory.verdict_propose_self hv]
        rintro rfl
        exact hn (hi ▸ hall rfl w (Descriptor.mem_of_others hw))
      · rwa [Memory.verdict_propose_of_ne he]
    | @ruled s g' p hs' hv hp ht' =>
      rw [Memory.slots_propose] at hk
      obtain ⟨hn, hv'⟩ := ht hk
      refine ⟨hn, ?_⟩
      obtain ⟨-, hg, -⟩ := hm.formed.reserved hr
      have hne : g.operation.stamp ≠ s := by
        intro he
        have hl := hm.formed.known hg
        rw [he, hs'] at hl
        simp at hl
      rwa [Memory.verdict_propose_of_ne hne]

end Effect

end MultiSwap
