import MultiSwap.Proofs.Course

/-! What the log of a run tells of its memory. Every cell that claims or reserves a slot was put
there by a swap that is in the log, and every verdict in force was settled by a decision that is. -/

namespace MultiSwap

variable {σ α : Type}

/-- The events of a run, each with the thread in which it happened. -/
abbrev Log (α : Type) := List (Nat × Event α)

def Log.ofStep (t : Nat) (events : List (Event α)) : Log α := events.map fun e => (t, e)

def Run.history (r : Run σ α) : Log α := r.log.toList

namespace Event

/-- Is a claim for `d` put into slot `k`? An operation goes by its stamp. -/
def installs (d : Descriptor α) (k : Nat) : Event α → Bool
  | swapped j _ true new => j == k && new.isClaimedBy d
  | _ => false

def removes (d : Descriptor α) (k : Nat) : Event α → Bool
  | swapped j old true _ => j == k && old.isClaimedBy d
  | _ => false

theorem installs_of_quiet {e : Event α} (h : e.wins = false) (d : Descriptor α) (k : Nat) :
    e.installs d k = false := by
  unfold installs
  split
  · simp [wins] at h
  · rfl

theorem removes_of_quiet {e : Event α} (h : e.wins = false) (d : Descriptor α) (k : Nat) :
    e.removes d k = false := by
  unfold removes
  split
  · simp [wins] at h
  · rfl

end Event

variable [BEq α]

namespace Log

/-- How the cell with the stamp `s` came into slot `k`, if it is not a plain one. -/
inductive Traced (log : Log α) (k : Nat) (s : Stamp) : Content α → Prop where
  | plain {v : α} : Traced log k s (.plain v)
  | opening {t : Nat} {r : Stamp} {u : α} {d : Descriptor α} (hk : k = d.first.index)
      (hu : (u == d.first.expected) = true)
      (he : (t, .swapped k ⟨r, .plain u⟩ true ⟨s, .claimed d⟩) ∈ log) : Traced log k s (.claimed d)
  | offer {t : Nat} {r : Stamp} {g : Handoff α}
      (he : (t, .swapped k ⟨r, .plain g.kept⟩ true ⟨s, .reserved g⟩) ∈ log) :
    Traced log k s (.reserved g)
  | handover {t : Nat} {r : Stamp} {g : Handoff α}
      (he : (t, .swapped k ⟨r, .reserved g⟩ true ⟨s, .claimed g.operation⟩) ∈ log) :
    Traced log k s (.claimed g.operation)

theorem Traced.mono {log log' : Log α} (h : log ⊆ log') {k : Nat} {s : Stamp} {x : Content α}
    (hx : log.Traced k s x) : log'.Traced k s x := by
  cases hx with
  | plain => exact .plain
  | opening hk hu he => exact .opening hk hu (h he)
  | offer he => exact .offer (h he)
  | handover he => exact .handover (h he)

theorem Traced.of_exchange {log : Log α} {L : Ledger α} {m : Memory α} {owner k : Nat}
    {old : Cell α} {new : Content α} (hx : Exchange L m owner k old new) {t : Nat} {s : Stamp}
    (he : (t, .swapped k old true ⟨s, new⟩) ∈ log) : log.Traced k s new := by
  cases hx with
  | write => exact .plain
  | opening hk hu hd ho hown => exact .opening hk hu he
  | offer hk ho hw hu => exact .offer he
  | handover hv => exact .handover he
  | giveBack hv => exact .plain
  | clearing hk hw hv => exact .plain

theorem Traced.claimed {log : Log α} {k : Nat} {s : Stamp} {d : Descriptor α}
    (h : log.Traced k s (.claimed d)) :
    (k = d.first.index ∧ ∃ t r u, (u == d.first.expected) = true ∧
      (t, .swapped k ⟨r, .plain u⟩ true ⟨s, .claimed d⟩) ∈ log) ∨
        ∃ t r g, g.operation = d ∧ (t, .swapped k ⟨r, .reserved g⟩ true ⟨s, .claimed d⟩) ∈ log := by
  generalize hx : Content.claimed d = x at h
  cases h with
  | plain => simp at hx
  | offer => simp at hx
  | opening hk hu he =>
    cases hx
    exact Or.inl ⟨hk, _, _, _, hu, he⟩
  | handover he =>
    cases hx
    exact Or.inr ⟨_, _, _, rfl, he⟩

theorem Traced.reserved {log : Log α} {k : Nat} {s : Stamp} {g : Handoff α}
    (h : log.Traced k s (.reserved g)) :
    ∃ t r, (t, .swapped k ⟨r, .plain g.kept⟩ true ⟨s, .reserved g⟩) ∈ log := by
  cases h with
  | offer he => exact ⟨_, _, he⟩

/-- A value `u` was taken for `d` by the cell with the stamp `s`, at once or through a handoff. -/
def Takes (log : Log α) (d : Descriptor α) (k : Nat) (s : Stamp) (u : α) : Prop :=
  (∃ t r, (t, .swapped k ⟨r, .plain u⟩ true ⟨s, .claimed d⟩) ∈ log) ∨
    ∃ t t' r r' g, g.operation = d ∧ g.kept = u ∧
      (t, .swapped k ⟨r, .plain u⟩ true ⟨r', .reserved g⟩) ∈ log ∧
        (t', .swapped k ⟨r', .reserved g⟩ true ⟨s, .claimed d⟩) ∈ log

def Opened (log : Log α) (d : Descriptor α) : Prop :=
  ∃ t old s, (t, .swapped d.first.index old true ⟨s, .claimed d⟩) ∈ log

def Settled (log : Log α) (s : Stamp) : Prop := ∃ t p now, (t, .decided s p true now) ∈ log

end Log

structure Chronicle (log : Log α) (L : Ledger α) (m : Memory α) : Prop where
  swapped : ∀ t k old new, (t, .swapped k old true new) ∈ log →
    L old.stamp = some (.cell k old.content) ∧ L new.stamp = some (.cell k new.content)
  decided : ∀ t s p now, (t, .decided s p true now) ∈ log → p ≠ .pending ∧ m.verdict s = p
  origin : ∀ s k x, L s = some (.cell k x) → log.Traced k s x

omit [BEq α] in
/-- Only the access of a step can win anything. -/
theorem Log.mem_of_wins {log trail : Log α} {t : Nat} {e : Event α}
    (ht : ∀ x ∈ trail, x.2.wins = false) {x : Nat × Event α} (hx : x ∈ log ++ (t, e) :: trail)
    (hw : x.2.wins = true) : x ∈ log ∨ x = (t, e) := by
  rcases List.mem_append.1 hx with hx | hx
  · exact Or.inl hx
  · rcases List.mem_cons.1 hx with hx | hx
    · exact Or.inr hx
    · rw [ht x hx] at hw
      simp at hw

namespace Chronicle

variable {log trail : Log α} {L : Ledger α} {m m' : Memory α} {t : Nat}

theorem ofValues (values : Array α) : Chronicle [] (.ofValues values) (.ofValues values) := by
  refine ⟨by simp, by simp, fun s k x hs => ?_⟩
  obtain ⟨-, v, -, he⟩ := Ledger.plain_of_ofValues hs
  rw [(Entry.cell.inj he).2]
  exact .plain

theorem start (h : Chronicle log L m) (ht : ∀ x ∈ trail, x.2.wins = false) {fresh : Stamp}
    {c : Call α} {next : Next α} (ho : Outset fresh m.size c next) (hs : L fresh = none) :
    Chronicle (log ++ trail) (L.opening next) m := by
  have hw := (ho.grows hs).within
  have hmem {x : Nat × Event α} (hx : x ∈ log ++ trail) (hwins : x.2.wins = true) : x ∈ log := by
    refine (List.mem_append.1 hx).resolve_right fun hx => ?_
    rw [ht x hx] at hwins
    simp at hwins
  refine ⟨fun t k old new he => ?_, fun t s p now he => ?_, fun s k x hl => ?_⟩
  · obtain ⟨hold, hnew⟩ := h.swapped t k old new (hmem he rfl)
    exact ⟨hw _ _ hold, hw _ _ hnew⟩
  · exact h.decided t s p now (hmem he rfl)
  · refine (h.origin s k x ?_).mono (List.subset_append_left _ _)
    by_cases hf : s = fresh
    · subst hf
      cases ho with
      | many hb hc hm hd hf =>
        subst hd
        rw [Ledger.opening, Ledger.record_self] at hl
        simp at hl
      | _ => exact hl
    · rwa [ho.opening_of_ne hf] at hl

theorem access (h : Chronicle log L m) (ht : ∀ x ∈ trail, x.2.wins = false) {fresh : Stamp}
    {e : Event α} (heff : Effect L m fresh e m') (hm : m.Accords L) (hs : L fresh = none) :
    Chronicle (log ++ (t, e) :: trail) (L.after e) m' := by
  have hw := heff.within hs
  have hsub : log ⊆ log ++ (t, e) :: trail := List.subset_append_left _ _
  have hself : (t, e) ∈ log ++ (t, e) :: trail := by simp
  refine ⟨fun t' k old new he => ?_, fun t' s p now he => ?_, fun s k x hl => ?_⟩
  · rcases Log.mem_of_wins ht he rfl with he | he
    · obtain ⟨hold, hnew⟩ := h.swapped t' k old new he
      exact ⟨hw _ _ hold, hw _ _ hnew⟩
    · cases he
      cases heff with
      | quiet he => simp [Event.wins] at he
      | placed hc hx => exact ⟨hw _ _ (hm.cells _ _ hc), Ledger.record_self _ _ _⟩
  · rcases Log.mem_of_wins ht he rfl with he | he
    · obtain ⟨hp, hv⟩ := h.decided t' s p now he
      exact ⟨hp, by rw [heff.settled_of_settled (by rw [hv]; exact hp), hv]⟩
    · cases he
      cases heff with
      | quiet he => simp [Event.wins] at he
      | decided ho hv hp hall => exact ⟨hp, Memory.verdict_propose_self hv p⟩
      | ruled hr hv hp ht => exact ⟨hp, Memory.verdict_propose_self hv p⟩
  · by_cases hf : s = fresh
    · subst hf
      cases heff with
      | quiet he =>
        rw [Ledger.after_of_quiet he, hs] at hl
        simp at hl
      | placed hc hx =>
        rw [Ledger.after, Ledger.record_self] at hl
        cases hl
        exact .of_exchange hx hself
      | decided => exact absurd (hs.symm.trans hl) (by simp)
      | ruled => exact absurd (hs.symm.trans hl) (by simp)
    · rw [heff.after_of_ne hf] at hl
      exact (h.origin s k x hl).mono hsub

/-- Every claim was made over a value that its word expects. -/
theorem exists_takes (h : Chronicle log L m) (hm : m.Accords L) {d : Descriptor α} {k : Nat}
    {s : Stamp} (hs : L s = some (.cell k (.claimed d))) {w : Word α} (hw : w ∈ d.words)
    (hk : w.index = k) : ∃ u, log.Takes d k s u ∧ (u == w.expected) = true := by
  have hd := hm.formed.descriptor (hm.formed.known_of_took ⟨s, hs⟩)
  rcases (h.origin s k _ hs).claimed with ⟨hf, t, r, u, hu, he⟩ | ⟨t, r, g, rfl, he⟩
  · rw [hd.eq_of_index hw d.first_mem (hk.trans hf)]
    exact ⟨u, Or.inl ⟨t, r, he⟩, hu⟩
  · have hl := (h.swapped t k _ _ he).1
    obtain ⟨-, ho, w', hw', hk', hu⟩ := hm.formed.reserved hl
    rw [hd.eq_of_index hw (Descriptor.mem_of_others hw') (hk.trans hk'.symm)]
    obtain ⟨t', r', hoffer⟩ := (h.origin r k _ hl).reserved
    exact ⟨g.kept, Or.inr ⟨_, _, _, _, g, rfl, rfl, hoffer, he⟩, hu⟩

theorem exists_swap (h : Chronicle log L m) {d : Descriptor α} {k : Nat} (ht : L.Took d k) :
    ∃ t old s, (t, .swapped k old true ⟨s, .claimed d⟩) ∈ log := by
  obtain ⟨s, hs⟩ := ht
  rcases (h.origin s k _ hs).claimed with ⟨-, t, r, u, -, he⟩ | ⟨t, r, g, -, he⟩
  · exact ⟨t, _, s, he⟩
  · exact ⟨t, _, s, he⟩

theorem opened (h : Chronicle log L m) {d : Descriptor α} (ho : L.Opened d) : log.Opened d :=
  h.exists_swap ho

theorem not_settled (h : Chronicle log L m) {s : Stamp} (hs : m.verdict s = .pending) :
    ¬ log.Settled s := by
  intro hsettled
  obtain ⟨t, p, now, he⟩ := hsettled
  obtain ⟨hp, hv⟩ := h.decided t s p now he
  exact hp (hv.symm.trans hs)

end Chronicle

section

omit [BEq α]

theorem Run.system_step (r : Run σ α) (t : Nat) (s : System σ α) (events : List (Event α)) :
    (r.onward t (s, events)).system = s := rfl

theorem Run.history_step (r : Run σ α) (t : Nat) (s : System σ α) (events : List (Event α)) :
    (r.onward t (s, events)).history = r.history ++ Log.ofStep t events :=
  Array.toList_appendList

theorem Move.quiet_ofStart (move : Move α) (c : Call α) (t : Nat) :
    ∀ x ∈ Log.ofStep t (.invoked c :: move.prelude c), x.2.wins = false := by
  intro x hx
  obtain ⟨e, he, rfl⟩ := List.mem_map.1 hx
  rcases List.mem_cons.1 he with rfl | he
  · rfl
  · exact quiet_prelude he

theorem Move.quiet_ofSequel (move : Move α) (f : Frame α) (c : Call α) (below : List (Frame α))
    (t : Nat) : ∀ x ∈ Log.ofStep t (move.sequel f c below), x.2.wins = false := by
  intro x hx
  obtain ⟨e, he, rfl⟩ := List.mem_map.1 hx
  exact quiet_sequel he

end

/-- The log of a run is true to its ledger and its memory. -/
theorem Course.chronicle {client : Client σ α} {values : Array α} {states : List σ}
    {r : Run σ α} {L : Ledger α} (h : Course client values states r L) :
    Chronicle r.history L r.system.memory := by
  induction h with
  | new => exact .ofValues values
  | @start r L t th c move h hs ht hi hc ho ih =>
    rw [Run.history_step]
    exact ih.start (move.quiet_ofStart c t) ho (hs.threads t th ht).fresh_unused
  | @access r L t th c f below m' e move h hs ht hf hc hd ih =>
    have hth := hs.threads t th ht
    rw [Run.history_step]
    exact ih.access (move.quiet_ofSequel f c below t)
      (hd.effect hs.accords (hth.sound_top hf)) hs.accords hth.fresh_unused

end MultiSwap
