import MultiSwap.Proofs.Course

/-! What part of a memory an access deals with. A frame is private to some slots and to one thread if
it looks at no other slot, and at no verdict but those on what the thread made. Memories that agree
on that part answer its access alike, and a memory agrees with itself after the access on all that is
apart from it. -/

namespace MultiSwap

variable {σ α : Type}

/-- Two memories have the same cells in the slots of `K`, and the same verdicts on what `owner`
made. -/
structure Memory.Agrees (K : Nat → Prop) (owner : Nat) (m m' : Memory α) : Prop where
  size : m'.size = m.size
  slots : ∀ k, K k → m'.slots[k]? = m.slots[k]?
  verdicts : ∀ s : Stamp, s.owner = owner → m'.verdict s = m.verdict s

def Request.Private (K : Nat → Prop) (owner : Nat) : Request α → Prop
  | load slot _ | swap slot _ _ _ => K slot
  | inspect s _ | propose s _ _ => s.owner = owner

def Descriptor.Private (K : Nat → Prop) (owner : Nat) (d : Descriptor α) : Prop :=
  d.stamp.owner = owner ∧ ∀ w ∈ d.words, K w.index

def Handoff.Private (K : Nat → Prop) (owner : Nat) (h : Handoff α) : Prop :=
  K h.slot ∧ h.operation.Private K owner

/-- Neither the frame nor what comes of it deals with anything but the slots of `K` and what `owner`
made. Reading all slots is not private. -/
def Frame.Private (K : Nat → Prop) (owner : Nat) : Frame α → Prop
  | get slot | set slot _ | setOver slot _ _ => K slot
  | contents _ _ _ _ => False
  | cas slot _ _ onward | casOver slot _ _ onward _ => K slot ∧ ∀ d ∈ onward, d.Private K owner
  | drive d | conclude d _ => d.Private K owner
  | check d word rest | claim d word rest | offer d word rest _ _ =>
    d.Private K owner ∧ ∀ w ∈ word :: rest, K w.index
  | clear d _ word rest | clearOver d _ word rest _ =>
    d.Private K owner ∧ ∀ w ∈ word :: rest, K w.index
  | settle r h | weigh r h | rule r h _ | release r h _ | releaseOver r h _ =>
    r.owner = owner ∧ h.Private K owner

namespace Memory.Agrees

variable {K : Nat → Prop} {owner : Nat} {m m' m'' : Memory α}

theorem refl (m : Memory α) : m.Agrees K owner m := ⟨rfl, fun _ _ => rfl, fun _ _ => rfl⟩

theorem symm (h : m.Agrees K owner m') : m'.Agrees K owner m :=
  ⟨h.size.symm, fun k hk => (h.slots k hk).symm, fun s hs => (h.verdicts s hs).symm⟩

theorem trans (h : m.Agrees K owner m') (h' : m'.Agrees K owner m'') : m.Agrees K owner m'' :=
  ⟨h'.size.trans h.size, fun k hk => (h'.slots k hk).trans (h.slots k hk),
    fun s hs => (h'.verdicts s hs).trans (h.verdicts s hs)⟩

theorem place (h : m.Agrees K owner m') (k : Nat) (c : Cell α) :
    (m.place k c).Agrees K owner (m'.place k c) := by
  refine ⟨?_, fun j hj => ?_, h.verdicts⟩
  · rw [size_place, size_place, h.size]
  · have hsize : m'.slots.size = m.slots.size := h.size
    simp only [Memory.place, Array.getElem?_setIfInBounds, hsize, h.slots j hj]

theorem propose (h : m.Agrees K owner m') (s : Stamp) (hs : s.owner = owner) (p : Verdict) :
    (m.propose s p).Agrees K owner (m'.propose s p) := by
  refine ⟨?_, fun k hk => ?_, fun r hr => ?_⟩
  · rw [size_propose, size_propose, h.size]
  · rw [slots_propose, slots_propose, h.slots k hk]
  · rw [verdict_propose, verdict_propose, h.verdicts s hs, h.verdicts r hr]

end Memory.Agrees

namespace Request

variable {K K' : Nat → Prop} {owner owner' : Nat} {m m' : Memory α} {q : Request α}

theorem Private.perform_congr (hq : q.Private K owner) (h : m.Agrees K owner m') :
    (q.perform m').2 = (q.perform m).2 ∧
      (q.perform m).1.Agrees K owner (q.perform m').1 := by
  cases q with
  | load slot onward =>
    simp only [perform, h.slots slot hq, h.size]
    split <;> exact ⟨rfl, h⟩
  | swap slot old new onward =>
    simp only [perform, h.slots slot hq, h.size]
    split
    · exact ⟨rfl, h⟩
    · split
      · exact ⟨rfl, h.place slot new⟩
      · exact ⟨rfl, h⟩
  | inspect s onward => exact ⟨by simp only [perform, h.verdicts s hq], h⟩
  | propose s p onward => exact ⟨by simp only [perform, h.verdicts s hq], h.propose s hq p⟩

theorem Private.perform_agrees (hq : q.Private K owner) (m : Memory α) (hK : ∀ k, K k → ¬ K' k)
    (ho : owner ≠ owner') : m.Agrees K' owner' (q.perform m).1 := by
  cases q with
  | load slot onward =>
    simp only [perform]
    split <;> exact .refl m
  | swap slot old new onward =>
    simp only [perform]
    split
    · exact .refl m
    · split
      · refine ⟨Memory.size_place _ _ _, fun k hk => ?_, fun _ _ => rfl⟩
        apply Memory.slot_place_of_ne
        rintro rfl
        exact hK _ hq hk
      · exact .refl m
  | inspect s onward => exact .refl m
  | propose s p onward =>
    refine ⟨Memory.size_propose _ _ _, fun k _ => ?_, fun r hr => ?_⟩
    · simp only [perform, Memory.slots_propose]
    · apply Memory.verdict_propose_of_ne
      rintro rfl
      exact ho (hq.symm.trans hr)

end Request

namespace Frame

variable {K : Nat → Prop} {owner : Nat}

theorem Private.request [BEq α] {f : Frame α} (hf : f.Private K owner) (fresh : Stamp) :
    (f.request fresh).Private K owner := by
  cases f with
  | contents => exact absurd hf not_false
  | get | set | setOver => exact hf
  | cas | casOver => exact hf.1
  | drive | conclude => exact hf.1
  | check => exact hf.1.1
  | claim | offer | clear | clearOver => exact hf.2 _ List.mem_cons_self
  | settle | rule => exact hf.1
  | weigh => exact hf.2.2.1
  | release | releaseOver => exact hf.2.1

end Frame

/-- Two turns of a strand are the same, but for what the memory holds apart from `K` and `owner`. -/
structure Turn.Agrees (K : Nat → Prop) (owner : Nat) (a b : Turn α) : Prop where
  memory : a.memory.Agrees K owner b.memory
  strand : b.strand = a.strand
  events : b.events = a.events
  answer : b.answer = a.answer

section

variable [BEq α] {K K' : Nat → Prop} {owner owner' : Nat} {m m' : Memory α}

omit [BEq α] in
theorem Strand.follow_agrees (s : Strand α) (h : m.Agrees K owner m') (below : List (Frame α))
    (move : Move α) (events : List (Event α)) :
    (s.follow m below move events).Agrees K owner (s.follow m' below move events) := by
  rw [follow_eq, follow_eq]
  exact ⟨h, rfl, rfl, rfl⟩

theorem Strand.start_agrees (s : Strand α) (h : m.Agrees K owner m') (c : Call α) :
    (s.start m c).Agrees K owner (s.start m' c) := by
  simp only [start, h.size]
  exact s.follow_agrees h _ _ _

theorem Strand.step_agrees {s : Strand α} (hs : ∀ f ∈ s.stack, f.Private K owner)
    (h : m.Agrees K owner m') : (s.step m).Agrees K owner (s.step m') := by
  unfold step
  cases hstack : s.stack with
  | nil => exact ⟨h, rfl, rfl, rfl⟩
  | cons f below =>
    have hq := (hs f (by simp [hstack])).request s.fresh
    obtain ⟨hans, hmem⟩ := hq.perform_congr h
    rcases hp : (f.request s.fresh).perform m with ⟨m₁, res⟩
    rcases hp' : (f.request s.fresh).perform m' with ⟨m₁', res'⟩
    rw [hp, hp'] at hans hmem
    obtain rfl : res' = res := hans
    simp only [hp, hp']
    cases res' with
    | error b => exact ⟨hmem, rfl, rfl, rfl⟩
    | ok x => exact s.follow_agrees hmem _ _ _

theorem Strand.step_apart {s : Strand α} (hs : ∀ f ∈ s.stack, f.Private K owner) (m : Memory α)
    (hK : ∀ k, K k → ¬ K' k) (ho : owner ≠ owner') : m.Agrees K' owner' (s.step m).memory := by
  unfold step
  cases hstack : s.stack with
  | nil => exact .refl m
  | cons f below =>
    have hmem := ((hs f (by simp [hstack])).request s.fresh).perform_agrees m hK ho
    rcases hp : (f.request s.fresh).perform m with ⟨m₁, res⟩
    rw [hp] at hmem
    simp only [hp]
    cases res with
    | error b => exact hmem
    | ok x =>
      simp only [follow_eq]
      exact hmem

variable {s s' : System σ α} {t : Nat}

/-- Where thread `t` stands alike, and before memories that agree on what it deals with, it takes the
same step. -/
theorem System.step_agrees (client : Client σ α) (ht : s'.threads[t]? = s.threads[t]?)
    (hm : s.memory.Agrees K owner s'.memory)
    (hs : ∀ th, s.threads[t]? = some th → ∀ f ∈ th.strand.stack, f.Private K owner) :
    (s'.step client t).2 = (s.step client t).2 ∧
      (s'.step client t).1.threads[t]? = (s.step client t).1.threads[t]? ∧
        (s.step client t).1.memory.Agrees K owner (s'.step client t).1.memory := by
  obtain ⟨m, threads⟩ := s
  obtain ⟨m', threads'⟩ := s'
  simp only at ht hm hs
  cases hth : threads[t]? with
  | none =>
    rw [hth] at ht
    simp only [step, hth, ht, Option.bind_none]
    exact ⟨trivial, trivial, hm⟩
  | some th =>
    rw [hth] at ht
    cases hc : client.next th.state with
    | none =>
      simp only [step, hth, ht, Option.bind_some, hc, Option.map_none]
      exact ⟨trivial, trivial, hm⟩
    | some c =>
      have hturn : (th.turn m c).Agrees K owner (th.turn m' c) := by
        unfold Thread.turn
        split
        · exact Strand.step_agrees (hs th hth) hm
        · exact th.strand.start_agrees hm c
      simp only [step, hth, ht, Option.bind_some, hc, Option.map_some, hturn.strand, hturn.events,
        hturn.answer, Thread.getElem?_set_self ht, Thread.getElem?_set_self hth]
      exact ⟨trivial, trivial, hturn.memory⟩

theorem System.step_apart (client : Client σ α)
    (hs : ∀ th, s.threads[t]? = some th → ∀ f ∈ th.strand.stack, f.Private K owner)
    (hK : ∀ k, K k → ¬ K' k) (ho : owner ≠ owner') :
    s.memory.Agrees K' owner' (s.step client t).1.memory := by
  obtain ⟨m, threads⟩ := s
  cases hth : threads[t]? with
  | none =>
    simp only [step, hth, Option.bind_none]
    exact .refl m
  | some th =>
    cases hc : client.next th.state with
    | none =>
      simp only [step, hth, Option.bind_some, hc, Option.map_none]
      exact .refl m
    | some c =>
      simp only [step, hth, Option.bind_some, hc, Option.map_some, Thread.turn]
      split
      · exact Strand.step_apart (hs th hth) m hK ho
      · simp only [Strand.start, Strand.follow_eq]
        exact .refl m

end

end MultiSwap
