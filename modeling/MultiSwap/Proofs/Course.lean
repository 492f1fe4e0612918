import MultiSwap.Schedule
import MultiSwap.Proofs.Advance
import MultiSwap.Proofs.Outset

/-! Runs along with their ledgers. Every run by single steps is a course: each step of it starts a
call or makes an access by one of the rules, from a system in which all frames are sound. What holds
of every run is shown by induction on courses. -/

namespace MultiSwap

variable {σ α : Type}

namespace Thread

/-- The thread when it goes on above the frames `below`. -/
def onward (client : Client σ α) (th : Thread σ α) (below : List (Frame α)) (next : Next α) :
    Thread σ α :=
  ⟨th.strand.advance (next.frames ++ below),
    (next.answer below).elim th.state (client.absorb th.state)⟩

theorem onward_busy {client : Client σ α} {th : Thread σ α} {below : List (Frame α)}
    {next : Next α} (h : next.frames ++ below ≠ []) :
    (th.onward client below next).state = th.state := by
  have ha : next.answer below = none := by
    cases next with
    | done r =>
      have hb : below ≠ [] := h
      simp [Next.answer, hb]
    | _ => rfl
  rw [onward, ha]
  rfl

theorem getElem?_set_self {threads : List (Thread σ α)} {t : Nat} {th : Thread σ α}
    (ht : threads[t]? = some th) (th' : Thread σ α) : (threads.set t th')[t]? = some th' :=
  List.getElem?_set_self (List.getElem?_eq_some_iff.1 ht).1

theorem of_getElem?_set {threads : List (Thread σ α)} {t t' : Nat} {th th₁ th' : Thread σ α}
    (ht : threads[t]? = some th) (ht' : (threads.set t th₁)[t']? = some th') :
    t = t' ∧ th' = th₁ ∨ t ≠ t' ∧ threads[t']? = some th' := by
  by_cases he : t = t'
  · subst he
    rw [getElem?_set_self ht] at ht'
    exact Or.inl ⟨rfl, (Option.some.inj ht').symm⟩
  · rw [List.getElem?_set_ne he] at ht'
    exact Or.inr ⟨he, ht'⟩

theorem mem_onward {threads : List (Thread σ α)} {t : Nat} {th : Thread σ α}
    (ht : threads[t]? = some th) {below : List (Frame α)} (hb : below ⊆ th.strand.stack)
    {client : Client σ α} {next : Next α} {t' : Nat} {th' : Thread σ α}
    (ht' : (threads.set t (th.onward client below next))[t']? = some th') {g : Frame α}
    (hg : g ∈ th'.strand.stack) :
    t' = t ∧ g ∈ next.frames ∨ ∃ th'', threads[t']? = some th'' ∧ g ∈ th''.strand.stack := by
  rcases of_getElem?_set ht ht' with ⟨rfl, rfl⟩ | ⟨-, ht'⟩
  · rcases List.mem_append.1 hg with hg | hg
    · exact Or.inl ⟨rfl, hg⟩
    · exact Or.inr ⟨th, ht, hb hg⟩
  · exact Or.inr ⟨th', ht', hg⟩

end Thread

def Call.returning (c : Call α) (answer : Option (Result α)) : List (Event α) :=
  (answer.map (Event.returned c)).toList

/-- What is told of a step after the start of its call. -/
def Move.prelude (move : Move α) (c : Call α) : List (Event α) :=
  move.noted ++ c.returning (move.next.answer [])

/-- What is told of a step after its access. -/
def Move.sequel (move : Move α) (f : Frame α) (c : Call α) (below : List (Frame α)) :
    List (Event α) :=
  move.noted ++ move.closing f ++ c.returning (move.next.answer below)

section

variable {move : Move α} {f : Frame α} {c : Call α} {below : List (Frame α)} {e : Event α}

theorem Call.mem_returning {a : Option (Result α)} :
    e ∈ c.returning a ↔ ∃ r, a = some r ∧ e = .returned c r := by
  cases a <;> simp [returning]

theorem Move.mem_prelude : e ∈ move.prelude c ↔
    (∃ n ∈ move.notes, e = .noted n) ∨ ∃ r, move.next.answer [] = some r ∧ e = .returned c r := by
  simp [prelude, noted, Call.mem_returning, eq_comm]

theorem Move.mem_sequel : e ∈ move.sequel f c below ↔
    (∃ n ∈ move.notes, e = .noted n) ∨ (∃ r, move.next = .done r ∧ e = .closed f r) ∨
      ∃ r, move.next.answer below = some r ∧ e = .returned c r := by
  have hclosing : e ∈ move.closing f ↔ ∃ r, move.next = .done r ∧ e = .closed f r := by
    unfold closing
    cases move.next <;> simp
  simp [sequel, noted, Call.mem_returning, hclosing, eq_comm]

theorem Move.noted_mem_prelude {n : Note} : .noted n ∈ move.prelude c ↔ n ∈ move.notes := by
  simp [mem_prelude]

theorem Move.noted_mem_sequel {n : Note} : .noted n ∈ move.sequel f c below ↔ n ∈ move.notes := by
  simp [mem_sequel]

theorem Move.quiet_prelude (h : e ∈ move.prelude c) : e.wins = false := by
  rcases mem_prelude.1 h with ⟨n, -, rfl⟩ | ⟨r, -, rfl⟩ <;> rfl

theorem Move.quiet_sequel (h : e ∈ move.sequel f c below) : e.wins = false := by
  rcases mem_sequel.1 h with ⟨n, -, rfl⟩ | ⟨r, -, rfl⟩ | ⟨r, -, rfl⟩ <;> rfl

end

theorem System.thread_of_new {m : Memory α} {states : List σ} {t : Nat} {th : Thread σ α}
    (ht : (System.new m states).threads[t]? = some th) :
    ∃ state, states[t]? = some state ∧ th = ⟨.new (t + 1), state⟩ := by
  simp only [new, List.getElem?_mapIdx, Option.map_eq_some_iff] at ht
  obtain ⟨state, hstate, rfl⟩ := ht
  exact ⟨state, hstate, rfl⟩

namespace System

variable [BEq α] {client : Client σ α} {s : System σ α} {t : Nat} {th : Thread σ α}

theorem step_start (ht : s.threads[t]? = some th) (hi : th.strand.stack = []) {c : Call α}
    (hc : client.next th.state = some c) {move : Move α}
    (hm : c.start th.strand.fresh s.memory.size = move) :
    s.step client t =
      (⟨s.memory, s.threads.set t (th.onward client [] move.next)⟩,
        .invoked c :: move.prelude c) := by
  have hb : th.isBusy = false := by simp [Thread.isBusy, Strand.isIdle, hi]
  subst hm
  simp only [step, ht, hc, Option.bind_some, Option.map_some, Thread.turn, hb, Strand.start,
    Strand.follow_eq, Thread.onward, Move.prelude, Call.returning]
  rfl

theorem step_access (ht : s.threads[t]? = some th) {f : Frame α} {below : List (Frame α)}
    (hs : th.strand.stack = f :: below) {c : Call α} (hc : client.next th.state = some c)
    {m' : Memory α} {e : Event α} {move : Move α}
    (hp : (f.request th.strand.fresh).perform s.memory = (m', .ok (e, move))) :
    s.step client t =
      (⟨m', s.threads.set t (th.onward client below move.next)⟩,
        e :: move.sequel f c below) := by
  have hb : th.isBusy = true := by simp [Thread.isBusy, Strand.isIdle, hs]
  simp only [step, ht, hc, Option.bind_some, Option.map_some, Thread.turn, hb, Strand.step, hs, hp,
    Strand.follow_eq, Thread.onward, Move.sequel, Call.returning]
  rfl

theorem step_rest (h : ∀ th, s.threads[t]? = some th → client.next th.state = none) :
    s.step client t = (s, []) := by
  have hn : (s.threads[t]?.bind fun th => (client.next th.state).map (th, ·)) = none := by
    cases ht : s.threads[t]? with
    | none => rfl
    | some th => simp [h th ht]
  simp only [step, hn]

end System

namespace Ledger

def ofValues (values : Array α) : Ledger α := fun s =>
  if s.owner = 0 then values[s.tick]?.map fun v => .cell s.tick (.plain v) else none

/-- The ledger after a call that starts so. -/
def opening (L : Ledger α) : Next α → Ledger α
  | .goto (.cas _ _ _ (some d)) => L.record d.stamp (.operation d)
  | _ => L

theorem plain_of_ofValues {values : Array α} {s : Stamp} {e : Entry α}
    (h : ofValues values s = some e) :
    s.owner = 0 ∧ ∃ v, values[s.tick]? = some v ∧ e = .cell s.tick (.plain v) := by
  unfold ofValues at h
  split at h
  · next hs =>
    obtain ⟨v, hv, rfl⟩ := Option.map_eq_some_iff.1 h
    exact ⟨hs, v, hv, rfl⟩
  · simp at h

theorem not_took_ofValues {values : Array α} (d : Descriptor α) (k : Nat) :
    ¬ (ofValues values).Took d k := by
  intro htook
  obtain ⟨s, hs⟩ := htook
  obtain ⟨-, v, -, he⟩ := plain_of_ofValues hs
  simp at he

end Ledger

theorem Memory.cell_of_ofValues {values : Array α} {k : Nat} {c : Cell α}
    (hc : (Memory.ofValues values).slots[k]? = some c) :
    ∃ v, values[k]? = some v ∧ c = ⟨⟨0, k⟩, .plain v⟩ := by
  simp only [ofValues, Array.getElem?_mapIdx, Option.map_eq_some_iff] at hc
  obtain ⟨v, hv, rfl⟩ := hc
  exact ⟨v, hv, rfl⟩

variable [BEq α]

theorem Memory.accords_ofValues (values : Array α) :
    (Memory.ofValues values).Accords (Ledger.ofValues values) := by
  have hverdict (s : Stamp) : (Memory.ofValues values).verdict s = .pending := Docket.get_empty s
  constructor
  · intro s e hs
    obtain ⟨-, v, hv, rfl⟩ := Ledger.plain_of_ofValues hs
    rw [size_ofValues]
    exact (Array.getElem?_eq_some_iff.1 hv).1
  · intro k c hc
    obtain ⟨v, hv, rfl⟩ := cell_of_ofValues hc
    simp [Ledger.ofValues, hv]
  · intro s k d hs
    exact absurd ⟨s, hs⟩ (Ledger.not_took_ofValues d k)
  · intro s r k d hs
    exact absurd ⟨s, hs⟩ (Ledger.not_took_ofValues d k)
  · intro k r h hc
    obtain ⟨v, -, he⟩ := cell_of_ofValues hc
    simp at he
  · exact fun d _ _ => hverdict _
  · exact fun s _ => hverdict s
  · exact fun d ho => absurd ho (Ledger.not_took_ofValues d _)

omit [BEq α] in
theorem grows_record {m : Memory α} {L : Ledger α} {d : Descriptor α}
    (hs : L d.stamp = none) : Grows L (L.record d.stamp (.operation d)) m m := by
  refine ⟨Ledger.within_record hs _, rfl, fun _ _ => rfl, fun _ _ _ h => h, ?_⟩
  intro r h _ ht hk
  obtain ⟨hn, hv⟩ := ht hk
  refine ⟨fun htook => hn ?_, hv⟩
  exact (Ledger.took_record htook).resolve_right (by simp)

namespace Outset

variable {m : Memory α} {L : Ledger α} {fresh : Stamp} {c : Call α} {next : Next α}

theorem opening_of_ne (h : Outset fresh m.size c next) {s : Stamp} (hs : s ≠ fresh) :
    L.opening next s = L s := by
  cases h with
  | many hb hc hm hd hf =>
    subst hd
    exact Ledger.record_of_ne hs _
  | _ => rfl

theorem accords (h : Outset fresh m.size c next) (hm : m.Accords L) (hs : L fresh = none) :
    m.Accords (L.opening next) := by
  cases h with
  | many hb hc hw hd hf =>
    subst hd
    exact hm.record_operation hs hf
  | _ => exact hm

theorem grows (h : Outset fresh m.size c next) (hs : L fresh = none) :
    Grows L (L.opening next) m m := by
  cases h with
  | many hb hc hw hd hf =>
    subst hd
    exact grows_record hs
  | _ => exact .refl L m

theorem opened (h : Outset fresh m.size c next) {d : Descriptor α}
    (ho : (L.opening next).Opened d) : L.Opened d := by
  cases h with
  | many => exact (Ledger.took_record ho).resolve_right (by simp)
  | _ => exact ho

theorem sound_frames (h : Outset fresh m.size c next) (hm : m.Accords L) (hs : L fresh = none) :
    ∀ g ∈ next.frames, g.Sound (L.opening next) m fresh.owner := by
  intro g hg
  cases h with
  | get hc hk =>
    cases List.mem_singleton.1 hg
    exact hk
  | set hc hk =>
    cases List.mem_singleton.1 hg
    exact hk
  | @contents announced left hc hn =>
    cases List.mem_singleton.1 hg
    show 0 + left < m.size
    omega
  | single hb hc hw hk =>
    cases List.mem_singleton.1 hg
    exact ⟨hk, .value⟩
  | @many ws d hb hc hw hd hf =>
    cases List.mem_singleton.1 hg
    subst hd
    refine ⟨hf.inBounds _ d.first_mem, .claim (Ledger.record_self _ _ _) (fun ho => ?_) rfl⟩
    have hk := hm.formed.known ((Ledger.took_record ho).resolve_right (by simp))
    rw [hs] at hk
    simp at hk
  | _ => simp [Next.frames] at hg

theorem serves (h : Outset fresh m.size c next) (hn : next.frames ≠ []) :
    c.firstBeyond m.size = none ∧ c.ServedBy fresh.owner next.frames := by
  have hslot {k : Nat} (hk : k < m.size) (hc : c.slots = [k]) : c.firstBeyond m.size = none := by
    simp [Call.firstBeyond, hc, hk]
  cases h with
  | get hc hk =>
    subst hc
    exact ⟨hslot hk rfl, rfl⟩
  | set hc hk =>
    subst hc
    exact ⟨hslot hk rfl, rfl⟩
  | contents hc hl =>
    subst hc
    exact ⟨rfl, rfl⟩
  | single hb hc hw hk => exact ⟨hb, .single hc hw⟩
  | many hb hc hw hd hf => exact ⟨hb, .many ⟨by rw [hd], _, hc, hw⟩⟩
  | _ => simp [Next.frames] at hn

end Outset

structure Thread.Sound (client : Client σ α) (L : Ledger α) (m : Memory α) (t : Nat)
    (th : Thread σ α) : Prop where
  owner : th.strand.owner = t + 1
  unused : ∀ tick, th.strand.clock ≤ tick → L ⟨t + 1, tick⟩ = none
  frames : ∀ f ∈ th.strand.stack, f.Sound L m (t + 1)
  serving : th.strand.stack ≠ [] → ∃ c, client.next th.state = some c ∧
    c.firstBeyond m.size = none ∧ c.ServedBy (t + 1) th.strand.stack

structure System.Sound (client : Client σ α) (L : Ledger α) (s : System σ α) : Prop where
  accords : s.memory.Accords L
  threads : ∀ (t : Nat) th, s.threads[t]? = some th → th.Sound client L s.memory t

namespace Thread.Sound

variable {client : Client σ α} {L L' : Ledger α} {m m' : Memory α} {t : Nat} {th : Thread σ α}

theorem fresh_unused (h : th.Sound client L m t) : L th.strand.fresh = none := by
  have hu := h.unused th.strand.clock (Nat.le_refl _)
  rwa [← h.owner] at hu

theorem sound_top (h : th.Sound client L m t) {f : Frame α} {below : List (Frame α)}
    (hf : th.strand.stack = f :: below) : f.Sound L m th.strand.fresh.owner := by
  rw [show th.strand.fresh.owner = t + 1 from h.owner]
  exact h.frames f (by simp [hf])

theorem mono (h : th.Sound client L m t) (hg : Grows L L' m m')
    (hnew : ∀ d, d.stamp.owner = t + 1 → L'.Opened d → L.Opened d)
    (hl : ∀ tick, L' ⟨t + 1, tick⟩ = L ⟨t + 1, tick⟩) : th.Sound client L' m' t := by
  refine ⟨h.owner, fun tick ht => (hl tick).trans (h.unused tick ht), ?_, fun hs => ?_⟩
  · exact fun f hf => (h.frames f hf).mono hg hnew
  · obtain ⟨c, hc, hb, hserved⟩ := h.serving hs
    exact ⟨c, hc, by rwa [hg.size], hserved⟩

theorem start (h : th.Sound client L m t) (hm : m.Accords L) {c : Call α}
    (hc : client.next th.state = some c) {next : Next α}
    (ho : Outset th.strand.fresh m.size c next) :
    (th.onward client [] next).Sound client (L.opening next) m t := by
  refine ⟨h.owner, fun tick ht => ?_, fun f hf => ?_, fun hn => ?_⟩
  · have htick : th.strand.clock + 1 ≤ tick := ht
    rw [ho.opening_of_ne]
    · exact h.unused tick (by omega)
    · rw [Strand.fresh, Ne, Stamp.mk.injEq]
      omega
  · have hs := ho.sound_frames hm h.fresh_unused
    rw [← h.owner]
    exact hs f (by simpa [onward, Strand.advance] using hf)
  · have hstack : (th.onward client [] next).strand.stack = next.frames := List.append_nil _
    rw [hstack] at hn ⊢
    obtain ⟨hb, hserved⟩ := ho.serves hn
    refine ⟨c, ?_, hb, ?_⟩
    · rw [onward_busy (by simpa using hn), hc]
    · rw [← h.owner]
      exact hserved

theorem access (h : th.Sound client L m t) (hm : m.Accords L) {f : Frame α}
    {below : List (Frame α)} (hs : th.strand.stack = f :: below) {e : Event α} {move : Move α}
    (hd : Deed m th.strand.fresh f e m' move) :
    (th.onward client below move.next).Sound client (L.after e) m' t := by
  have hf := h.sound_top hs
  have heff := hd.effect hm hf
  have hg := heff.grows hm h.fresh_unused
  obtain ⟨c, hc, hb, hserved⟩ := h.serving (by simp [hs])
  rw [hs] at hserved
  refine ⟨h.owner, fun tick ht => ?_, fun g hmem => ?_, fun hn => ?_⟩
  · have htick : th.strand.clock + 1 ≤ tick := ht
    rw [heff.after_of_ne]
    · exact h.unused tick (by omega)
    · rw [Strand.fresh, Ne, Stamp.mk.injEq]
      omega
  · rcases List.mem_append.1 hmem with hmem | hmem
    · rw [← h.owner]
      exact (hd.sound_next hm hf h.fresh_unused).frames g hmem
    · -- only a frame above others could have opened an operation of this thread, and none does
      have hrole := ((Call.servedBy_cons (List.ne_nil_of_mem hmem)).1 hserved).1
      refine (h.frames g (by simp [hs, hmem])).mono hg fun d _ ho => ?_
      exact hd.not_opens hrole hm hf ho
  · have hstack : (th.onward client below move.next).strand.stack = move.next.frames ++ below := rfl
    rw [hstack] at hn ⊢
    refine ⟨c, ?_, ?_, hd.servedBy hserved⟩
    · rw [onward_busy hn, hc]
    · rwa [hg.size]

end Thread.Sound

namespace System.Sound

variable {client : Client σ α} {L : Ledger α} {s : System σ α} {t : Nat} {th : Thread σ α}

theorem start (h : s.Sound client L) (ht : s.threads[t]? = some th) {c : Call α}
    (hc : client.next th.state = some c) {next : Next α}
    (ho : Outset th.strand.fresh s.memory.size c next) :
    System.Sound client (L.opening next)
      ⟨s.memory, s.threads.set t (th.onward client [] next)⟩ := by
  have hth := h.threads t th ht
  refine ⟨ho.accords h.accords hth.fresh_unused, fun t' th' ht' => ?_⟩
  rcases Thread.of_getElem?_set ht ht' with ⟨rfl, rfl⟩ | ⟨he, ht'⟩
  · exact hth.start h.accords hc ho
  · refine (h.threads t' th' ht').mono (ho.grows hth.fresh_unused) (fun d _ => ho.opened) ?_
    intro tick
    apply ho.opening_of_ne
    rw [Strand.fresh, hth.owner, Ne, Stamp.mk.injEq]
    omega

theorem access (h : s.Sound client L) (ht : s.threads[t]? = some th) {f : Frame α}
    {below : List (Frame α)} (hs : th.strand.stack = f :: below) {m' : Memory α} {e : Event α}
    {move : Move α} (hd : Deed s.memory th.strand.fresh f e m' move) :
    System.Sound client (L.after e) ⟨m', s.threads.set t (th.onward client below move.next)⟩ := by
  have hth := h.threads t th ht
  have hown : th.strand.fresh.owner = t + 1 := hth.owner
  have hf := hth.sound_top hs
  have heff := hd.effect h.accords hf
  refine ⟨heff.accords h.accords hth.fresh_unused, fun t' th' ht' => ?_⟩
  rcases Thread.of_getElem?_set ht ht' with ⟨rfl, rfl⟩ | ⟨he, ht'⟩
  · exact hth.access h.accords hs hd
  · refine (h.threads t' th' ht').mono (heff.grows h.accords hth.fresh_unused) ?_ ?_
    · intro d hd ho
      apply (heff.opened h.accords ho).resolve_right
      omega
    · intro tick
      apply heff.after_of_ne
      rw [Strand.fresh, hth.owner, Ne, Stamp.mk.injEq]
      omega

theorem new (values : Array α) (states : List σ) :
    (System.new (.ofValues values) states).Sound client (.ofValues values) := by
  refine ⟨Memory.accords_ofValues values, fun t th ht => ?_⟩
  obtain ⟨state, -, rfl⟩ := System.thread_of_new ht
  refine ⟨rfl, fun tick _ => if_neg (Nat.succ_ne_zero t), ?_, fun hn => absurd rfl hn⟩
  exact fun f hf => absurd hf List.not_mem_nil

end System.Sound

/-- A step of a sound system: the thread has nothing to do, starts a call or makes an access. -/
inductive Stride (client : Client σ α) (s : System σ α) (t : Nat) :
    System σ α × List (Event α) → Prop where
  | rest (hn : ∀ th, s.threads[t]? = some th → th.strand.stack = []) : Stride client s t (s, [])
  | start {th : Thread σ α} {c : Call α} {move : Move α} (ht : s.threads[t]? = some th)
      (hi : th.strand.stack = []) (hc : client.next th.state = some c)
      (ho : Outset th.strand.fresh s.memory.size c move.next) :
    Stride client s t (⟨s.memory, s.threads.set t (th.onward client [] move.next)⟩,
      .invoked c :: move.prelude c)
  | access {th : Thread σ α} {c : Call α} {f : Frame α} {below : List (Frame α)}
      {m' : Memory α} {e : Event α} {move : Move α} (ht : s.threads[t]? = some th)
      (hf : th.strand.stack = f :: below) (hc : client.next th.state = some c)
      (hd : Deed s.memory th.strand.fresh f e m' move) :
    Stride client s t (⟨m', s.threads.set t (th.onward client below move.next)⟩,
      e :: move.sequel f c below)

theorem System.Sound.stride {client : Client σ α} {L : Ledger α} {s : System σ α}
    (h : s.Sound client L) (t : Nat) : Stride client s t (s.step client t) := by
  by_cases hrest : ∀ th, s.threads[t]? = some th → client.next th.state = none
  · rw [step_rest hrest]
    refine .rest fun th ht => ?_
    by_contra hn
    obtain ⟨c, hc, -⟩ := (h.threads t th ht).serving hn
    rw [hrest th ht] at hc
    simp at hc
  · push Not at hrest
    obtain ⟨th, ht, hn⟩ := hrest
    obtain ⟨c, hc⟩ := Option.ne_none_iff_exists'.1 hn
    cases hf : th.strand.stack with
    | nil =>
      rw [step_start ht hf hc rfl]
      exact .start ht hf hc (Call.outset _ _ c)
    | cons f below =>
      have hsound := (h.threads t th ht).frames f (by simp [hf])
      obtain ⟨e, m', move, hp, hd⟩ : ∃ e m' move,
          (f.request th.strand.fresh).perform s.memory = (m', .ok (e, move)) ∧
            Deed s.memory th.strand.fresh f e m' move :=
        f.exists_deed fun k hk => hsound.touches_lt h.accords hk
      rw [step_access ht hf hc hp]
      exact .access ht hf hc hd

/-- The next access of thread `t` settles the operation `d` by the verdict `v`. -/
def System.Decides (s : System σ α) (t : Nat) (d : Descriptor α) (v : Verdict) : Prop :=
  s.memory.verdict d.stamp = .pending ∧
    ∃ th below, s.threads[t]? = some th ∧ th.strand.stack = .conclude d v :: below

def Run.onward (r : Run σ α) (t : Nat) (step : System σ α × List (Event α)) : Run σ α :=
  ⟨step.1, r.log ++ step.2.map fun e => (t, e)⟩

inductive Course (client : Client σ α) (values : Array α) (states : List σ) :
    Run σ α → Ledger α → Prop where
  | new : Course client values states (.new (.ofValues values) states) (.ofValues values)
  | start {r : Run σ α} {L : Ledger α} {t : Nat} {th : Thread σ α} {c : Call α} {move : Move α}
      (h : Course client values states r L) (hs : r.system.Sound client L)
      (ht : r.system.threads[t]? = some th) (hi : th.strand.stack = [])
      (hc : client.next th.state = some c)
      (ho : Outset th.strand.fresh r.system.memory.size c move.next) :
    Course client values states
      (r.onward t
        (⟨r.system.memory, r.system.threads.set t (th.onward client [] move.next)⟩,
          .invoked c :: move.prelude c))
      (L.opening move.next)
  | access {r : Run σ α} {L : Ledger α} {t : Nat} {th : Thread σ α} {c : Call α} {f : Frame α}
      {below : List (Frame α)} {m' : Memory α} {e : Event α} {move : Move α}
      (h : Course client values states r L) (hs : r.system.Sound client L)
      (ht : r.system.threads[t]? = some th) (hf : th.strand.stack = f :: below)
      (hc : client.next th.state = some c)
      (hd : Deed r.system.memory th.strand.fresh f e m' move) :
    Course client values states
      (r.onward t
        (⟨m', r.system.threads.set t (th.onward client below move.next)⟩,
          e :: move.sequel f c below))
      (L.after e)

namespace Course

variable {client : Client σ α} {values : Array α} {states : List σ} {r : Run σ α} {L : Ledger α}

theorem sound (h : Course client values states r L) : r.system.Sound client L := by
  cases h with
  | new => exact .new values states
  | start h hs ht hi hc ho => exact hs.start ht hc ho
  | access h hs ht hf hc hd => exact hs.access ht hf hd

theorem size_eq (h : Course client values states r L) : r.system.memory.size = values.size := by
  induction h with
  | new => exact Memory.size_ofValues values
  | start h hs ht hi hc ho ih => exact ih
  | access h hs ht hf hc hd ih =>
    exact (hd.effect hs.accords ((hs.threads _ _ ht).sound_top hf)).size_eq.trans ih

theorem step (h : Course client values states r L) (t : Nat) :
    ∃ L', Course client values states (r.step client t) L' := by
  have hs := h.sound
  have hstride := hs.stride t
  rw [show r.step client t = r.onward t (r.system.step client t) from rfl]
  generalize r.system.step client t = step at hstride ⊢
  cases hstride with
  | rest hn =>
    refine ⟨L, ?_⟩
    rwa [Run.onward, List.map_nil, Array.appendList_nil]
  | start ht hi hc ho => exact ⟨_, h.start hs ht hi hc ho⟩
  | access ht hf hc hd => exact ⟨_, h.access hs ht hf hc hd⟩

end Course

/-- Every run is a course. -/
theorem Run.exists_course (client : Client σ α) (values : Array α) (states : List σ)
    (ts : List Nat) :
    ∃ L, Course client values states ((Run.new (.ofValues values) states).steps client ts) L := by
  induction ts using List.reverseRecOn with
  | nil => exact ⟨_, .new⟩
  | append_singleton ts t ih =>
    obtain ⟨L, h⟩ := ih
    rw [steps_append]
    exact h.step t

end MultiSwap
