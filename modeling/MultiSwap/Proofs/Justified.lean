import MultiSwap.Proofs.Chronicle

/-! Why operations are decided as they are. One takes effect only while it holds all its slots, and
each of them held an expected value when it was taken. One is given up only by a thread that found
another value in one of its slots after it was opened and before anybody decided it. -/

namespace MultiSwap

variable {σ α : Type} [BEq α]

/-- After `d` was opened, thread `t` found a value that the word of its slot does not expect. -/
def Log.Refused (log : Log α) (t : Nat) (d : Descriptor α) : Prop :=
  ∃ (before after : Log α) (w : Word α) (c : Cell α) (u : α),
    log = before ++ (t, .loaded w.index c) :: after ∧ before.Opened d ∧ w ∈ d.words ∧
      c.content = .plain u ∧ (u == w.expected) = false

theorem Log.Refused.append {log : Log α} {t : Nat} {d : Descriptor α} (h : log.Refused t d)
    (trail : Log α) : Log.Refused (log ++ trail) t d := by
  obtain ⟨before, after, w, c, u, he, h⟩ := h
  exact ⟨before, after ++ trail, w, c, u, by simp [he], h⟩

/-- What a verdict on `d` rests on when thread `t` settles it. -/
inductive Justified (log : Log α) (m : Memory α) (t : Nat) (d : Descriptor α) : Verdict → Prop where
  | commit (h : ∀ w ∈ d.words, ∃ s u, m.slots[w.index]? = some ⟨s, .claimed d⟩ ∧
      log.Takes d w.index s u ∧ (u == w.expected) = true) : Justified log m t d .commit
  | abort (h : log.Refused t d) : Justified log m t d .abort

omit [BEq α] in
theorem Frame.claimFrom_ne_abort (d d' : Descriptor α) (ws : List (Word α)) :
    Frame.claimFrom d ws ≠ .conclude d' .abort := by
  cases ws <;> simp [Frame.claimFrom]

omit [BEq α] in
theorem Frame.not_mem_clearFrom (d d' : Descriptor α) (takesEffect : Bool) (ws : List (Word α))
    (p : Verdict) : .conclude d' p ∉ (Frame.clearFrom d takesEffect ws).frames := by
  intro h
  obtain ⟨w, rest, -, he⟩ := mem_clearFrom _ _ h
  cases he

omit [BEq α] in
theorem Frame.not_mem_clearing (d d' : Descriptor α) (v p : Verdict) :
    .conclude d' p ∉ (Frame.clearing d v).next.frames := by
  intro h
  obtain ⟨takesEffect, w, rest, he, -⟩ := mem_clearing h
  cases he

/-- A thread is about to give up an operation that it found decided, or after it found a value that
is not expected. -/
theorem Deed.refused {m m' : Memory α} {fresh : Stamp} {f : Frame α} {e : Event α} {move : Move α}
    (h : Deed m fresh f e m' move) {d : Descriptor α}
    (hd : .conclude d .abort ∈ move.next.frames) (hv : m.verdict d.stamp = .pending) :
    ∃ w rest c u, f = .claim d w rest ∧ m.slots[w.index]? = some c ∧ e = .loaded w.index c ∧
      c.content = .plain u ∧ (u == w.expected) = false := by
  cases h with
  | @claimRefused d' word rest c u hc hu he =>
    cases List.mem_singleton.1 hd
    exact ⟨word, rest, c, u, rfl, hc, rfl, hu, he⟩
  | checkSettled hv' hp =>
    cases List.mem_singleton.1 hd
    exact absurd (hv'.symm.trans hv) hp
  | @helps f slot after c note g hw hc hg =>
    rcases List.mem_cons.1 hd with hd | hd
    · subst hd
      rcases hx : c.content with v | w | d <;> simp [Cell.assistance, hx] at hg
    · rw [← List.mem_singleton.1 hd] at hw
      cases f <;> simp [Frame.waits] at hw
  | driveOpen => exact absurd (List.mem_singleton.1 hd).symm (Frame.claimFrom_ne_abort _ _ _)
  | claimHeld => exact absurd (List.mem_singleton.1 hd).symm (Frame.claimFrom_ne_abort _ _ _)
  | driveSettled => exact absurd hd (Frame.not_mem_clearing _ _ _ _)
  | concludeWon => exact absurd hd (Frame.not_mem_clearing _ _ _ _)
  | concludeLost => exact absurd hd (Frame.not_mem_clearing _ _ _ _)
  | clearGone => exact absurd hd (Frame.not_mem_clearFrom _ _ _ _ _)
  | clearWon => exact absurd hd (Frame.not_mem_clearFrom _ _ _ _ _)
  | clearLost => exact absurd hd (Frame.not_mem_clearFrom _ _ _ _ _)
  | _ => simp [Next.frames, Move.done, Move.goto] at hd

theorem Course.refused {client : Client σ α} {values : Array α} {states : List σ} {r : Run σ α}
    {L : Ledger α} (h : Course client values states r L) {t : Nat} {th : Thread σ α}
    (ht : r.system.threads[t]? = some th) {d : Descriptor α}
    (hd : .conclude d .abort ∈ th.strand.stack)
    (hv : r.system.memory.verdict d.stamp = .pending) : r.history.Refused t d := by
  induction h generalizing t th with
  | new =>
    obtain ⟨state, -, rfl⟩ := System.thread_of_new ht
    exact absurd hd List.not_mem_nil
  | @start r L t₀ th₀ c move h hs ht₀ hi hc ho ih =>
    rw [Run.history_step]
    rcases Thread.mem_onward ht₀ (List.nil_subset _) ht hd with ⟨-, hd⟩ | ⟨th', ht', hd'⟩
    · generalize move.next = next at ho hd
      cases ho <;> simp [Next.frames] at hd
    · exact (ih ht' hd' hv).append _
  | @access r L t₀ th₀ c f below m' e move h hs ht₀ hf hc hdeed ih =>
    have hth := hs.threads t₀ th₀ ht₀
    have heff := hdeed.effect hs.accords (hth.sound_top hf)
    have hv' : r.system.memory.verdict d.stamp = .pending := by
      by_contra hn
      exact hn ((heff.settled_of_settled hn).symm.trans hv)
    rw [Run.history_step]
    have hb : below ⊆ th₀.strand.stack := by simp [hf]
    rcases Thread.mem_onward ht₀ hb ht hd with ⟨rfl, hd⟩ | ⟨th', ht', hd'⟩
    · obtain ⟨w, rest, c', u, rfl, -, rfl, hu, he⟩ := hdeed.refused hd hv'
      have hr : L.Reached d (w :: rest) := hth.sound_top hf
      exact ⟨r.history, _, w, c', u, rfl, h.chronicle.opened hr.1,
        Descriptor.mem_of_others hr.mem, hu, he⟩
    · exact (ih ht' hd' hv').append _

theorem Deed.decides {L : Ledger α} {m m' : Memory α} {fresh : Stamp} {f : Frame α} {e : Event α}
    {move : Move α} (h : Deed m fresh f e m' move) (hm : m.Accords L)
    (hf : f.Sound L m fresh.owner) {d : Descriptor α} (ho : L.Opened d) {v now : Verdict}
    (he : e = .decided d.stamp v true now) :
    f = .conclude d v ∧ m.verdict d.stamp = .pending := by
  cases h with
  | @concludeWon d' p hv =>
    obtain ⟨hs, rfl, -⟩ := Event.decided.inj he
    obtain rfl := hm.formed.eq_of_stamp hf.1 ho hs
    exact ⟨rfl, hv⟩
  | @ruleWon r g p hv =>
    obtain ⟨rfl, -⟩ := Event.decided.inj he
    have hl := hm.formed.known ho
    rw [hf.1] at hl
    simp at hl
  | _ => simp at he

section

variable {client : Client σ α} {values : Array α} {states : List σ} {r : Run σ α} {L : Ledger α}
  {t : Nat} {d : Descriptor α} {v : Verdict}

theorem Course.decides (h : Course client values states r L) (ho : L.Opened d) {now : Verdict}
    (hmem : .decided d.stamp v true now ∈ (r.system.step client t).2) :
    r.system.Decides t d v := by
  have hs := h.sound
  have hstride := hs.stride t
  generalize r.system.step client t = step at hstride hmem
  cases hstride with
  | rest => simp at hmem
  | @start th c move =>
    have hquiet := move.quiet_ofStart c t (t, .decided d.stamp v true now)
      (List.mem_map_of_mem hmem)
    simp [Event.wins] at hquiet
  | @access th c f below m' e move ht hf hc hd =>
    rcases List.mem_cons.1 hmem with he | hmem
    · obtain ⟨rfl, hv⟩ := hd.decides hs.accords ((hs.threads t th ht).sound_top hf) ho he.symm
      exact ⟨hv, th, below, ht, hf⟩
    · have hquiet := Move.quiet_sequel hmem
      simp [Event.wins] at hquiet

theorem Course.justified (h : Course client values states r L) (hd : r.system.Decides t d v) :
    Justified r.history r.system.memory t d v := by
  have hs := h.sound
  obtain ⟨hv, th, below, ht, hf⟩ := hd
  obtain ⟨ho, hp, hall⟩ : L.Opened d ∧ v ≠ .pending ∧
      (v = .commit → ∀ w ∈ d.words, L.Took d w.index) := (hs.threads t th ht).sound_top hf
  cases v with
  | pending => exact absurd rfl hp
  | abort => exact .abort (h.refused ht (by simp [hf]) hv)
  | commit =>
    refine .commit fun w hw => ?_
    obtain ⟨s, hk⟩ := hs.accords.holds (hall rfl w hw) hv
    obtain ⟨u, htakes, hu⟩ := h.chronicle.exists_takes hs.accords (hs.accords.cells _ _ hk) hw rfl
    exact ⟨s, u, hk, htakes, hu⟩

end

/-- In every run, a step settles an operation only from the frame that proposes it, only once, and
for good reason. -/
theorem Run.decision_justified (client : Client σ α) (values : Array α) (states : List σ)
    (ts : List Nat) (t : Nat) (d : Descriptor α) (v : Verdict) :
    let r := (Run.new (.ofValues values) states).steps client ts
    (∀ now, r.history.Opened d → .decided d.stamp v true now ∈ (r.system.step client t).2 →
      r.system.Decides t d v) ∧
      (r.system.Decides t d v →
        ¬ r.history.Settled d.stamp ∧ Justified r.history r.system.memory t d v) := by
  intro r
  obtain ⟨L, h⟩ : ∃ L, Course client values states r L := exists_course client values states ts
  constructor
  · intro now hopened hmem
    obtain ⟨t', old, s, hswap⟩ := hopened
    exact h.decides ⟨s, (h.chronicle.swapped t' _ old _ hswap).2⟩ hmem
  · intro hdec
    exact ⟨h.chronicle.not_settled hdec.1, h.justified hdec⟩

/-- An exchange of two slots that nobody disturbs stands before its decision after 14 steps. -/
theorem Run.decision_justified_dcas :
    let client : Client Unit Nat := ⟨fun _ => some (.dcas 0 0 2 1 1 3), fun s _ => s⟩
    let r := (Run.new (.ofValues #[0, 1]) [()]).steps client (List.replicate 14 0)
    Justified r.history r.system.memory 0 ⟨⟨1, 0⟩, ⟨0, 0, 2⟩, [⟨1, 1, 3⟩]⟩ .commit := by
  intro client
  have h := Run.decision_justified client #[0, 1] [()] (List.replicate 14 0) 0
    ⟨⟨1, 0⟩, ⟨0, 0, 2⟩, [⟨1, 1, 3⟩]⟩ .commit
  have hstacks : ((Run.new (.ofValues #[0, 1]) [()]).steps client
      (List.replicate 14 0)).system.threads.map (·.strand.stack) =
        [[.conclude ⟨⟨1, 0⟩, ⟨0, 0, 2⟩, [⟨1, 1, 3⟩]⟩ .commit]] := by cbv
  obtain ⟨th, ht, hth⟩ := List.map_eq_singleton_iff.1 hstacks
  exact (h.2 ⟨by decide +kernel, th, [], by rw [ht]; rfl, hth⟩).2

end MultiSwap
