import MultiSwap.Proofs.Ascent
import MultiSwap.Proofs.Once

/-! What can still happen to an operation that is over. Nobody claims a slot for it once it took
effect. If it was given up, a slot may still be claimed for it, but only from a handoff that was
ruled to go through before and is in the slot all the time: whatever is offered later is refused. -/

namespace MultiSwap

variable {σ α : Type}

/-- Does somebody end who drove `d`? An operation goes by its stamp. -/
def Event.closes (d : Descriptor α) : Event α → Bool
  | closed f _ =>
    match f.role with
    | .driving d' => d'.stamp = d.stamp
    | _ => false
  | _ => false

theorem Event.closes_iff {d : Descriptor α} {e : Event α} : e.closes d = true ↔
    ∃ f res d', e = .closed f res ∧ f.role = .driving d' ∧ d'.stamp = d.stamp := by
  cases e with
  | closed f res =>
    cases hr : f.role <;> simp [closes, hr]
  | _ => simp [closes]

theorem Event.installs_congr {d d' : Descriptor α} (h : d.stamp = d'.stamp) (k : Nat)
    (e : Event α) : e.installs d k = e.installs d' k := by
  simp only [installs, Cell.isClaimedBy, h]

theorem Cell.isHandoffTo_congr {d d' : Descriptor α} (h : d.stamp = d'.stamp) (c : Cell α) :
    c.isHandoffTo d = c.isHandoffTo d' := by
  simp only [isHandoffTo, h]

variable [BEq α]

/-- What is left of `d`, which was decided when the memory was `m₀` and its ledger `L₀`. Handoffs
made since then are refused, and a handoff from before is where it was. -/
structure System.Lingers (L₀ : Ledger α) (m₀ : Memory α) (d : Descriptor α) (s : System σ α)
    (L : Ledger α) : Prop where
  within : L₀.Within L
  settled : s.memory.verdict d.stamp = m₀.verdict d.stamp
  kept : ∀ (k : Nat) c, s.memory.slots[k]? = some c → L₀ c.stamp ≠ none → m₀.slots[k]? = some c
  refused : ∀ r k g, L r = some (.cell k (.reserved g)) → g.operation = d → L₀ r = none →
    s.memory.verdict r ≠ .commit
  unruled : ∀ (t : Nat) th r g, s.threads[t]? = some th → .rule r g .commit ∈ th.strand.stack →
    g.operation = d → L₀ r ≠ none

section

variable {client : Client σ α} {s : System σ α} {L₀ L : Ledger α} {m₀ : Memory α}
  {d : Descriptor α} {t : Nat} {th : Thread σ α}

theorem System.Lingers.refl (hs : s.Sound client L) : s.Lingers L s.memory d L := by
  refine ⟨.refl L, rfl, fun _ _ hc _ => hc, fun r k g hr _ hn => ?_, fun t th r g ht hg _ hn => ?_⟩
  · rw [hr] at hn
    simp at hn
  · have hl := ((hs.threads t th ht).frames _ hg).1
    rw [hn] at hl
    simp at hl

theorem System.Lingers.start (h : s.Lingers L₀ m₀ d L) (ht : s.threads[t]? = some th)
    (hth : th.Sound client L s.memory t) {c : Call α} {next : Next α}
    (ho : Outset th.strand.fresh s.memory.size c next) :
    System.Lingers L₀ m₀ d ⟨s.memory, s.threads.set t (th.onward client [] next)⟩
      (L.opening next) := by
  refine ⟨?_, h.settled, h.kept, fun r k g hr => h.refused r k g (ho.cell_of_opening hr), ?_⟩
  · exact fun r e hr => (ho.grows hth.fresh_unused).within r e (h.within r e hr)
  · intro t' th' r g ht' hg
    rcases Thread.mem_onward ht (List.nil_subset _) ht' hg with ⟨-, hg⟩ | ⟨th'', ht'', hg⟩
    · have hrole := ho.role_frames _ hg
      simp [Frame.role] at hrole
    · exact h.unruled t' th'' r g ht'' hg

variable {f : Frame α} {below : List (Frame α)} {m' : Memory α} {e : Event α} {move : Move α}

theorem System.Lingers.access (h : s.Lingers L₀ m₀ d L) (hv : m₀.verdict d.stamp ≠ .pending)
    (hs : s.Sound client L) (ht : s.threads[t]? = some th) (hf : th.strand.stack = f :: below)
    (hd : Deed s.memory th.strand.fresh f e m' move) :
    System.Lingers L₀ m₀ d ⟨m', s.threads.set t (th.onward client below move.next)⟩
      (L.after e) := by
  have hth := hs.threads t th ht
  have hsound := hth.sound_top hf
  have heff := hd.effect hs.accords hsound
  have hsettled : s.memory.verdict d.stamp ≠ .pending := by rwa [h.settled]
  have hfresh : L₀ th.strand.fresh = none := by
    by_contra hn
    obtain ⟨x, hx⟩ := Option.ne_none_iff_exists'.1 hn
    have hl := h.within _ _ hx
    rw [hth.fresh_unused] at hl
    simp at hl
  constructor
  · exact fun r x hr => heff.within hth.fresh_unused r x (h.within r x hr)
  · exact (heff.settled_of_settled hsettled).trans h.settled
  · intro k c hc hn
    rcases heff.slot_cases hc with hc | ⟨he, -⟩
    · exact h.kept k c hc hn
    · exact absurd (he ▸ hfresh) hn
  · intro r k g hr hg hn
    rcases Ledger.after_cases hr with hr' | ⟨old, he⟩
    · rcases heff.verdict_cases r with hsame | ⟨-, he⟩
      · rw [hsame]
        exact h.refused r k g hr' hg hn
      · intro hcommit
        rw [hcommit] at he
        rcases hd.proposes he with ⟨d', rfl, rfl⟩ | ⟨g', rfl⟩
        · have hknown := hs.accords.formed.known (Frame.Sound.opened hsound rfl)
          rw [hr'] at hknown
          simp at hknown
        · have hl := hsound.1
          rw [hr'] at hl
          cases hl
          exact h.unruled t th r g ht (by simp [hf]) hg hn
    · obtain ⟨rfl, -⟩ := hd.offers hsound he
      rcases heff.verdict_cases th.strand.fresh with hsame | ⟨-, he'⟩
      · rw [hsame, hs.accords.unknown _ hth.fresh_unused]
        simp
      · rw [he] at he'
        simp at he'
  · intro t' th' r g ht' hg hop
    rcases Thread.mem_onward ht (by simp [hf]) ht' hg with ⟨-, hg⟩ | ⟨th'', ht'', hg⟩
    · rcases hd.weighs hg with ⟨hp, -⟩ | ⟨-, hpending⟩
      · simp at hp
      · exact absurd (hop ▸ hpending) hsettled
    · exact h.unruled t' th'' r g ht'' hg hop

theorem System.Lingers.installs (h : s.Lingers L₀ m₀ d L) (hv : m₀.verdict d.stamp ≠ .pending)
    (ho : L₀.Opened d) (hs : s.Sound client L) (ht : s.threads[t]? = some th)
    (hf : th.strand.stack = f :: below) (hd : Deed s.memory th.strand.fresh f e m' move) {k : Nat}
    (hi : e.installs d k = true) :
    m₀.verdict d.stamp = .abort ∧ ∃ c, m₀.slots[k]? = some c ∧ c.isHandoffTo d = true := by
  have hth := hs.threads t th ht
  have hsound := hth.sound_top hf
  have heff := hd.effect hs.accords hsound
  have hopened : L.Opened d := ho.mono h.within
  obtain ⟨d', hstamp, htook', hnot, hcommit⟩ := heff.installs hs.accords hi
  have hformed := (heff.accords hs.accords hth.fresh_unused).formed
  obtain rfl : d' = d := hformed.eq_of_stamp (hformed.opened_of_took htook')
    (hopened.mono (heff.within hth.fresh_unused)) hstamp
  rw [h.settled] at hcommit
  refine ⟨?_, ?_⟩
  · cases hp : m₀.verdict d'.stamp with
    | pending => exact absurd hp hv
    | commit => exact absurd hp hcommit
    | abort => rfl
  · obtain ⟨c, hc⟩ := htook'
    rcases Ledger.after_cases hc with hc | ⟨old, he⟩
    · exact absurd ⟨c, hc⟩ hnot
    · rcases hd.brings hs.accords hsound he with ⟨rfl, -⟩ | ⟨r, g, rfl, hg, hruled⟩
      · exact absurd hopened hnot
      · have hslot := (heff.slot_of_swapped he).1
        have hold : L₀ r ≠ none := fun hn =>
          h.refused r k g (hs.accords.cells k _ hslot) hg hn hruled
        exact ⟨_, h.kept k _ hslot hold, by simp [Cell.isHandoffTo, hg]⟩

end

section

variable {client : Client σ α} {values : Array α} {states : List σ} {r : Run σ α} {L₀ : Ledger α}
  {d : Descriptor α}

theorem Course.late (h : Course client values states r L₀) (ho : L₀.Opened d)
    (hv : r.system.memory.verdict d.stamp ≠ .pending) (us : List Nat) :
    ∃ L more, Course client values states (r.steps client us) L ∧
      (r.steps client us).system.Lingers L₀ r.system.memory d L ∧
        (r.steps client us).history = r.history ++ more ∧
          ∀ x ∈ more, ∀ k, x.2.installs d k = true → r.system.memory.verdict d.stamp = .abort ∧
            ∃ c, r.system.memory.slots[k]? = some c ∧ c.isHandoffTo d = true := by
  induction us using List.reverseRecOn with
  | nil => exact ⟨L₀, [], h, .refl h.sound, (List.append_nil _).symm, by simp⟩
  | append_singleton us t ih =>
    obtain ⟨L, more, hcourse, hlingers, hhist, hmore⟩ := ih
    rw [Run.steps_append]
    generalize r.steps client us = r' at hcourse hlingers hhist ⊢
    have hs := hcourse.sound
    have hstride := hs.stride t
    rw [show r'.steps client [t] = r'.onward t (r'.system.step client t) from rfl]
    generalize r'.system.step client t = step at hstride ⊢
    have hquiet {events : Log α} (hq : ∀ x ∈ events, x.2.wins = false) {x : Nat × Event α}
        (hx : x ∈ more ++ events) (k : Nat) (hi : x.2.installs d k = true) : x ∈ more := by
      refine (List.mem_append.1 hx).resolve_right fun hx => ?_
      rw [Event.installs_of_quiet (hq x hx)] at hi
      simp at hi
    cases hstride with
    | rest hn =>
      refine ⟨L, more, ?_, hlingers, ?_, hmore⟩
      · rwa [Run.onward, List.map_nil, Array.appendList_nil]
      · rw [Run.history_step, ← hhist]
        exact List.append_nil _
    | @start th c move ht hi hc hout =>
      have hq := move.quiet_ofStart c t
      refine ⟨_, more ++ Log.ofStep t (.invoked c :: move.prelude c),
        hcourse.start hs ht hi hc hout, hlingers.start ht (hs.threads t th ht) hout, ?_, ?_⟩
      · rw [Run.history_step, hhist, List.append_assoc]
      · exact fun x hx k hi => hmore x (hquiet hq hx k hi) k hi
    | @access th c f below m' e move ht hf hc hd =>
      have hq := move.quiet_ofSequel f c below t
      refine ⟨_, more ++ Log.ofStep t (e :: move.sequel f c below),
        hcourse.access hs ht hf hc hd, hlingers.access hv hs ht hf hd, ?_, ?_⟩
      · rw [Run.history_step, hhist, List.append_assoc]
      · intro x hx k hi
        rcases List.mem_append.1 hx with hx | hx
        · exact hmore x hx k hi
        · rcases List.mem_cons.1 hx with rfl | hx
          · exact hlingers.installs hv ho hs ht hf hd hi
          · rw [Event.installs_of_quiet (hq x hx)] at hi
            simp at hi

end

/-- However the run goes on, a slot is claimed for `d` only if that was given up, and only where a
handoff to it is in the slot now. -/
def Run.OnlyHandsOver (client : Client σ α) (r : Run σ α) (d : Descriptor α) : Prop :=
  ∀ us, ∀ x ∈ (r.steps client us).history.drop r.history.length, ∀ k, x.2.installs d k = true →
    r.system.memory.verdict d.stamp = .abort ∧
      ∃ c, r.system.memory.slots[k]? = some c ∧ c.isHandoffTo d = true

/-- In every run, once somebody who drove an operation has ended, a slot is claimed for it only from a
handoff that was in the slot at that time, and not at all if it took effect. -/
theorem Run.late_claims (client : Client σ α) (values : Array α) (states : List σ)
    (ts : List Nat) (d : Descriptor α) :
    let r := (Run.new (.ofValues values) states).steps client ts
    (∃ x ∈ r.history, x.2.closes d = true) → r.OnlyHandsOver client d := by
  intro r hclosed us x hx k hi
  obtain ⟨L, h⟩ : ∃ L, Course client values states r L := exists_course client values states ts
  obtain ⟨⟨t, e⟩, he, hcloses⟩ := hclosed
  obtain ⟨f, res, d', rfl, hrole, hstamp⟩ := Event.closes_iff.1 hcloses
  obtain ⟨b, -, ho, hv, -⟩ := h.closed he hrole
  have hsettled : r.system.memory.verdict d'.stamp ≠ .pending := by
    rw [hv]
    cases b <;> simp
  obtain ⟨-, more, -, -, hhist, hlate⟩ := h.late ho hsettled us
  rw [hhist, List.drop_left] at hx
  rw [Event.installs_congr hstamp.symm] at hi
  obtain ⟨habort, c, hc, hto⟩ := hlate x hx k hi
  exact ⟨hstamp ▸ habort, c, hc, by rwa [Cell.isHandoffTo_congr hstamp.symm]⟩

/-- A helper that saw another value rolls an operation back and ends while a handoff to it, which is
ruled to go through, is in its second slot. -/
theorem Run.late_claims_handoff :
    let r := (Run.new (.ofValues #[0, 5]) [[.dcas 0 0 1 1 0 1], [.get 0], [.set 1 0]]).steps .script
      (List.replicate 4 0 ++ List.replicate 5 1 ++ List.replicate 3 2 ++ List.replicate 7 0 ++
        List.replicate 5 1)
    let d : Descriptor Nat := ⟨⟨1, 0⟩, ⟨0, 0, 1⟩, [⟨1, 0, 1⟩]⟩
    (∃ x ∈ r.history, x.2.closes d = true) ∧
      (∃ x ∈ (r.steps .script [0]).history.drop r.history.length, x.2.installs d 1 = true) ∧
        r.system.memory.verdict d.stamp = .abort ∧
          ∃ c, r.system.memory.slots[1]? = some c ∧ c.isHandoffTo d = true := by
  intro r d
  have hclosed : ∃ x ∈ r.history, x.2.closes d = true :=
    List.any_eq_true.1 (by decide +kernel : r.history.any (fun x => x.2.closes d) = true)
  have hlate : ∃ x ∈ (r.steps .script [0]).history.drop r.history.length,
      x.2.installs d 1 = true :=
    List.any_eq_true.1 (by decide +kernel : ((r.steps .script [0]).history.drop
      r.history.length).any (fun x => x.2.installs d 1) = true)
  have h : r.OnlyHandsOver .script d := Run.late_claims .script #[0, 5]
    [[.dcas 0 0 1 1 0 1], [.get 0], [.set 1 0]] _ d hclosed
  clear_value r
  obtain ⟨x, hx, hi⟩ := hlate
  exact ⟨hclosed, ⟨x, hx, hi⟩, h [0] x hx 1 hi⟩

/-- The swap that comes last carries that handoff on and claims the slot again, although the caller
of the helper was answered long ago. -/
theorem Run.claims_after_close :
    ¬ ∀ (values : Array Nat) (scripts : List (List (Call Nat))) (ts us : List Nat)
        (d : Descriptor Nat),
      let r := (Run.new (.ofValues values) scripts).steps .script ts
      r.history.any (fun x => x.2.closes d) = true →
        ((r.steps .script us).history.drop r.history.length).all
          (fun x => (List.range values.size).all fun k => !x.2.installs d k) = true := by
  intro h
  have hall := h #[0, 5] [[.dcas 0 0 1 1 0 1], [.get 0], [.set 1 0]]
    (List.replicate 4 0 ++ List.replicate 5 1 ++ List.replicate 3 2 ++ List.replicate 7 0 ++
      List.replicate 5 1) [0] ⟨⟨1, 0⟩, ⟨0, 0, 1⟩, [⟨1, 0, 1⟩]⟩
  revert hall
  decide +kernel

end MultiSwap
