import MultiSwap.Proofs.Answers

/-! Operations take their slots in ascending order. A slot is reserved or claimed for an operation
only after all its slots below, so while the operation is pending it holds all of them. A handoff
stays in its slot until it is ruled on, and it is given back only if its operation was decided. -/

namespace MultiSwap

variable {σ α : Type}

/-- The slots of `d` below `k` were claimed. -/
def Ledger.Climbed (L : Ledger α) (d : Descriptor α) (k : Nat) : Prop :=
  ∀ w ∈ d.words, w.index < k → L.Took d w.index

theorem Ledger.Climbed.mono {L L' : Ledger α} (h : L.Within L') {d : Descriptor α} {k : Nat}
    (hc : L.Climbed d k) : L'.Climbed d k :=
  fun w hw hk => (hc w hw hk).mono h

theorem Ledger.after_cases {L : Ledger α} {e : Event α} {s : Stamp} {k : Nat} {x : Content α}
    (h : L.after e s = some (.cell k x)) :
    L s = some (.cell k x) ∨ ∃ old, e = .swapped k old true ⟨s, x⟩ := by
  cases e with
  | swapped j old won c =>
    cases won with
    | false => exact Or.inl h
    | true =>
      by_cases hs : s = c.stamp
      · subst hs
        rw [Ledger.after, Ledger.record_self] at h
        cases h
        exact Or.inr ⟨old, rfl⟩
      · exact Or.inl (by rwa [Ledger.after, Ledger.record_of_ne hs] at h)
  | _ => exact Or.inl h

theorem Ledger.Reached.climbed {L : Ledger α} {d : Descriptor α} {n : Nat} (hd : d.Formed n)
    {word : Word α} {rest : List (Word α)} (h : L.Reached d (word :: rest)) :
    L.Climbed d word.index := by
  obtain ⟨ho, done, he, hdone⟩ := h
  intro w hw hlt
  rcases List.mem_cons.1 hw with rfl | hw
  · exact ho
  · rw [he] at hw
    rcases List.mem_append.1 hw with hw | hw
    · exact hdone w hw
    · -- a word that is not done yet is not below the next one
      have hpw := (List.pairwise_cons.1 hd.ascending).2
      rw [he] at hpw
      rcases List.mem_cons.1 hw with rfl | hw
      · exact absurd hlt (Nat.lt_irrefl _)
      · have := (List.pairwise_cons.1 (List.pairwise_append.1 hpw).2.1).1 w hw
        omega

theorem Descriptor.Formed.climbed_first {d : Descriptor α} {n : Nat} (hd : d.Formed n)
    (L : Ledger α) : L.Climbed d d.first.index := by
  intro w hw hlt
  rcases List.mem_cons.1 hw with rfl | hw
  · exact absurd hlt (Nat.lt_irrefl _)
  · have := hd.first_lt hw
    omega

theorem Frame.role_of_mem_clearFrom {d : Descriptor α} (takesEffect : Bool) (ws : List (Word α))
    {g : Frame α} (h : g ∈ (clearFrom d takesEffect ws).frames) : g.role = .driving d := by
  obtain ⟨w, rest, -, rfl⟩ := mem_clearFrom _ _ h
  rfl

theorem Frame.role_of_mem_clearing {d : Descriptor α} {v : Verdict} {g : Frame α}
    (h : g ∈ (clearing d v).next.frames) : g.role = .driving d := by
  obtain ⟨takesEffect, w, rest, rfl, -⟩ := mem_clearing h
  rfl

variable [BEq α]

theorem Exchange.ruled {L : Ledger α} {m : Memory α} {owner k : Nat} {r : Stamp} {g : Handoff α}
    {new : Content α} (h : Exchange L m owner k ⟨r, .reserved g⟩ new) :
    m.verdict r ≠ .pending := by
  cases h with
  | handover hv => simp [hv]
  | giveBack hv => simp [hv]

namespace Effect

variable {L : Ledger α} {m m' : Memory α} {fresh : Stamp} {e : Event α}

theorem slot_of_swapped (h : Effect L m fresh e m') {k : Nat} {old now : Cell α}
    (he : e = .swapped k old true now) :
    m.slots[k]? = some old ∧ m'.slots[k]? = some now ∧ Exchange L m fresh.owner k old now.content := by
  cases h with
  | quiet hq =>
    rw [he] at hq
    simp [Event.wins] at hq
  | placed hc hx =>
    cases he
    exact ⟨hc, Memory.slot_place_self (Memory.lt_of_slot hc) _, hx⟩
  | decided => simp at he
  | ruled => simp at he

theorem slot_kept (h : Effect L m fresh e m') {k : Nat} {c : Cell α}
    (hc : m.slots[k]? = some c) :
    m'.slots[k]? = some c ∨ ∃ now, e = .swapped k c true now := by
  cases h with
  | quiet => exact Or.inl hc
  | @placed j old new hold hx =>
    by_cases he : k = j
    · subst he
      rw [hold] at hc
      cases hc
      exact Or.inr ⟨_, rfl⟩
    · exact Or.inl (by rwa [Memory.slot_place_of_ne he])
  | decided => exact Or.inl (by rwa [Memory.slots_propose])
  | ruled => exact Or.inl (by rwa [Memory.slots_propose])

theorem pending_of_pending (h : Effect L m fresh e m') {s : Stamp}
    (hs : m'.verdict s = .pending) : m.verdict s = .pending := by
  by_contra hn
  rw [h.settled_of_settled hn] at hs
  exact hn hs

theorem verdict_cases (h : Effect L m fresh e m') (s : Stamp) :
    m'.verdict s = m.verdict s ∨
      m.verdict s = .pending ∧ e = .decided s (m'.verdict s) true (m'.verdict s) := by
  have hpropose {r : Stamp} {p : Verdict} (hr : m.verdict r = .pending) :
      (m.propose r p).verdict s = m.verdict s ∨ m.verdict s = .pending ∧
        Event.decided (α := α) r p true p =
          .decided s ((m.propose r p).verdict s) true ((m.propose r p).verdict s) := by
    by_cases he : s = r
    · subst he
      rw [Memory.verdict_propose_self hr]
      exact Or.inr ⟨hr, rfl⟩
    · exact Or.inl (Memory.verdict_propose_of_ne he p)
  cases h with
  | quiet => exact Or.inl rfl
  | placed => exact Or.inl rfl
  | decided ho hv hp hall => exact hpropose hv
  | ruled hr hv hp ht => exact hpropose hv

end Effect

namespace Deed

variable {L : Ledger α} {m m' : Memory α} {fresh : Stamp} {f : Frame α} {e : Event α}
  {move : Move α}

theorem proposes (h : Deed m fresh f e m' move) {s : Stamp} {p now : Verdict}
    (he : e = .decided s p true now) :
    (∃ d, f = .conclude d p ∧ d.stamp = s) ∨ ∃ g, f = .rule s g p := by
  cases h with
  | concludeWon hv =>
    cases he
    exact Or.inl ⟨_, rfl, rfl⟩
  | ruleWon hv =>
    cases he
    exact Or.inr ⟨_, rfl⟩
  | _ => simp at he

/-- Whoever is about to rule on a handoff has just seen whether its operation is decided. -/
theorem weighs (h : Deed m fresh f e m' move) {r : Stamp} {g : Handoff α} {p : Verdict}
    (hg : .rule r g p ∈ move.next.frames) :
    (p = .abort ∧ m.verdict g.operation.stamp ≠ .pending) ∨
      (p = .commit ∧ m.verdict g.operation.stamp = .pending) := by
  have hnot {d : Descriptor α} (hr : (Frame.rule r g p).role = .driving d) : False := by
    simp [Frame.role] at hr
  cases h with
  | weighOpen hv =>
    cases List.mem_singleton.1 hg
    exact Or.inr ⟨rfl, hv⟩
  | weighSettled hv hp =>
    cases List.mem_singleton.1 hg
    exact Or.inl ⟨rfl, by rwa [hv]⟩
  | @helps f slot after c note g' hw hc ha =>
    rcases List.mem_cons.1 hg with rfl | hg
    · rcases hx : c.content with v | w | d <;> simp [Cell.assistance, hx] at ha
    · rw [← List.mem_singleton.1 hg] at hw
      cases f <;> simp [Frame.waits] at hw
  | driveOpen | claimHeld => exact (hnot (List.mem_singleton.1 hg ▸ role_claimFrom _ _)).elim
  | driveSettled | concludeWon | concludeLost =>
    exact (hnot (Frame.role_of_mem_clearing hg)).elim
  | clearGone | clearWon | clearLost => exact (hnot (Frame.role_of_mem_clearFrom _ _ hg)).elim
  | _ => simp [Next.frames, Move.done, Move.goto] at hg

end Deed

theorem Outset.cell_of_opening {L : Ledger α} {fresh : Stamp} {n : Nat} {c : Call α}
    {next : Next α} (h : Outset fresh n c next) {s : Stamp} {k : Nat} {x : Content α}
    (hs : L.opening next s = some (.cell k x)) : L s = some (.cell k x) := by
  cases h with
  | @many ws d hb hc hm hd hf =>
    by_cases he : s = d.stamp
    · rw [Ledger.opening, he, Ledger.record_self] at hs
      simp at hs
    · rwa [Ledger.opening, Ledger.record_of_ne he] at hs
  | _ => exact hs

/-- In which order slots are taken, and what becomes of handoffs. -/
structure System.Ascends (s : System σ α) (L : Ledger α) : Prop where
  claimed : ∀ d k, L.Took d k → L.Climbed d k
  reserved : ∀ r k g, L r = some (.cell k (.reserved g)) → L.Climbed g.operation k
  waiting : ∀ r k g, L r = some (.cell k (.reserved g)) → s.memory.verdict r = .pending →
    s.memory.slots[k]? = some ⟨r, .reserved g⟩
  givenBack : ∀ r k g, L r = some (.cell k (.reserved g)) → s.memory.verdict r = .abort →
    s.memory.verdict g.operation.stamp ≠ .pending
  ruling : ∀ (t : Nat) th r g, s.threads[t]? = some th → .rule r g .abort ∈ th.strand.stack →
    s.memory.verdict g.operation.stamp ≠ .pending

section

variable {client : Client σ α} {s : System σ α} {L : Ledger α} {t : Nat} {th : Thread σ α}

theorem System.Ascends.access {f : Frame α} {below : List (Frame α)} {m' : Memory α} {e : Event α}
    {move : Move α} (ha : s.Ascends L) (hs : s.Sound client L) (ht : s.threads[t]? = some th)
    (hf : th.strand.stack = f :: below) (hd : Deed s.memory th.strand.fresh f e m' move) :
    System.Ascends ⟨m', s.threads.set t (th.onward client below move.next)⟩ (L.after e) := by
  have hth := hs.threads t th ht
  have hsound := hth.sound_top hf
  have heff := hd.effect hs.accords hsound
  have hformed := (heff.accords hs.accords hth.fresh_unused).formed
  have hw := heff.within hth.fresh_unused
  have hsettled {r : Stamp} (hr : s.memory.verdict r ≠ .pending) : m'.verdict r ≠ .pending := by
    rwa [heff.settled_of_settled hr]
  constructor
  · intro d k htook
    obtain ⟨c, hc⟩ := htook
    rcases Ledger.after_cases hc with hc' | ⟨old, he⟩
    · exact (ha.claimed d k ⟨c, hc'⟩).mono hw
    · rcases hd.brings hs.accords hsound he with ⟨rfl, -, -, -⟩ | ⟨r, g, rfl, rfl, -⟩
      · exact (hformed.descriptor (hformed.known_of_took ⟨c, hc⟩)).climbed_first _
      · exact (ha.reserved r k g (hs.accords.cells k _ (heff.slot_of_swapped he).1)).mono hw
  · intro r k g hr
    rcases Ledger.after_cases hr with hr' | ⟨old, he⟩
    · exact (ha.reserved r k g hr').mono hw
    · obtain ⟨-, word, rest, hreached, hk, -⟩ := hd.offers hsound he
      obtain ⟨hslot, ho, -⟩ := hformed.reserved hr
      rw [← hslot, ← hk]
      exact (hreached.mono hw).climbed (hformed.descriptor_of_opened ho)
  · intro r k g hr hv
    rcases Ledger.after_cases hr with hr' | ⟨old, he⟩
    · have hv' := heff.pending_of_pending hv
      rcases heff.slot_kept (ha.waiting r k g hr' hv') with hk | ⟨now, he⟩
      · exact hk
      · exact absurd hv' (heff.slot_of_swapped he).2.2.ruled
    · exact (heff.slot_of_swapped he).2.1
  · intro r k g hr hv
    rcases Ledger.after_cases hr with hr' | ⟨old, he⟩
    · rcases heff.verdict_cases r with hsame | ⟨-, he⟩
      · exact hsettled (ha.givenBack r k g hr' (hsame.symm.trans hv))
      · rw [hv] at he
        rcases hd.proposes he with ⟨d, rfl, rfl⟩ | ⟨g', rfl⟩
        · have hknown := hs.accords.formed.known (Frame.Sound.opened hsound rfl)
          rw [hr'] at hknown
          simp at hknown
        · have hl := hsound.1
          rw [hr'] at hl
          cases hl
          exact hsettled (ha.ruling t th r g ht (by simp [hf]))
    · obtain ⟨rfl, -⟩ := hd.offers hsound he
      have hunknown := hs.accords.unknown _ hth.fresh_unused
      rcases heff.verdict_cases th.strand.fresh with hsame | ⟨-, he'⟩
      · rw [hsame, hunknown] at hv
        simp at hv
      · rw [he] at he'
        simp at he'
  · intro t' th' r g ht' hg
    rcases Thread.mem_onward ht (by simp [hf]) ht' hg with ⟨-, hg⟩ | ⟨th'', ht'', hg⟩
    · rcases hd.weighs hg with ⟨-, hv⟩ | ⟨hp, -⟩
      · exact hsettled hv
      · simp at hp
    · exact hsettled (ha.ruling t' th'' r g ht'' hg)

theorem System.Ascends.start (ha : s.Ascends L) (ht : s.threads[t]? = some th)
    (hth : th.Sound client L s.memory t) {c : Call α} {next : Next α}
    (ho : Outset th.strand.fresh s.memory.size c next) :
    System.Ascends ⟨s.memory, s.threads.set t (th.onward client [] next)⟩ (L.opening next) := by
  have hw := (ho.grows hth.fresh_unused).within
  constructor
  · intro d k htook
    obtain ⟨r, hr⟩ := htook
    exact (ha.claimed d k ⟨r, ho.cell_of_opening hr⟩).mono hw
  · exact fun r k g hr => (ha.reserved r k g (ho.cell_of_opening hr)).mono hw
  · exact fun r k g hr => ha.waiting r k g (ho.cell_of_opening hr)
  · exact fun r k g hr => ha.givenBack r k g (ho.cell_of_opening hr)
  · intro t' th' r g ht' hg
    rcases Thread.mem_onward ht (List.nil_subset _) ht' hg with ⟨-, hg⟩ | ⟨th'', ht'', hg⟩
    · have hrole := ho.role_frames _ hg
      simp [Frame.role] at hrole
    · exact ha.ruling t' th'' r g ht'' hg

end

variable {client : Client σ α} {values : Array α} {states : List σ} {r : Run σ α} {L : Ledger α}

theorem Course.ascends (h : Course client values states r L) : r.system.Ascends L := by
  induction h with
  | new =>
    have hno {s : Stamp} {k : Nat} {g : Handoff α} :
        Ledger.ofValues values s ≠ some (.cell k (.reserved g)) := by
      intro hs
      obtain ⟨-, v, -, he⟩ := Ledger.plain_of_ofValues hs
      simp at he
    constructor
    · exact fun d k htook => absurd htook (Ledger.not_took_ofValues d k)
    · exact fun s k g hs => absurd hs hno
    · exact fun s k g hs => absurd hs hno
    · exact fun s k g hs => absurd hs hno
    · intro t th s g ht hg
      obtain ⟨state, -, rfl⟩ := System.thread_of_new ht
      exact absurd hg List.not_mem_nil
  | @start r L t th c move h hs ht hi hc ho ih => exact ih.start ht (hs.threads t th ht) ho
  | access h hs ht hf hc hd ih => exact ih.access hs ht hf hd

/-- A pending operation holds the slots below one that was claimed for it. -/
theorem System.Ascends.holds {s : System σ α} (ha : s.Ascends L) (hm : s.memory.Accords L)
    {d : Descriptor α} {k : Nat} (ht : L.Took d k) (hv : s.memory.verdict d.stamp = .pending)
    {w : Word α} (hw : w ∈ d.words) (hk : w.index ≤ k) : s.memory.Holds d w.index := by
  rcases Nat.lt_or_eq_of_le hk with hlt | rfl
  · exact hm.holds (ha.claimed d k ht w hw hlt) hv
  · exact hm.holds ht hv

end MultiSwap
