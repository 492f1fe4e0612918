import MultiSwap.Proofs.Tenure

/-! What a handoff guarantees. It stays in its slot until it is ruled on, leaves it once by a swap
that its verdict tells, and never comes back. The slot goes to the operation only if that was seen
pending while the handoff was there, and else gets back the very value that it held. Whoever settles
a handoff is told which of the two it was, and not before it is done. -/

namespace MultiSwap

variable {σ α : Type}

namespace Log

def Offered (log : Log α) (k : Nat) (ticket : Stamp) (g : Handoff α) : Prop :=
  ∃ t old, (t, .swapped k old true ⟨ticket, .reserved g⟩) ∈ log

def HandedOver (log : Log α) (k : Nat) (ticket : Stamp) (g : Handoff α) : Prop :=
  ∃ t s, (t, .swapped k ⟨ticket, .reserved g⟩ true ⟨s, .claimed g.operation⟩) ∈ log

end Log

variable [BEq α]

/-- What holds of the handoff `g` that was put into slot `k`. What is told of steps is told of the
next one of any thread. -/
structure Run.Honours (client : Client σ α) (r : Run σ α) (k : Nat) (ticket : Stamp)
    (g : Handoff α) : Prop where
  displaced : ∀ t old, (t, .swapped k old true ⟨ticket, .reserved g⟩) ∈ r.history →
    old.content = .plain g.kept
  stays : r.system.memory.verdict ticket = .pending →
    r.system.memory.slots[k]? = some ⟨ticket, .reserved g⟩
  once : r.history.countP (fun x => x.2.withdraws ticket) ≤ 1
  gone : (∃ x ∈ r.history, x.2.withdraws ticket = true) → r.system.memory.Lacks ticket
  leaves : ∀ t j old now, .swapped j old true now ∈ (r.system.step client t).2 →
    old.stamp = ticket → j = k ∧ old.content = .reserved g ∧
      (r.system.memory.verdict ticket = .commit ∧ now.content = .claimed g.operation ∧
          r.system.memory.verdict g.operation.stamp ≠ .commit ∧
            (∀ x ∈ r.history, x.2.installs g.operation k = false) ∨
        r.system.memory.verdict ticket = .abort ∧ now.content = .plain g.kept)
  refused : ∀ t now, .decided ticket .abort true now ∈ (r.system.step client t).2 →
    r.system.memory.verdict g.operation.stamp ≠ .pending
  answers : ∀ t f res, .closed f res ∈ (r.system.step client t).2 →
    (∃ g', f.role = .settling ticket g') →
      (∃ x ∈ (r.step client t).history, x.2.withdraws ticket = true) ∧
        (r.step client t).system.memory.Lacks ticket ∧
          ∃ b, res = .flag b ∧ (b = true ↔ (r.step client t).history.HandedOver k ticket g)

/-- At some time of the run by `ts`, the handoff had been put into its slot and its operation was
pending. -/
def Run.SeenPending (client : Client σ α) (start : Run σ α) (ts : List Nat) (k : Nat)
    (ticket : Stamp) (g : Handoff α) : Prop :=
  ∃ us, us <+: ts ∧ (start.steps client us).history.Offered k ticket g ∧
    (start.steps client us).system.memory.verdict g.operation.stamp = .pending

/-- `P` holds of the handoffs that went through, and of those that are about to. -/
structure System.Weighed (P : Stamp → Handoff α → Prop) (s : System σ α) (L : Ledger α) :
    Prop where
  ruling : ∀ (t : Nat) th r g, s.threads[t]? = some th → .rule r g .commit ∈ th.strand.stack →
    P r g
  ruled : ∀ r k g, L r = some (.cell k (.reserved g)) → s.memory.verdict r = .commit → P r g

section

variable {L : Ledger α} {m m' : Memory α} {fresh : Stamp} {e : Event α}

theorem Effect.withdrawal (h : Effect L m fresh e m') {k : Nat} {ticket : Stamp} {g : Handoff α}
    {now : Cell α} (he : e = .swapped k ⟨ticket, .reserved g⟩ true now) :
    m.verdict ticket = .commit ∧ now.content = .claimed g.operation ∨
      m.verdict ticket = .abort ∧ now.content = .plain g.kept := by
  obtain ⟨-, -, hx⟩ := h.slot_of_swapped he
  generalize now.content = new at hx
  cases hx with
  | handover hv => exact Or.inl ⟨hv, rfl⟩
  | giveBack hv => exact Or.inr ⟨hv, rfl⟩

theorem Frame.Sound.reserved {f : Frame α} {owner : Nat} (hf : f.Sound L m owner) {ticket : Stamp}
    {g : Handoff α} (hr : f.role = .settling ticket g) :
    L ticket = some (.cell g.slot (.reserved g)) := by
  cases f <;> simp only [role, Role.settling.injEq, reduceCtorEq] at hr
  all_goals obtain ⟨rfl, rfl⟩ := hr
  case settle => exact hf
  case weigh => exact hf
  case rule => exact hf.1
  case release => exact hf.1
  case releaseOver => exact hf.1

theorem Deed.settles {f : Frame α} {move : Move α} (h : Deed m fresh f e m' move)
    (hf : f.Sound L m fresh.owner) {ticket : Stamp} {g : Handoff α}
    (hr : f.role = .settling ticket g) {res : Result α} (hdone : move.next = .done res) :
    m'.verdict ticket ≠ .pending ∧ res = .flag (m'.verdict ticket == .commit) := by
  cases h with
  | releaseGone hc hd | releaseWon hc hs | releaseLost hc hs =>
    cases hr
    cases hdone
    obtain ⟨-, hp, hv⟩ := hf
    rw [← hv] at hp
    exact ⟨hp, congrArg (fun v => Result.flag (v == .commit)) hv.symm⟩
  | settleOpen | settleSettled | weighOpen | weighSettled | ruleWon | ruleLost | releaseHeld =>
    cases hdone
  | helps hw hc hg hd => cases hdone
  | _ => cases hr

end

section

variable {client : Client σ α} {s : System σ α} {L : Ledger α} {t : Nat}

theorem System.Sound.access_of_wins (h : s.Sound client L) {e : Event α}
    (he : e ∈ (s.step client t).2) (hw : e.wins = true) :
    ∃ th f below m' move, s.threads[t]? = some th ∧ th.strand.stack = f :: below ∧
      Deed s.memory th.strand.fresh f e m' move := by
  cases h.origin he with
  | @start th c ht hi hc he =>
    have hq := Move.quiet_ofStart _ c t (t, e) (List.mem_map_of_mem he)
    rw [hq] at hw
    simp at hw
  | access ht hf hd hm hl he =>
    rcases List.mem_cons.1 he with rfl | he
    · exact ⟨_, _, _, _, _, ht, hf, hd⟩
    · rw [Move.quiet_sequel he] at hw
      simp at hw

theorem System.Sound.access_of_closed (h : s.Sound client L) {f : Frame α} {res : Result α}
    (he : .closed f res ∈ (s.step client t).2) :
    ∃ th below e m' move, s.threads[t]? = some th ∧ th.strand.stack = f :: below ∧
      Deed s.memory th.strand.fresh f e m' move ∧ move.next = .done res ∧
        (s.step client t).1.memory = m' := by
  cases h.origin he with
  | start ht hi hc he =>
    rcases List.mem_cons.1 he with he | he
    · cases he
    · rcases Move.mem_prelude.1 he with ⟨n, -, he⟩ | ⟨_, -, he⟩ <;> cases he
  | access ht hf hd hm hl he =>
    rcases List.mem_cons.1 he with rfl | he
    · exact absurd hd.isAccess (by simp [Event.isAccess])
    · rcases Move.mem_sequel.1 he with ⟨n, -, he⟩ | ⟨_, hdone, he⟩ | ⟨_, -, he⟩ <;> cases he
      exact ⟨_, _, _, _, _, ht, hf, hd, hdone, hm⟩

end

namespace Course

variable {client : Client σ α} {values : Array α} {states : List σ} {r : Run σ α} {L : Ledger α}
  {k : Nat} {ticket : Stamp} {g : Handoff α}

theorem offered (h : Course client values states r L)
    (hl : L ticket = some (.cell k (.reserved g))) : r.history.Offered k ticket g := by
  obtain ⟨t, s, he⟩ := (h.chronicle.origin ticket k _ hl).reserved
  exact ⟨t, _, he⟩

theorem known_of_offered (h : Course client values states r L)
    (ho : r.history.Offered k ticket g) : L ticket = some (.cell k (.reserved g)) := by
  obtain ⟨t, old, he⟩ := ho
  exact (h.chronicle.swapped t k old _ he).2

theorem displaced (h : Course client values states r L) {t : Nat} {old : Cell α}
    (he : (t, .swapped k old true ⟨ticket, .reserved g⟩) ∈ r.history) :
    old.content = .plain g.kept := by
  obtain ⟨r₀, L₀, fresh, m', h₀, heff, -⟩ := h.exists_effect he rfl
  obtain ⟨-, -, hx⟩ := heff.slot_of_swapped rfl
  cases hx
  rfl

theorem withdrawal (h : Course client values states r L)
    (hl : L ticket = some (.cell k (.reserved g))) {t j : Nat} {old now : Cell α}
    (he : (t, .swapped j old true now) ∈ r.history) (hs : old.stamp = ticket) :
    j = k ∧ old = ⟨ticket, .reserved g⟩ ∧
      (r.system.memory.verdict ticket = .commit ∧ now.content = .claimed g.operation ∨
        r.system.memory.verdict ticket = .abort ∧ now.content = .plain g.kept) := by
  obtain ⟨s, x⟩ := old
  obtain rfl : ticket = s := hs.symm
  have hold := (h.chronicle.swapped t j _ now he).1
  rw [hl] at hold
  cases hold
  obtain ⟨r₀, L₀, fresh, m', -, heff, hg⟩ := h.exists_effect he rfl
  have hkept {v : Verdict} (hv : r₀.system.memory.verdict ticket = v) (hp : v ≠ .pending) :
      r.system.memory.verdict ticket = v := by
    have hv' : m'.verdict ticket = v := by rw [heff.settled_of_settled (by rwa [hv]), hv]
    rw [hg.settled ticket (by rwa [hv']), hv']
  refine ⟨rfl, rfl, (heff.withdrawal rfl).imp ?_ ?_⟩
  · exact fun hc => ⟨hkept hc.1 (by simp), hc.2⟩
  · exact fun ha => ⟨hkept ha.1 (by simp), ha.2⟩

theorem commit_iff_handedOver (h : Course client values states r L)
    (hl : L ticket = some (.cell k (.reserved g)))
    (hgone : ∃ x ∈ r.history, x.2.withdraws ticket = true) :
    r.system.memory.verdict ticket = .commit ↔ r.history.HandedOver k ticket g := by
  constructor
  · intro hcommit
    obtain ⟨⟨t, e⟩, hx, hw⟩ := hgone
    obtain ⟨j, old, ⟨s, x⟩, rfl, hstamp⟩ := Event.withdraws_iff.1 hw
    obtain ⟨rfl, rfl, ⟨-, rfl⟩ | ⟨habort, -⟩⟩ := h.withdrawal hl hx hstamp
    · exact ⟨t, s, hx⟩
    · rw [hcommit] at habort
      cases habort
  · rintro ⟨t, s, hx⟩
    obtain ⟨-, -, ⟨hcommit, -⟩ | ⟨-, hplain⟩⟩ := h.withdrawal hl hx rfl
    · exact hcommit
    · simp at hplain

theorem fresh_of_commit (h : Course client values states r L)
    (hk : r.system.memory.slots[k]? = some ⟨ticket, .reserved g⟩)
    (hv : r.system.memory.verdict ticket = .commit) :
    r.system.memory.verdict g.operation.stamp ≠ .commit ∧
      ∀ x ∈ r.history, x.2.installs g.operation k = false := by
  have hm := h.sound.accords
  obtain ⟨hslot, ho, -⟩ := hm.formed.reserved (hm.cells _ _ hk)
  obtain ⟨hn, hcommit⟩ := hm.timely k ticket g hk hv
  refine ⟨hcommit, fun x hx => ?_⟩
  rw [← Bool.not_eq_true]
  intro hi
  obtain ⟨d, hd, ht⟩ := h.chronicle.took_of_installs hx hi
  obtain rfl : d = g.operation := hm.formed.eq_of_stamp (hm.formed.opened_of_took ht) ho hd
  exact hn (hslot ▸ ht)

theorem honours (h : Course client values states r L) (ho : r.history.Offered k ticket g) :
    r.Honours client k ticket g := by
  have hs := h.sound
  have hm := hs.accords
  have hl := h.known_of_offered ho
  obtain ⟨hslot, -⟩ := hm.formed.reserved hl
  constructor
  · exact fun t old he => h.displaced he
  · exact h.ascends.waiting ticket k g hl
  · exact h.withdrawn_once ticket
  · exact fun hx => hx.elim fun x hx => h.lacks hx.1 hx.2
  · intro t j old now he hstamp
    obtain ⟨th, f, below, m', move, ht, hf, hd⟩ := hs.access_of_wins he rfl
    have heff := hd.effect hm ((hs.threads t th ht).sound_top hf)
    obtain ⟨hold, -⟩ := heff.slot_of_swapped rfl
    obtain ⟨rfl, rfl⟩ := hm.cell_eq hold hl hstamp
    refine ⟨rfl, rfl, (heff.withdrawal rfl).imp_left fun hc => ?_⟩
    exact ⟨hc.1, hc.2, h.fresh_of_commit hold hc.1⟩
  · intro t now he
    obtain ⟨th, f, below, m', move, ht, hf, hd⟩ := hs.access_of_wins he rfl
    have hsound := (hs.threads t th ht).sound_top hf
    rcases hd.proposes rfl with ⟨d, rfl, rfl⟩ | ⟨g', rfl⟩
    · have hknown := hm.formed.known (hsound.opened rfl)
      rw [hl] at hknown
      simp at hknown
    · have hl' := hsound.1
      rw [hl] at hl'
      cases hl'
      exact h.ascends.ruling t th ticket g ht (by simp [hf])
  · intro t f res he hr
    obtain ⟨g', hr⟩ := hr
    obtain ⟨th, below, e, m', move, ht, hf, hd, hdone, rfl⟩ := hs.access_of_closed he
    have hth := hs.threads t th ht
    have hsound := hth.sound_top hf
    have hl' := hsound.reserved hr
    rw [hl] at hl'
    cases hl'
    obtain ⟨-, hres⟩ := hd.settles hsound hr hdone
    obtain ⟨L', h', hg⟩ := h.step_grows t
    have hl' := hg.within _ _ hl
    have hgone : ∃ x ∈ (r.step client t).history, x.2.withdraws ticket = true := by
      refine (h'.tenure hl').resolve_left fun hk => ?_
      obtain ⟨a, ha, -⟩ := hd.tends hth.fresh_unused hsound hr hk
      rw [hdone] at ha
      exact absurd ha List.not_mem_nil
    have hlacks := hgone.elim fun x hx => h'.lacks hx.1 hx.2
    exact ⟨hgone, hlacks, _, hres, beq_iff_eq.trans (h'.commit_iff_handedOver hl' hgone)⟩

end Course

section

variable {client : Client σ α} {s : System σ α} {L : Ledger α} {t : Nat} {th : Thread σ α}
  {P Q : Stamp → Handoff α → Prop}

omit [BEq α] in
theorem System.Weighed.mono (h : s.Weighed P L) (hpq : ∀ r g, P r g → Q r g) : s.Weighed Q L :=
  ⟨fun t th r g ht hg => hpq r g (h.ruling t th r g ht hg),
    fun r k g hl hv => hpq r g (h.ruled r k g hl hv)⟩

theorem System.Weighed.start (h : s.Weighed P L) (ht : s.threads[t]? = some th) {c : Call α}
    {next : Next α} (ho : Outset th.strand.fresh s.memory.size c next) :
    System.Weighed P ⟨s.memory, s.threads.set t (th.onward client [] next)⟩ (L.opening next) := by
  refine ⟨fun t' th' r g ht' hg => ?_, fun r k g hl => h.ruled r k g (ho.cell_of_opening hl)⟩
  rcases Thread.mem_onward ht (List.nil_subset _) ht' hg with ⟨-, hg⟩ | ⟨th'', ht'', hg⟩
  · have hrole := ho.role_frames _ hg
    simp [Frame.role] at hrole
  · exact h.ruling t' th'' r g ht'' hg

/-- A handoff goes through only if somebody who settles it saw its operation pending. -/
theorem System.Weighed.access (h : s.Weighed P L) (hs : s.Sound client L)
    (hP : ∀ r g, L r = some (.cell g.slot (.reserved g)) →
      s.memory.verdict g.operation.stamp = .pending → P r g)
    (ht : s.threads[t]? = some th) {f : Frame α} {below : List (Frame α)}
    (hf : th.strand.stack = f :: below) {m' : Memory α} {e : Event α} {move : Move α}
    (hd : Deed s.memory th.strand.fresh f e m' move) :
    System.Weighed P ⟨m', s.threads.set t (th.onward client below move.next)⟩ (L.after e) := by
  have hth := hs.threads t th ht
  have hsound := hth.sound_top hf
  have heff := hd.effect hs.accords hsound
  constructor
  · intro t' th' r g ht' hg
    rcases Thread.mem_onward ht (by simp [hf]) ht' hg with ⟨-, hg⟩ | ⟨th'', ht'', hg⟩
    · obtain ⟨-, hv⟩ := (hd.weighs hg).resolve_left (by simp)
      have hnext := (hd.sound_next hs.accords hsound hth.fresh_unused).frames _ hg
      rcases Ledger.after_cases hnext.1 with hl | ⟨old, he⟩
      · exact hP r g hl hv
      · obtain ⟨-, word, rest, -, -, hmove⟩ := hd.offers hsound he
        rw [hmove] at hg
        simp [Next.frames] at hg
    · exact h.ruling t' th'' r g ht'' hg
  · intro r k g hl hv
    rcases Ledger.after_cases hl with hl' | ⟨old, he⟩
    · rcases heff.verdict_cases r with hsame | ⟨-, he⟩
      · exact h.ruled r k g hl' (hsame.symm.trans hv)
      · rw [hv] at he
        rcases hd.proposes he with ⟨d, rfl, rfl⟩ | ⟨g', rfl⟩
        · have hknown := hs.accords.formed.known (hsound.opened rfl)
          rw [hl'] at hknown
          simp at hknown
        · have hl'' := hsound.1
          rw [hl'] at hl''
          cases hl''
          exact h.ruling t th r g ht (by simp [hf])
    · -- a handoff that was just put into its slot is not ruled on yet
      obtain ⟨rfl, -⟩ := hd.offers hsound he
      have hunknown := hs.accords.unknown _ hth.fresh_unused
      rcases heff.verdict_cases th.strand.fresh with hsame | ⟨-, he'⟩
      · rw [hsame, hunknown] at hv
        simp at hv
      · rw [he] at he'
        simp at he'

end

theorem Run.exists_weighed (client : Client σ α) (values : Array α) (states : List σ)
    (ts : List Nat) :
    let start := Run.new (.ofValues values) states
    ∃ L, Course client values states (start.steps client ts) L ∧
      (start.steps client ts).system.Weighed
        (fun ticket g => Run.SeenPending client start ts g.slot ticket g) L := by
  intro start
  induction ts using List.reverseRecOn with
  | nil =>
    refine ⟨_, .new, fun t th r g ht hg => ?_, fun r k g hl => ?_⟩
    · obtain ⟨state, -, rfl⟩ := System.thread_of_new ht
      exact absurd hg List.not_mem_nil
    · obtain ⟨-, v, -, he⟩ := Ledger.plain_of_ofValues hl
      simp at he
  | append_singleton ts t ih =>
    obtain ⟨L, h, hw⟩ := ih
    have hlater (ticket : Stamp) (g : Handoff α)
        (hp : SeenPending client start ts g.slot ticket g) :
        SeenPending client start (ts ++ [t]) g.slot ticket g := by
      obtain ⟨us, hus, hp⟩ := hp
      exact ⟨us, hus.trans (List.prefix_append _ _), hp⟩
    have hnow (ticket : Stamp) (g : Handoff α) (hl : L ticket = some (.cell g.slot (.reserved g)))
        (hv : (start.steps client ts).system.memory.verdict g.operation.stamp = .pending) :
        SeenPending client start (ts ++ [t]) g.slot ticket g :=
      ⟨ts, List.prefix_append _ _, h.offered hl, hv⟩
    have hs := h.sound
    have hstride := hs.stride t
    rw [steps_append]
    generalize hr : start.steps client ts = r at *
    rw [show r.steps client [t] = r.onward t (r.system.step client t) from rfl]
    generalize r.system.step client t = step at hstride ⊢
    cases hstride with
    | rest hn =>
      refine ⟨L, ?_, hw.mono hlater⟩
      rwa [onward, List.map_nil, Array.appendList_nil]
    | start ht hi hc ho => exact ⟨_, h.start hs ht hi hc ho, (hw.mono hlater).start ht ho⟩
    | access ht hf hc hd =>
      exact ⟨_, h.access hs ht hf hc hd, (hw.mono hlater).access hs hnow ht hf hd⟩

/-- In every run, each handoff that was put into a slot is honoured, and it goes through only if its
operation was pending at some time since then. -/
theorem Run.handoffs_honoured (client : Client σ α) (values : Array α) (states : List σ)
    (ts : List Nat) (k : Nat) (ticket : Stamp) (g : Handoff α) :
    let start := Run.new (.ofValues values) states
    let r := start.steps client ts
    r.history.Offered k ticket g → r.Honours client k ticket g ∧
      (r.system.memory.verdict ticket = .commit →
        Run.SeenPending client start ts k ticket g) := by
  intro start r ho
  obtain ⟨L, h, hw⟩ := exists_weighed client values states ts
  have hl := h.known_of_offered ho
  refine ⟨h.honours ho, fun hv => ?_⟩
  rw [← (h.sound.accords.formed.reserved hl).1]
  exact hw.ruled ticket k g hl hv

/-- A handoff of slot 1 that is ruled to go through and about to be replaced. -/
theorem Run.handoffs_honoured_dcas :
    let start := Run.new (.ofValues #[0, 5]) [[.dcas 0 0 1 1 5 6]]
    let r := start.steps .script (List.replicate 10 0)
    let g : Handoff Nat := ⟨⟨⟨1, 0⟩, ⟨0, 0, 1⟩, [⟨1, 5, 6⟩]⟩, 1, 5⟩
    r.history.Offered 1 ⟨1, 6⟩ g ∧ r.Honours .script 1 ⟨1, 6⟩ g ∧
      r.system.memory.verdict ⟨1, 6⟩ = .commit ∧
        Run.SeenPending .script start (List.replicate 10 0) 1 ⟨1, 6⟩ g := by
  intro start r g
  have he : r.history[9]? =
      some (0, .swapped 1 ⟨⟨0, 1⟩, .plain 5⟩ true ⟨⟨1, 6⟩, .reserved g⟩) := by
    unfold r start g
    cbv
  have hv : r.system.memory.verdict ⟨1, 6⟩ = .commit := by decide +kernel
  have ho : r.history.Offered 1 ⟨1, 6⟩ g := ⟨0, _, List.mem_of_getElem? he⟩
  obtain ⟨hhonours, hseen⟩ := Run.handoffs_honoured .script #[0, 5] [[.dcas 0 0 1 1 5 6]]
    (List.replicate 10 0) 1 ⟨1, 6⟩ g ho
  exact ⟨ho, hhonours, hv, hseen hv⟩

end MultiSwap
