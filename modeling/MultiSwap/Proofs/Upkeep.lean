import MultiSwap.Proofs.Operations

/-! Who answers for what is in the slots. The thread of an operation stays at work on it until it is
decided and its slots are clear of it. A claim or a handoff in any slot is minded by a thread that
has yet to look at the slot. So nothing but plain values is left once all threads are idle. -/

namespace MultiSwap

variable {σ α : Type}

/-- The call of thread `t` is at work on `d`. -/
def System.Attends (s : System σ α) (t : Nat) (d : Descriptor α) : Prop :=
  ∃ th f, s.threads[t]? = some th ∧ th.strand.stack.getLast? = some f ∧ f.role = .driving d

theorem System.Attends.getLast {s : System σ α} {t : Nat} {d : Descriptor α} (h : s.Attends t d)
    {th : Thread σ α} (ht : s.threads[t]? = some th) :
    ∃ f, th.strand.stack.getLast? = some f ∧ f.role = .driving d := by
  obtain ⟨th', f, ht', hf, hr⟩ := h
  rw [ht] at ht'
  cases ht'
  exact ⟨f, hf, hr⟩

theorem System.Attends.of_ne {s : System σ α} {m' : Memory α} {t t' : Nat} {th' : Thread σ α}
    {d : Descriptor α} (he : t ≠ t') :
    System.Attends ⟨m', s.threads.set t th'⟩ t' d ↔ s.Attends t' d := by
  unfold Attends
  simp only [List.getElem?_set_ne he]

/-- The frame will look at slot `k` before it is done with `d`. -/
def Frame.Minds (d : Descriptor α) (k : Nat) : Frame α → Prop
  | drive d' | check d' _ _ | claim d' _ _ | offer d' _ _ _ _ | conclude d' _ =>
    d' = d ∧ ∃ w ∈ d.words, w.index = k
  | clear d' _ word rest | clearOver d' _ word rest _ =>
    d' = d ∧ ∃ w ∈ word :: rest, w.index = k
  | _ => False

def System.Minds (s : System σ α) (owner : Nat) (d : Descriptor α) (k : Nat) : Prop :=
  ∃ t th f, owner = t + 1 ∧ s.threads[t]? = some th ∧ f ∈ th.strand.stack ∧ f.Minds d k

/-- The thread that made a handoff is settling it, and minds its slot afterwards. -/
def System.Tends (s : System σ α) (ticket : Stamp) (g : Handoff α) : Prop :=
  ∃ t th a f, ticket.owner = t + 1 ∧ s.threads[t]? = some th ∧ [a, f].Sublist th.strand.stack ∧
    a.role = .settling ticket g ∧ f.Minds g.operation g.slot

theorem Frame.minds_claimFrom {d : Descriptor α} {w : Word α} (hw : w ∈ d.words)
    (ws : List (Word α)) : (Frame.claimFrom d ws).Minds d w.index := by
  cases ws <;> exact ⟨rfl, w, hw, rfl⟩

theorem Frame.minds_clearFrom {d : Descriptor α} {w : Word α} (takesEffect : Bool)
    {ws : List (Word α)} (hw : w ∈ ws) :
    ∃ g ∈ (Frame.clearFrom d takesEffect ws).frames, g.Minds d w.index := by
  cases ws with
  | nil => simp at hw
  | cons v rest => exact ⟨_, List.mem_singleton_self _, rfl, w, hw, rfl⟩

theorem Frame.minds_clearing {d : Descriptor α} {w : Word α} (hw : w ∈ d.words) (v : Verdict) :
    ∃ g ∈ (Frame.clearing d v).next.frames, g.Minds d w.index := by
  cases v with
  | commit => exact minds_clearFrom true hw
  | pending => exact minds_clearFrom false (List.mem_reverse.2 hw)
  | abort => exact minds_clearFrom false (List.mem_reverse.2 hw)

theorem Frame.minds_waits {f after : Frame α} {j : Nat} (h : f.waits = some (j, after))
    {d : Descriptor α} {k : Nat} (hf : f.Minds d k) : after.Minds d k := by
  cases f <;> simp only [waits, Option.some.injEq, Prod.mk.injEq, reduceCtorEq] at h
  all_goals
    obtain ⟨-, rfl⟩ := h
    exact hf

variable [BEq α]

namespace Deed

variable {L : Ledger α} {m m' : Memory α} {fresh : Stamp} {f : Frame α} {e : Event α}
  {move : Move α}

theorem minds (h : Deed m fresh f e m' move) (hm : m.Accords L) (hf : f.Sound L m fresh.owner)
    {d : Descriptor α} {k : Nat} (hd : f.Minds d k) (hh : m'.Holds d k) :
    ∃ g ∈ move.next.frames, g.Minds d k := by
  have hone {g : Frame α} (hg : g.Minds d k) : ∃ g' ∈ [g], g'.Minds d k :=
    ⟨g, List.mem_singleton_self g, hg⟩
  -- the words that are left to clear, if the first of them is not in its slot any more
  have hrest {word : Word α} {rest : List (Word α)} {takesEffect : Bool}
      (hk : ∃ w ∈ word :: rest, w.index = k) (hn : ¬ m'.Holds d word.index) :
      ∃ g ∈ (Frame.clearFrom d takesEffect rest).frames, g.Minds d k := by
    obtain ⟨w, hw, rfl⟩ := hk
    rcases List.mem_cons.1 hw with rfl | hw
    · exact absurd hh hn
    · exact Frame.minds_clearFrom takesEffect hw
  cases h with
  | helps hw hc hg hd' => exact ⟨_, by simp [Next.frames], Frame.minds_waits hw hd⟩
  | driveOpen hv =>
    obtain ⟨rfl, w, hw, rfl⟩ := hd
    exact hone (Frame.minds_claimFrom hw _)
  | driveSettled hv hp =>
    obtain ⟨rfl, w, hw, rfl⟩ := hd
    exact Frame.minds_clearing hw _
  | checkOpen hv => exact hone hd
  | checkSettled hv hp => exact hone hd
  | claimHeld hc hd' =>
    obtain ⟨rfl, w, hw, rfl⟩ := hd
    exact hone (Frame.minds_claimFrom hw _)
  | claimReady hc hv he => exact hone hd
  | claimRefused hc hv he => exact hone hd
  | offerWon hc hs => exact ⟨_, List.mem_cons_of_mem _ (List.mem_singleton_self _), hd⟩
  | offerLost hc hs => exact hone hd
  | concludeWon hv =>
    obtain ⟨rfl, w, hw, rfl⟩ := hd
    exact Frame.minds_clearing hw _
  | concludeLost hv hp =>
    obtain ⟨rfl, w, hw, rfl⟩ := hd
    exact Frame.minds_clearing hw _
  | clearHeld hc hd' => exact hone hd
  | clearGone hc hd' =>
    obtain ⟨rfl, hk⟩ := hd
    exact hrest hk (hm.not_holds_of_gone hf.1 hc hd')
  | clearWon hc hs =>
    obtain ⟨rfl, hk⟩ := hd
    apply hrest hk
    intro hh
    obtain ⟨s, hslot⟩ := hh
    rw [Memory.slot_place_self (Memory.lt_of_slot hc)] at hslot
    simp at hslot
  | clearLost hc hs =>
    obtain ⟨rfl, hk⟩ := hd
    exact hrest hk (hm.not_holds_of_lost hc hf.2 hs)
  | _ => exact absurd hd not_false

theorem tends (h : Deed m fresh f e m' move) (hs : L fresh = none)
    (hf : f.Sound L m fresh.owner) {r : Stamp} {g : Handoff α} (hr : f.role = .settling r g)
    (hk : m'.slots[g.slot]? = some ⟨r, .reserved g⟩) :
    ∃ a ∈ move.next.frames, a.role = .settling r g := by
  have hone {a : Frame α} (ha : a.role = .settling r g) : ∃ a' ∈ [a], a'.role = .settling r g :=
    ⟨a, List.mem_singleton_self a, ha⟩
  cases h with
  | helps hw hc hg hd => exact ⟨_, by simp [Next.frames], (role_waits hw).trans hr⟩
  | settleOpen hv => exact hone hr
  | settleSettled hv hp => exact hone hr
  | weighOpen hv => exact hone hr
  | weighSettled hv hp => exact hone hr
  | ruleWon hv => exact hone hr
  | ruleLost hv hp => exact hone hr
  | releaseHeld hc hd => exact hone hr
  | releaseGone hc hd =>
    cases hr
    rw [hc] at hk
    cases hk
    simp [Cell.isHandoff] at hd
  | releaseWon hc hc' =>
    cases hr
    rw [Memory.slot_place_self (Memory.lt_of_slot hc)] at hk
    have hstamp : fresh = r := congrArg Cell.stamp (Option.some.inj hk)
    have hl := hf.1
    rw [← hstamp, hs] at hl
    simp at hl
  | releaseLost hc hc' =>
    cases hr
    rw [hc] at hk
    cases hk
    exact absurd rfl hc'
  | _ => simp [Frame.role] at hr

/-- A claim is put into a slot by the call that made the operation, or from a handoff. -/
theorem brings (h : Deed m fresh f e m' move) (hm : m.Accords L)
    (hf : f.Sound L m fresh.owner) {k : Nat} {old : Cell α} {s : Stamp} {d : Descriptor α}
    (he : e = .swapped k old true ⟨s, .claimed d⟩) :
    (k = d.first.index ∧ d.stamp.owner = fresh.owner ∧ f.role = .own ∧
      move.next = .goto (.drive d)) ∨
        ∃ r g, old = ⟨r, .reserved g⟩ ∧ g.operation = d ∧ m.verdict r = .commit := by
  cases h with
  | casWon hc hs =>
    obtain ⟨-, hi, -⟩ := hf
    cases hi
    cases he
  | opened hc hs =>
    obtain ⟨-, hi, -⟩ := hf
    cases hi with
    | claim hd ho hown =>
      cases he
      exact Or.inl ⟨rfl, hown, rfl, rfl⟩
  | @releaseWon r g v c hc hs =>
    obtain ⟨hl, hp, hv⟩ := hf
    cases v with
    | pending => exact absurd rfl hp
    | commit =>
      cases he
      exact Or.inr ⟨r, g, (hm.cell_eq hc hl hs).2, rfl, hv⟩
    | abort => cases he
  | _ => cases he

theorem offers (h : Deed m fresh f e m' move) (hf : f.Sound L m fresh.owner) {k : Nat}
    {old : Cell α} {s : Stamp} {g : Handoff α}
    (he : e = .swapped k old true ⟨s, .reserved g⟩) :
    s = fresh ∧ ∃ word rest, L.Reached g.operation (word :: rest) ∧ word.index = g.slot ∧
      move.next = .call (.settle s g) (.check g.operation word rest) := by
  cases h with
  | casWon hc hs =>
    obtain ⟨-, hi, -⟩ := hf
    cases hi
    cases he
  | opened hc hs =>
    obtain ⟨-, hi, -⟩ := hf
    cases hi
    cases he
  | offerWon hc hs =>
    cases he
    exact ⟨rfl, _, _, hf.1, rfl, rfl⟩
  | @releaseWon r g v c hc hs => cases v <;> cases he
  | _ => cases he

end Deed

theorem Effect.slot_cases {L : Ledger α} {m m' : Memory α} {fresh : Stamp} {e : Event α}
    (h : Effect L m fresh e m') {k : Nat} {c : Cell α} (hc : m'.slots[k]? = some c) :
    m.slots[k]? = some c ∨ c.stamp = fresh ∧ ∃ old, e = .swapped k old true c ∧
      m.slots[k]? = some old := by
  cases h with
  | quiet => exact Or.inl hc
  | @placed j old new hold hx =>
    by_cases he : k = j
    · subst he
      rw [Memory.slot_place_self (Memory.lt_of_slot hold)] at hc
      cases hc
      exact Or.inr ⟨rfl, old, rfl, hold⟩
    · rw [Memory.slot_place_of_ne he] at hc
      exact Or.inl hc
  | decided => exact Or.inl (by rwa [Memory.slots_propose] at hc)
  | ruled => exact Or.inl (by rwa [Memory.slots_propose] at hc)

/-- Whose call brought `d` into slot `k`: the one that made it, or one that offered a handoff. -/
def Ledger.Brought (L : Ledger α) (m : Memory α) (owner : Nat) (d : Descriptor α) (k : Nat) :
    Prop :=
  owner = d.stamp.owner ∧ k = d.first.index ∨
    ∃ r g, L r = some (.cell k (.reserved g)) ∧ g.operation = d ∧ m.verdict r = .commit ∧
      owner = r.owner

structure System.Upkept (s : System σ α) (L : Ledger α) : Prop where
  claimed : ∀ (k : Nat) c d, s.memory.slots[k]? = some ⟨c, .claimed d⟩ →
    ∃ owner, L.Brought s.memory owner d k ∧ s.Minds owner d k
  reserved : ∀ (k : Nat) r g, s.memory.slots[k]? = some ⟨r, .reserved g⟩ → s.Tends r g

section

variable {client : Client σ α} {s : System σ α} {L L' : Ledger α} {t : Nat} {th : Thread σ α}
  {f : Frame α} {below : List (Frame α)} {m' : Memory α} {e : Event α} {move : Move α}

omit [BEq α] in
theorem Ledger.Brought.mono {m m' : Memory α} (hg : Grows L L' m m')
    {owner : Nat} {d : Descriptor α} {k : Nat} (h : L.Brought m owner d k) :
    L'.Brought m' owner d k := by
  rcases h with h | ⟨r, g, hr, hd, hv, ho⟩
  · exact Or.inl h
  · exact Or.inr ⟨r, g, hg.within _ _ hr, hd, by rw [hg.settled r (by simp [hv]), hv], ho⟩

omit [BEq α] in
theorem System.Tends.minds {r : Stamp} {g : Handoff α} (h : s.Tends r g) :
    s.Minds r.owner g.operation g.slot := by
  obtain ⟨t, th, a, f, ho, ht, hsub, -, hf⟩ := h
  exact ⟨t, th, f, ho, ht, hsub.subset (by simp), hf⟩

theorem System.Minds.access {owner : Nat} {d : Descriptor α} {k : Nat} (h : s.Minds owner d k)
    (hs : s.Sound client L) (ht : s.threads[t]? = some th) (hf : th.strand.stack = f :: below)
    (hd : Deed s.memory th.strand.fresh f e m' move) (hh : m'.Holds d k) :
    System.Minds ⟨m', s.threads.set t (th.onward client below move.next)⟩ owner d k := by
  obtain ⟨t', th', g, ho, ht', hg, hmind⟩ := h
  have hset := Thread.getElem?_set_self ht (th.onward client below move.next)
  by_cases he : t = t'
  · subst he
    rw [ht] at ht'
    cases ht'
    rw [hf] at hg
    rcases List.mem_cons.1 hg with rfl | hg
    · obtain ⟨g', hg', hmind'⟩ :=
        hd.minds hs.accords ((hs.threads t th ht).sound_top hf) hmind hh
      exact ⟨t, _, g', ho, hset, List.mem_append_left below hg', hmind'⟩
    · exact ⟨t, _, g, ho, hset, List.mem_append_right _ hg, hmind⟩
  · exact ⟨t', th', g, ho, by simpa [List.getElem?_set_ne he] using ht', hg, hmind⟩

theorem System.Tends.access {r : Stamp} {g : Handoff α} (h : s.Tends r g)
    (hs : s.Sound client L) (ht : s.threads[t]? = some th) (hf : th.strand.stack = f :: below)
    (hd : Deed s.memory th.strand.fresh f e m' move)
    (hk : m'.slots[g.slot]? = some ⟨r, .reserved g⟩) :
    System.Tends ⟨m', s.threads.set t (th.onward client below move.next)⟩ r g := by
  obtain ⟨t', th', a, b, ho, ht', hsub, ha, hmind⟩ := h
  have hset := Thread.getElem?_set_self ht (th.onward client below move.next)
  by_cases he : t = t'
  · subst he
    rw [ht] at ht'
    cases ht'
    have hth := hs.threads t th ht
    rw [hf] at hsub
    cases hsub with
    | cons _ hsub =>
      exact ⟨t, _, a, b, ho, hset, hsub.trans (List.sublist_append_right _ _), ha, hmind⟩
    | cons_cons _ hsub =>
      obtain ⟨a', ha', hrole⟩ := hd.tends hth.fresh_unused (hth.sound_top hf) ha hk
      refine ⟨t, _, a', b, ho, hset, ?_, hrole, hmind⟩
      exact (List.singleton_sublist.2 ha').append hsub
  · exact ⟨t', th', a, b, ho, by simpa [List.getElem?_set_ne he] using ht', hsub, ha, hmind⟩

theorem System.Upkept.access (hu : s.Upkept L) (hs : s.Sound client L)
    (ht : s.threads[t]? = some th) (hf : th.strand.stack = f :: below)
    (hd : Deed s.memory th.strand.fresh f e m' move) :
    System.Upkept ⟨m', s.threads.set t (th.onward client below move.next)⟩ (L.after e) := by
  have hth := hs.threads t th ht
  have hown : th.strand.fresh.owner = t + 1 := hth.owner
  have hsound := hth.sound_top hf
  have heff := hd.effect hs.accords hsound
  have hg := heff.grows hs.accords hth.fresh_unused
  have hset := Thread.getElem?_set_self ht (th.onward client below move.next)
  constructor
  · intro k c d hk
    rcases heff.slot_cases hk with hk' | ⟨-, old, he, hold⟩
    · obtain ⟨owner, hb, hmind⟩ := hu.claimed k c d hk'
      exact ⟨owner, hb.mono hg, hmind.access hs ht hf hd ⟨c, hk⟩⟩
    · rcases hd.brings hs.accords hsound he with ⟨hfirst, hd', -, hnext⟩ | ⟨r, g, rfl, rfl, hv⟩
      · refine ⟨t + 1, Or.inl ⟨hown.symm.trans hd'.symm, hfirst⟩, t, _, .drive d, rfl, hset, ?_, ?_⟩
        · simp [Thread.onward, Strand.advance, hnext, Next.frames]
        · exact ⟨rfl, d.first, d.first_mem, hfirst.symm⟩
      · have hl := hs.accords.cells k _ hold
        have hslot := (hs.accords.formed.reserved hl).1
        have hmind := (hu.reserved k r g hold).minds
        rw [hslot] at hmind
        refine ⟨r.owner, Or.inr ⟨r, g, hg.within _ _ hl, rfl, ?_, rfl⟩, ?_⟩
        · rw [hg.settled r (by simp [hv]), hv]
        · exact hmind.access hs ht hf hd ⟨c, hk⟩
  · intro k r g hk
    rcases heff.slot_cases hk with hk' | ⟨-, old, he, -⟩
    · have hslot := (hs.accords.formed.reserved (hs.accords.cells k _ hk')).1
      exact (hu.reserved k r g hk').access hs ht hf hd (hslot ▸ hk)
    · obtain ⟨rfl, word, rest, hr, hk', hnext⟩ := hd.offers hsound he
      refine ⟨t, _, .settle _ g, .check g.operation word rest, hown, hset, ?_, rfl, rfl, word,
        Descriptor.mem_of_others hr.mem, hk'⟩
      simp [Thread.onward, Strand.advance, hnext, Next.frames]

omit [BEq α] in
theorem System.thread_of_start (ht : s.threads[t]? = some th) (hi : th.strand.stack = [])
    {t' : Nat} {th' th'' : Thread σ α} (ht' : s.threads[t']? = some th') {g : Frame α}
    (hg : g ∈ th'.strand.stack) : (s.threads.set t th'')[t']? = some th' := by
  have he : t ≠ t' := by
    rintro rfl
    rw [ht] at ht'
    cases ht'
    simp [hi] at hg
  rwa [List.getElem?_set_ne he]

omit [BEq α] in
theorem System.Minds.start {owner : Nat} {d : Descriptor α} {k : Nat} (h : s.Minds owner d k)
    (ht : s.threads[t]? = some th) (hi : th.strand.stack = []) (th' : Thread σ α) :
    System.Minds ⟨s.memory, s.threads.set t th'⟩ owner d k := by
  obtain ⟨t', th'', g, ho, ht', hg, hmind⟩ := h
  exact ⟨t', th'', g, ho, thread_of_start ht hi ht' hg, hg, hmind⟩

omit [BEq α] in
theorem System.Tends.start {r : Stamp} {g : Handoff α} (h : s.Tends r g)
    (ht : s.threads[t]? = some th) (hi : th.strand.stack = []) (th' : Thread σ α) :
    System.Tends ⟨s.memory, s.threads.set t th'⟩ r g := by
  obtain ⟨t', th'', a, b, ho, ht', hsub, ha, hmind⟩ := h
  exact ⟨t', th'', a, b, ho, thread_of_start ht hi ht' (hsub.subset List.mem_cons_self), hsub, ha,
    hmind⟩

omit [BEq α] in
theorem System.Upkept.start (hu : s.Upkept L) (ht : s.threads[t]? = some th)
    (hi : th.strand.stack = []) (hg : Grows L L' s.memory s.memory) (th' : Thread σ α) :
    System.Upkept ⟨s.memory, s.threads.set t th'⟩ L' := by
  constructor
  · intro k c d hk
    obtain ⟨owner, hb, hmind⟩ := hu.claimed k c d hk
    exact ⟨owner, hb.mono hg, hmind.start ht hi th'⟩
  · intro k r g hk
    exact (hu.reserved k r g hk).start ht hi th'

end

variable {client : Client σ α} {values : Array α} {states : List σ} {r : Run σ α} {L : Ledger α}

theorem Course.upkept (h : Course client values states r L) : r.system.Upkept L := by
  induction h with
  | new =>
    constructor
    · intro k c d hk
      obtain ⟨v, -, hv⟩ := Memory.cell_of_ofValues hk
      simp at hv
    · intro k r g hk
      obtain ⟨v, -, hv⟩ := Memory.cell_of_ofValues hk
      simp at hv
  | @start r L t th c move h hs ht hi hc ho ih =>
    exact ih.start ht hi (ho.grows (hs.threads t th ht).fresh_unused) _
  | access h hs ht hf hc hd ih => exact ih.access hs ht hf hd

/-- Once no thread is at work, every slot holds a plain value. -/
theorem Course.plain_of_idle (h : Course client values states r L)
    (hidle : ∀ t, r.system.isBusy t = false) {k : Nat} {c : Cell α}
    (hc : r.system.memory.slots[k]? = some c) : ∃ v, c.content = .plain v := by
  have hempty {t : Nat} {th : Thread σ α} (ht : r.system.threads[t]? = some th) {f : Frame α} :
      f ∉ th.strand.stack := by
    have hb := hidle t
    rw [← Bool.not_eq_true, System.isBusy_of_thread ht, not_not] at hb
    simp [hb]
  obtain ⟨s, x⟩ := c
  cases x with
  | plain v => exact ⟨v, rfl⟩
  | reserved g =>
    obtain ⟨t, th, f, -, ht, hf, -⟩ := (h.upkept.reserved k s g hc).minds
    exact absurd hf (hempty ht)
  | claimed d =>
    obtain ⟨owner, -, t, th, f, -, ht, hf, -⟩ := h.upkept.claimed k s d hc
    exact absurd hf (hempty ht)

end MultiSwap
