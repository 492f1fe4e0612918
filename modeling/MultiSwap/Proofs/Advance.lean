import MultiSwap.Proofs.Stance

/-! From a sound frame every access is a lawful one, and the frames that come after it are sound
again. -/

namespace MultiSwap

variable {α : Type} [BEq α] {L : Ledger α} {m m' : Memory α} {fresh : Stamp} {owner : Nat}

namespace Memory.Accords

theorem isClaimedBy_iff (hm : m.Accords L) {d : Descriptor α} (ho : L.Opened d) {k : Nat}
    {c : Cell α} (hc : m.slots[k]? = some c) : c.isClaimedBy d = true ↔ c.content = .claimed d := by
  have hl := hm.cells k c hc
  rcases h : c.content with v | g | d'
  · simp [Cell.isClaimedBy, h]
  · simp [Cell.isClaimedBy, h]
  · rw [h] at hl
    have hd := hm.formed.opened_of_took ⟨_, hl⟩
    simp only [Cell.isClaimedBy, h, decide_eq_true_eq, Content.claimed.injEq]
    exact ⟨hm.formed.eq_of_stamp hd ho, fun he => he ▸ rfl⟩

theorem not_holds_of_gone (hm : m.Accords L) {d : Descriptor α} (ho : L.Opened d) {k : Nat}
    {c : Cell α} (hc : m.slots[k]? = some c) (hd : c.isClaimedBy d = false) : ¬ m.Holds d k := by
  intro hh
  obtain ⟨s, hs⟩ := hh
  rw [hc] at hs
  cases hs
  rw [(hm.isClaimedBy_iff ho hc).2 rfl] at hd
  simp at hd

theorem not_holds_of_lost (hm : m.Accords L) {d : Descriptor α} {k : Nat} {c : Cell α}
    {seen : Stamp} (hc : m.slots[k]? = some c) (hl : L seen = some (.cell k (.claimed d)))
    (hs : c.stamp ≠ seen) : ¬ m.Holds d k := by
  intro hh
  obtain ⟨s, hk⟩ := hh
  rw [hc] at hk
  cases hk
  exact hs (hm.once _ _ k d (hm.cells _ _ hc) hl)

theorem plain_known (hm : m.Accords L) {k : Nat} {c : Cell α} {v : α}
    (hc : m.slots[k]? = some c) (hv : c.content = .plain v) :
    c = ⟨c.stamp, .plain v⟩ ∧ L c.stamp = some (.cell k (.plain v)) := by
  have hl := hm.cells k c hc
  obtain ⟨s, x⟩ := c
  cases hv
  exact ⟨rfl, hl⟩

end Memory.Accords

namespace Ledger.Reached

variable {d : Descriptor α}

omit [BEq α] in
theorem start (ho : L.Opened d) : L.Reached d d.others :=
  ⟨ho, [], rfl, by simp⟩

omit [BEq α] in
theorem next {word : Word α} {rest : List (Word α)} (h : L.Reached d (word :: rest))
    (ht : L.Took d word.index) : L.Reached d rest := by
  obtain ⟨ho, done, he, hdone⟩ := h
  refine ⟨ho, done ++ [word], by simp [he], fun w hw => ?_⟩
  rcases List.mem_append.1 hw with hw | hw
  · exact hdone w hw
  · rw [List.mem_singleton.1 hw]
    exact ht

omit [BEq α] in
theorem all_took (h : L.Reached d []) : ∀ w ∈ d.words, L.Took d w.index := by
  obtain ⟨ho, done, he, hdone⟩ := h
  intro w hw
  rcases List.mem_cons.1 hw with rfl | hw
  · exact ho
  · exact hdone w (by simpa [he] using hw)

theorem sound_claimFrom {ws : List (Word α)} (h : L.Reached d ws) :
    (Frame.claimFrom d ws).Sound L m owner := by
  cases ws with
  | nil => exact ⟨h.1, by simp, fun _ => h.all_took⟩
  | cons w rest => exact h

end Ledger.Reached

namespace Memory.Clears

variable {d : Descriptor α} {takesEffect : Bool}

omit [BEq α] in
theorem next {word : Word α} {rest : List (Word α)} (h : m.Clears L d takesEffect (word :: rest))
    (hn : ¬ m.Holds d word.index) : m.Clears L d takesEffect rest := by
  obtain ⟨ho, hv, done, he, hdone⟩ := h
  refine ⟨ho, hv, done ++ [word], by rw [he]; simp, fun ht w hw => ?_⟩
  rcases List.mem_append.1 hw with hw | hw
  · exact hdone ht w hw
  · rw [List.mem_singleton.1 hw]
    exact hn

theorem sound_clearFrom {ws : List (Word α)} (h : m.Clears L d takesEffect ws) :
    (Frame.clearFrom d takesEffect ws).Sound L m owner (.driving d) := by
  cases ws with
  | nil =>
    rintro _ ⟨⟩
    exact ⟨takesEffect, rfl, h⟩
  | cons w rest => exact h

end Memory.Clears

theorem sound_clearing {d : Descriptor α} {v : Verdict} (ho : L.Opened d)
    (hv : m.verdict d.stamp = v) (hp : v ≠ .pending) :
    (Frame.clearing d v).next.Sound L m owner (.driving d) := by
  have hclears (b : Bool) (hb : v = if b then .commit else .abort) :
      m.Clears L d b (if b then d.words else d.words.reverse) :=
    ⟨ho, by rw [hv, hb], [], rfl, by simp⟩
  cases v with
  | pending => exact absurd rfl hp
  | commit => exact (hclears true rfl).sound_clearFrom
  | abort => exact (hclears false rfl).sound_clearFrom

namespace Frame

theorem Sound.after_help {f after : Frame α} {k : Nat} (hf : f.Sound L m owner)
    (hw : f.waits = some (k, after)) : after.Sound L m owner := by
  cases f with
  | claim d word rest =>
    cases hw
    exact hf
  | get slot => cases hw; exact hf
  | contents announced slot left seen => cases hw; exact hf
  | set slot value => cases hw; exact hf
  | cas slot expected content onward => cases hw; exact hf
  | _ => simp [waits] at hw

end Frame

theorem sound_assistance (hm : m.Accords L) {k : Nat} {c : Cell α} {note : Note} {g : Frame α}
    (hc : m.slots[k]? = some c) (hg : c.assistance = some (note, g)) : g.Sound L m owner := by
  have hl := hm.cells k c hc
  rcases hx : c.content with v | h | d
  · simp [Cell.assistance, hx] at hg
  · simp only [Cell.assistance, hx, Option.some.injEq, Prod.mk.injEq] at hg
    rw [hx] at hl
    rw [← (hm.formed.reserved hl).1] at hl
    rw [← hg.2]
    exact hl
  · simp only [Cell.assistance, hx, Option.some.injEq, Prod.mk.injEq] at hg
    rw [hx] at hl
    rw [← hg.2]
    exact hm.formed.opened_of_took ⟨_, hl⟩

namespace Deed

variable {f : Frame α} {e : Event α} {move : Move α}

/-- The access of a sound frame is lawful. -/
theorem effect (h : Deed m fresh f e m' move) (hm : m.Accords L)
    (hf : f.Sound L m fresh.owner) : Effect L m fresh e m' := by
  cases h with
  | @setWon slot value found c hc hs =>
    obtain ⟨s, u, rfl, hl⟩ := hf
    obtain rfl := (hm.cell_eq hc hl hs).2
    exact .placed hc .write
  | @casWon slot expected content found c hc hs =>
    obtain ⟨-, hi, s, u, rfl, hl, he⟩ := hf
    cases hi
    obtain rfl := (hm.cell_eq hc hl hs).2
    exact .placed hc .write
  | @opened slot expected content d found c hc hs =>
    obtain ⟨-, hi, s, u, rfl, hl, he⟩ := hf
    obtain rfl := (hm.cell_eq hc hl hs).2
    cases hi with
    | claim hd ho hown => exact .placed hc (.opening rfl he hd ho hown)
  | offerWon hc hs =>
    obtain ⟨hr, hl, he⟩ := hf
    obtain rfl := (hm.cell_eq hc hl hs).2
    exact .placed hc (.offer rfl hr.1 hr.mem he)
  | concludeWon hv =>
    obtain ⟨ho, hp, hall⟩ := hf
    exact .decided ho hv hp hall
  | @clearWon d takesEffect word rest seen c hc hs =>
    obtain ⟨hcl, hl⟩ := hf
    obtain rfl := (hm.cell_eq hc hl hs).2
    exact .placed hc (.clearing rfl hcl.mem hcl.2.1)
  | ruleWon hv =>
    obtain ⟨hl, hp, ht⟩ := hf
    exact .ruled hl hv hp ht
  | @releaseWon r g v c hc hs =>
    obtain ⟨hl, hp, hv⟩ := hf
    obtain rfl := (hm.cell_eq hc hl hs).2
    cases v with
    | pending => exact absurd rfl hp
    | commit => exact .placed hc (.handover hv)
    | abort => exact .placed hc (.giveBack hv)
  | _ => exact .quiet rfl

/-- A sound frame goes on soundly. -/
theorem sound_next (h : Deed m fresh f e m' move) (hm : m.Accords L)
    (hf : f.Sound L m fresh.owner) (hs : L fresh = none) :
    move.next.Sound (L.after e) m' fresh.owner f.role := by
  have hgrows := (h.effect hm hf).grows hm hs
  cases h with
  | got hc hv => simp [Move.done, Next.Sound, Frame.role]
  | gotLast hc hv => simp [Move.done, Next.Sound, Frame.role]
  | @gotNext announced slot left seen c v hc hv =>
    have hlt : slot + (left + 1) < m.size := hf
    show slot + 1 + left < m.size
    omega
  | helps hw hc hg hd => exact ⟨sound_assistance hm hc hg, hf.after_help hw⟩
  | setReady hc hv =>
    obtain ⟨he, hl⟩ := hm.plain_known hc hv
    exact ⟨_, _, he, hl⟩
  | setWon hc hs => simp [Move.done, Next.Sound, Frame.role]
  | setLost hc hs =>
    obtain ⟨s, u, -, hl⟩ := hf
    exact hm.formed.slot_lt hl
  | casReady hc hv he =>
    obtain ⟨hce, hl⟩ := hm.plain_known hc hv
    exact ⟨hf.1, hf.2, _, _, hce, hl, he⟩
  | casRefused hc hv he => simp [Next.Sound, Frame.role]
  | casWon hc hs => simp [Move.done, Next.Sound, Frame.role]
  | opened hc hs =>
    obtain ⟨-, hi, -⟩ := hf
    cases hi with
    | claim => exact ⟨fresh, Ledger.record_self _ _ _⟩
  | casLost hc hs => exact ⟨hf.1, hf.2.1⟩
  | driveOpen hv => exact (Ledger.Reached.start hf).sound_claimFrom
  | driveSettled hv hp => exact sound_clearing hf hv hp
  | checkOpen hv => exact hf
  | checkSettled hv hp => exact ⟨hf.1, by simp, by simp⟩
  | claimHeld hc hd =>
    have hx := (hm.isClaimedBy_iff hf.1 hc).1 hd
    have hl := hm.cells _ _ hc
    rw [hx] at hl
    exact (hf.next ⟨_, hl⟩).sound_claimFrom
  | claimReady hc hv he => exact ⟨hf, (hm.plain_known hc hv).2, he⟩
  | claimRefused hc hv he => exact ⟨hf.1, by simp, by simp⟩
  | offerWon hc hs' =>
    exact ⟨Ledger.record_self _ _ _, Ledger.Reached.mono hf.1 hgrows.within⟩
  | offerLost hc hs' => exact hf.1
  | concludeWon hv => exact sound_clearing hf.1 (Memory.verdict_propose_self hv _) hf.2.1
  | concludeLost hv hp => exact sound_clearing hf.1 hv hp
  | clearHeld hc hd =>
    have hx := (hm.isClaimedBy_iff hf.1 hc).1 hd
    have hl := hm.cells _ _ hc
    rw [hx] at hl
    exact ⟨hf, hl⟩
  | clearGone hc hd => exact (hf.next (hm.not_holds_of_gone hf.1 hc hd)).sound_clearFrom
  | clearWon hc hs' =>
    refine ((hf.1.mono hgrows).next ?_).sound_clearFrom
    intro hh
    obtain ⟨s, hk⟩ := hh
    rw [Memory.slot_place_self (Memory.lt_of_slot hc)] at hk
    simp at hk
  | clearLost hc hs' => exact (hf.1.next (hm.not_holds_of_lost hc hf.2 hs')).sound_clearFrom
  | settleOpen hv => exact hf
  | settleSettled hv hp => exact ⟨hf, hp, hv⟩
  | @weighOpen r g hv =>
    refine ⟨hf, by simp, fun _ hk => ⟨fun ht => ?_, by rw [hv]; simp⟩⟩
    obtain ⟨s, hh⟩ := hm.holds ht hv
    rw [hk] at hh
    simp at hh
  | weighSettled hv hp => exact ⟨hf, by simp, by simp⟩
  | ruleWon hv => exact ⟨hf.1, hf.2.1, Memory.verdict_propose_self hv _⟩
  | ruleLost hv hp => exact ⟨hf.1, hp, hv⟩
  | releaseHeld hc hd => exact hf
  | releaseGone hc hd => simp [Move.done, Next.Sound, Frame.role]
  | releaseWon hc hs' => simp [Next.Sound, Frame.role]
  | releaseLost hc hs' => simp [Move.done, Next.Sound, Frame.role]

end Deed

end MultiSwap
