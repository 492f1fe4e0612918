import MultiSwap.Proofs.Effect
import MultiSwap.Proofs.Shape

/-! What a frame relies on. A frame that stands somewhere knows how its thread came there: which
slots were claimed before, what was found, which verdict holds. All of it stays true whatever other
threads do, so an access that was prepared long ago is still a lawful one when it is made. -/

namespace MultiSwap

variable {α : Type}

/-- What a frame may be about to install: a value, or an operation of its own thread that nobody
else has met. -/
inductive Installs (L : Ledger α) (owner : Nat) :
    Nat → α → Content α → Option (Descriptor α) → Prop where
  | value {slot : Nat} {expected u : α} : Installs L owner slot expected (.plain u) none
  | claim {d : Descriptor α} (hd : L d.stamp = some (.operation d)) (ho : ¬ L.Opened d)
      (hown : d.stamp.owner = owner) :
    Installs L owner d.first.index d.first.expected (.claimed d) (some d)

/-- All words of `d` before `ws` had their slots claimed. -/
def Ledger.Reached (L : Ledger α) (d : Descriptor α) (ws : List (Word α)) : Prop :=
  L.Opened d ∧ ∃ done, d.others = done ++ ws ∧ ∀ w ∈ done, L.Took d w.index

/-- The words of `d` that are cleared before `ws`, if it takes effect, have left their slots. -/
def Memory.Clears (m : Memory α) (L : Ledger α) (d : Descriptor α) (takesEffect : Bool)
    (ws : List (Word α)) : Prop :=
  L.Opened d ∧ m.verdict d.stamp = (if takesEffect then .commit else .abort) ∧
    ∃ done, (if takesEffect then d.words else d.words.reverse) = done ++ ws ∧
      (takesEffect = true → ∀ w ∈ done, ¬ m.Holds d w.index)

variable [BEq α]

namespace Frame

def Sound (L : Ledger α) (m : Memory α) (owner : Nat) : Frame α → Prop
  | get slot => slot < m.size
  | contents _ slot left _ => slot + left < m.size
  | set slot _ => slot < m.size
  | setOver slot _ found =>
    ∃ s u, found = ⟨s, .plain u⟩ ∧ L s = some (.cell slot (.plain u))
  | cas slot expected content onward =>
    slot < m.size ∧ Installs L owner slot expected content onward
  | casOver slot expected content onward found =>
    slot < m.size ∧ Installs L owner slot expected content onward ∧
      ∃ s u, found = ⟨s, .plain u⟩ ∧ L s = some (.cell slot (.plain u)) ∧ (u == expected) = true
  | drive d => L.Opened d
  | check d word rest => L.Reached d (word :: rest)
  | claim d word rest => L.Reached d (word :: rest)
  | offer d word rest seen kept =>
    L.Reached d (word :: rest) ∧ L seen = some (.cell word.index (.plain kept)) ∧
      (kept == word.expected) = true
  | conclude d p =>
    L.Opened d ∧ p ≠ .pending ∧ (p = .commit → ∀ w ∈ d.words, L.Took d w.index)
  | clear d takesEffect word rest => m.Clears L d takesEffect (word :: rest)
  | clearOver d takesEffect word rest seen =>
    m.Clears L d takesEffect (word :: rest) ∧ L seen = some (.cell word.index (.claimed d))
  | settle r h => L r = some (.cell h.slot (.reserved h))
  | weigh r h => L r = some (.cell h.slot (.reserved h))
  | rule r h p =>
    L r = some (.cell h.slot (.reserved h)) ∧ p ≠ .pending ∧
      (p = .commit → m.slots[h.slot]? = some ⟨r, .reserved h⟩ → h.Timely L m)
  | release r h v => L r = some (.cell h.slot (.reserved h)) ∧ v ≠ .pending ∧ m.verdict r = v
  | releaseOver r h v => L r = some (.cell h.slot (.reserved h)) ∧ v ≠ .pending ∧ m.verdict r = v

end Frame

/-- Where a frame of the given role may go. If it drove an operation and ends, the verdict on that
is its answer, and nothing is left to clear. -/
def Next.Sound (L : Ledger α) (m : Memory α) (owner : Nat) (role : Role α) : Next α → Prop
  | .goto g => g.Sound L m owner
  | .call g after => g.Sound L m owner ∧ after.Sound L m owner
  | .done r => ∀ d, role = .driving d → ∃ b, r = .flag b ∧ m.Clears L d b []

theorem Next.Sound.frames {L : Ledger α} {m : Memory α} {owner : Nat} {role : Role α}
    {next : Next α} (h : next.Sound L m owner role) : ∀ g ∈ next.frames, g.Sound L m owner := by
  intro g hg
  cases next with
  | goto f =>
    rw [List.mem_singleton.1 hg]
    exact h
  | call f after =>
    rcases List.mem_cons.1 hg with rfl | hg
    · exact h.1
    · rw [List.mem_singleton.1 hg]
      exact h.2
  | done r => exact absurd hg List.not_mem_nil

section

variable {L L' : Ledger α} {m m' : Memory α} {owner : Nat}

omit [BEq α] in
theorem Installs.mono {slot : Nat} {expected : α} {content : Content α}
    {onward : Option (Descriptor α)} (h : Installs L owner slot expected content onward)
    (hw : L.Within L') (hnew : ∀ d, d.stamp.owner = owner → L'.Opened d → L.Opened d) :
    Installs L' owner slot expected content onward := by
  cases h with
  | value => exact .value
  | claim hd ho hown => exact .claim (hw _ _ hd) (fun h => ho (hnew _ hown h)) hown

omit [BEq α] in
theorem Ledger.Reached.mono {d : Descriptor α} {ws : List (Word α)} (h : L.Reached d ws)
    (hw : L.Within L') : L'.Reached d ws := by
  obtain ⟨ho, done, he, hdone⟩ := h
  exact ⟨ho.mono hw, done, he, fun w hmem => (hdone w hmem).mono hw⟩

omit [BEq α] in
theorem Ledger.Reached.subset {d : Descriptor α} {ws : List (Word α)} (h : L.Reached d ws) :
    ∀ w ∈ ws, w ∈ d.others := by
  obtain ⟨-, done, he, -⟩ := h
  exact fun w hw => he ▸ List.mem_append_right _ hw

omit [BEq α] in
theorem Ledger.Reached.mem {d : Descriptor α} {word : Word α} {rest : List (Word α)}
    (h : L.Reached d (word :: rest)) : word ∈ d.others :=
  h.subset word List.mem_cons_self

omit [BEq α] in
theorem Memory.Clears.mono {d : Descriptor α} {takesEffect : Bool} {ws : List (Word α)}
    (h : m.Clears L d takesEffect ws) (hg : Grows L L' m m') :
    m'.Clears L' d takesEffect ws := by
  obtain ⟨ho, hv, done, he, hdone⟩ := h
  refine ⟨ho.mono hg.within, ?_, done, he, ?_⟩
  · rw [hg.settled _ (by rw [hv]; split <;> simp), hv]
  · intro ht w hw hh
    exact hdone ht w hw (hg.cleared d _ (by rw [hv, if_pos ht]) hh)

omit [BEq α] in
theorem Memory.Clears.subset {d : Descriptor α} {takesEffect : Bool} {ws : List (Word α)}
    (h : m.Clears L d takesEffect ws) : ∀ w ∈ ws, w ∈ d.words := by
  obtain ⟨-, -, done, he, -⟩ := h
  intro w hw
  have hmem : w ∈ if takesEffect then d.words else d.words.reverse :=
    he ▸ List.mem_append_right _ hw
  cases takesEffect with
  | true => exact hmem
  | false => exact List.mem_reverse.1 hmem

omit [BEq α] in
theorem Memory.Clears.mem {d : Descriptor α} {takesEffect : Bool} {word : Word α}
    {rest : List (Word α)} (h : m.Clears L d takesEffect (word :: rest)) : word ∈ d.words :=
  h.subset word List.mem_cons_self

/-- What a frame relies on is not undone by other threads. -/
theorem Frame.Sound.mono {f : Frame α} (hf : f.Sound L m owner) (hg : Grows L L' m m')
    (hnew : ∀ d, d.stamp.owner = owner → L'.Opened d → L.Opened d) : f.Sound L' m' owner := by
  have hverdict {s : Stamp} {v : Verdict} (hv : v ≠ .pending ∧ m.verdict s = v) :
      v ≠ .pending ∧ m'.verdict s = v :=
    ⟨hv.1, by rw [hg.settled s (by rw [hv.2]; exact hv.1), hv.2]⟩
  cases f with
  | get slot =>
    simp only [Sound, hg.size] at hf ⊢
    exact hf
  | contents announced slot left seen =>
    simp only [Sound, hg.size] at hf ⊢
    exact hf
  | set slot value =>
    simp only [Sound, hg.size] at hf ⊢
    exact hf
  | setOver slot value found =>
    obtain ⟨s, u, hs, hl⟩ := hf
    exact ⟨s, u, hs, hg.within _ _ hl⟩
  | cas slot expected content onward =>
    obtain ⟨hk, hi⟩ := hf
    exact ⟨hg.size ▸ hk, hi.mono hg.within hnew⟩
  | casOver slot expected content onward found =>
    obtain ⟨hk, hi, s, u, hs, hl, he⟩ := hf
    exact ⟨hg.size ▸ hk, hi.mono hg.within hnew, s, u, hs, hg.within _ _ hl, he⟩
  | drive d => exact Ledger.Opened.mono hg.within hf
  | check d word rest => exact Ledger.Reached.mono hf hg.within
  | claim d word rest => exact Ledger.Reached.mono hf hg.within
  | offer d word rest seen kept =>
    obtain ⟨hr, hl, he⟩ := hf
    exact ⟨hr.mono hg.within, hg.within _ _ hl, he⟩
  | conclude d p =>
    obtain ⟨ho, hp, hall⟩ := hf
    exact ⟨ho.mono hg.within, hp, fun h w hw => (hall h w hw).mono hg.within⟩
  | clear d takesEffect word rest => exact Memory.Clears.mono hf hg
  | clearOver d takesEffect word rest seen => exact ⟨hf.1.mono hg, hg.within _ _ hf.2⟩
  | settle r h => exact hg.within _ _ hf
  | weigh r h => exact hg.within _ _ hf
  | rule r h p =>
    obtain ⟨hl, hp, ht⟩ := hf
    exact ⟨hg.within _ _ hl, hp, fun he => hg.timely r h hl (ht he)⟩
  | release r h v => exact ⟨hg.within _ _ hf.1, hverdict hf.2⟩
  | releaseOver r h v => exact ⟨hg.within _ _ hf.1, hverdict hf.2⟩

theorem Memory.Accords.safe_handoff (hm : m.Accords L) {s : Stamp} {k : Nat} {h : Handoff α}
    (hs : L s = some (.cell k (.reserved h))) : h.slot = k ∧ h.Safe m.size := by
  obtain ⟨hk, ho, w, hw, hi, -⟩ := hm.formed.reserved hs
  exact ⟨hk, hm.formed.descriptor_of_opened ho, w, hw, hi.trans hk.symm⟩

theorem Memory.Accords.safe_cell (hm : m.Accords L) {k : Nat} {c : Cell α}
    (hc : m.slots[k]? = some c) : c.content.Safe m.size k := by
  obtain ⟨s, v | h | d⟩ := c
  · trivial
  · exact hm.safe_handoff (hm.cells k _ hc)
  · have ht : L.Took d k := ⟨s, hm.cells k _ hc⟩
    exact ⟨hm.formed.descriptor_of_opened (hm.formed.opened_of_took ht), hm.formed.word_of_took ht⟩

theorem Installs.safe {slot : Nat} {expected : α} {content : Content α}
    {onward : Option (Descriptor α)} (h : Installs L owner slot expected content onward)
    (hm : m.Accords L) : content.Safe m.size slot ∧ ∀ d ∈ onward, d.Formed m.size := by
  cases h with
  | value => exact ⟨trivial, by simp⟩
  | @claim d hd ho hown =>
    have hf := hm.formed.descriptor hd
    refine ⟨⟨hf, d.first, d.first_mem, rfl⟩, fun d' hd' => ?_⟩
    cases hd'
    exact hf

end

namespace Frame

variable {L : Ledger α} {m : Memory α} {owner : Nat}

theorem Sound.safe {f : Frame α} (hf : f.Sound L m owner) (hm : m.Accords L) :
    f.Safe m.size := by
  cases f with
  | get slot | contents announced slot left seen | set slot value => exact hf
  | setOver slot value found =>
    obtain ⟨s, u, rfl, hl⟩ := hf
    exact ⟨hm.formed.slot_lt hl, u, rfl⟩
  | cas slot expected content onward => exact ⟨hf.1, hf.2.safe hm⟩
  | casOver slot expected content onward found =>
    obtain ⟨hk, hi, s, u, rfl, -⟩ := hf
    exact ⟨hk, (hi.safe hm).1, (hi.safe hm).2, u, rfl⟩
  | drive d => exact hm.formed.descriptor_of_opened hf
  | check d word rest | claim d word rest => exact ⟨hm.formed.descriptor_of_opened hf.1, hf.subset⟩
  | offer d word rest seen kept => exact ⟨hm.formed.descriptor_of_opened hf.1.1, hf.1.subset⟩
  | conclude d p => exact hm.formed.descriptor_of_opened hf.1
  | clear d takesEffect word rest => exact ⟨hm.formed.descriptor_of_opened hf.1, hf.subset⟩
  | clearOver d takesEffect word rest seen => exact ⟨hm.formed.descriptor_of_opened hf.1.1, hf.1.subset⟩
  | settle r h | weigh r h => exact (hm.safe_handoff hf).2
  | rule r h p | release r h v | releaseOver r h v => exact (hm.safe_handoff hf.1).2

theorem Sound.touches_lt {f : Frame α} (hf : f.Sound L m owner) (hm : m.Accords L) {k : Nat}
    (hk : f.touches = some k) : k < m.size :=
  (hf.safe hm).touches_lt hk

theorem Sound.opened {f : Frame α} (hf : f.Sound L m owner) {d : Descriptor α}
    (hr : f.role = .driving d) : L.Opened d := by
  cases f <;> simp only [role, Role.driving.injEq, reduceCtorEq] at hr
  all_goals subst hr
  case drive => exact hf
  case check => exact hf.1
  case claim => exact hf.1
  case offer => exact hf.1.1
  case conclude => exact hf.1
  case clear => exact hf.1
  case clearOver => exact hf.1.1

end Frame

end MultiSwap
