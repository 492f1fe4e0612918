import MultiSwap.Access
import MultiSwap.Proofs.Ledger

/-! When a memory accords with the ledger of its run, and which changes of the memory keep it so.
A claim holds its slot for as long as its operation is pending, no slot is claimed twice for one
operation, and no handoff reaches an operation that is decided to take effect. -/

namespace MultiSwap

variable {α : Type}

namespace Memory

def Holds (m : Memory α) (d : Descriptor α) (k : Nat) : Prop :=
  ∃ s, m.slots[k]? = some ⟨s, .claimed d⟩

theorem lt_of_slot {m : Memory α} {k : Nat} {c : Cell α} (h : m.slots[k]? = some c) :
    k < m.size :=
  (Array.getElem?_eq_some_iff.1 h).1

theorem slot_place_self {m : Memory α} {k : Nat} (h : k < m.size) (c : Cell α) :
    (m.place k c).slots[k]? = some c := by
  unfold size at h
  simp [place, h]

theorem slot_place_of_ne {m : Memory α} {k j : Nat} (h : j ≠ k) (c : Cell α) :
    (m.place k c).slots[j]? = m.slots[j]? := by
  simp [place, Ne.symm h]

theorem size_propose (m : Memory α) (s : Stamp) (p : Verdict) : (m.propose s p).size = m.size := by
  simp [size]

theorem verdict_propose_self {m : Memory α} {s : Stamp} (h : m.verdict s = .pending)
    (p : Verdict) : (m.propose s p).verdict s = p := by
  rw [verdict_propose, if_pos rfl, h]
  rfl

theorem verdict_propose_of_ne {m : Memory α} {s r : Stamp} (h : r ≠ s) (p : Verdict) :
    (m.propose s p).verdict r = m.verdict r := by
  rw [verdict_propose, if_neg (Ne.symm h)]

end Memory

/-- The operation never had the slot, and is not decided to take effect. -/
def Handoff.Timely (L : Ledger α) (m : Memory α) (h : Handoff α) : Prop :=
  ¬ L.Took h.operation h.slot ∧ m.verdict h.operation.stamp ≠ .commit

variable [BEq α]

namespace Memory

structure Accords (m : Memory α) (L : Ledger α) : Prop where
  formed : L.Formed m.size
  cells : ∀ (k : Nat) c, m.slots[k]? = some c → L c.stamp = some (.cell k c.content)
  held : ∀ s k d, L s = some (.cell k (.claimed d)) → m.verdict d.stamp = .pending →
    m.slots[k]? = some ⟨s, .claimed d⟩
  once : ∀ s r k d, L s = some (.cell k (.claimed d)) → L r = some (.cell k (.claimed d)) → s = r
  timely : ∀ (k : Nat) r (h : Handoff α), m.slots[k]? = some ⟨r, .reserved h⟩ →
    m.verdict r = .commit → h.Timely L m
  unopened : ∀ d, L d.stamp = some (.operation d) → ¬ L.Opened d → m.verdict d.stamp = .pending
  unknown : ∀ s, L s = none → m.verdict s = .pending
  complete : ∀ d, L.Opened d → m.verdict d.stamp = .commit → ∀ w ∈ d.words, L.Took d w.index

theorem Accords.holds {m : Memory α} {L : Ledger α} (h : m.Accords L) {d : Descriptor α} {k : Nat}
    (ht : L.Took d k) (hv : m.verdict d.stamp = .pending) : m.Holds d k :=
  ht.imp fun s hs => h.held s k d hs hv

theorem Accords.took {m : Memory α} {L : Ledger α} (h : m.Accords L) {d : Descriptor α} {k : Nat}
    (hh : m.Holds d k) : L.Took d k :=
  hh.imp fun _ hs => h.cells _ _ hs

theorem Accords.cell_eq {m : Memory α} {L : Ledger α} (h : m.Accords L) {k j : Nat} {c : Cell α}
    (hc : m.slots[k]? = some c) {s : Stamp} {x : Content α} (hs : L s = some (.cell j x))
    (he : c.stamp = s) : k = j ∧ c = ⟨s, x⟩ :=
  Ledger.cell_eq (h.cells k c hc) hs he

end Memory

/-- Which content may take the place of a cell in slot `k`, and who may put it there. -/
inductive Exchange (L : Ledger α) (m : Memory α) (owner k : Nat) : Cell α → Content α → Prop where
  | write {s u v} : Exchange L m owner k ⟨s, .plain u⟩ (.plain v)
  | opening {s u d} (hk : k = d.first.index) (hu : (u == d.first.expected) = true)
      (hd : L d.stamp = some (.operation d)) (ho : ¬ L.Opened d) (hown : d.stamp.owner = owner) :
    Exchange L m owner k ⟨s, .plain u⟩ (.claimed d)
  | offer {s d w kept} (hk : w.index = k) (ho : L.Opened d) (hw : w ∈ d.others)
      (hu : (kept == w.expected) = true) :
    Exchange L m owner k ⟨s, .plain kept⟩ (.reserved ⟨d, k, kept⟩)
  | handover {r h} (hv : m.verdict r = .commit) :
    Exchange L m owner k ⟨r, .reserved h⟩ (.claimed h.operation)
  | giveBack {r h} (hv : m.verdict r = .abort) :
    Exchange L m owner k ⟨r, .reserved h⟩ (.plain h.kept)
  | clearing {s d w takesEffect} (hk : w.index = k) (hw : w ∈ d.words)
      (hv : m.verdict d.stamp = if takesEffect then .commit else .abort) :
    Exchange L m owner k ⟨s, .claimed d⟩ (.plain (w.target takesEffect))

namespace Exchange

variable {L : Ledger α} {m : Memory α} {owner k : Nat} {old : Cell α} {new : Content α}

theorem settled (h : Exchange L m owner k old new) {d : Descriptor α}
    (hd : old.content = .claimed d) : m.verdict d.stamp ≠ .pending := by
  cases h with
  | clearing hk hw hv =>
    cases hd
    rw [hv]
    split <;> simp
  | _ => simp at hd

/-- A claim is made for an operation that did not have the slot, and only if it is not decided to
take effect. -/
theorem not_took (h : Exchange L m owner k old new) (hm : m.Accords L)
    (hc : m.slots[k]? = some old) {d : Descriptor α} (hd : new = .claimed d) :
    ¬ L.Took d k ∧ m.verdict d.stamp ≠ .commit := by
  cases h with
  | opening hk hu hl ho _ =>
    cases hd
    refine ⟨by rwa [hk], ?_⟩
    rw [hm.unopened _ hl ho]
    simp
  | @handover r g hv =>
    cases hd
    have ht := hm.timely k r g hc hv
    rwa [← (hm.formed.reserved (hm.cells _ _ hc)).1]
  | _ => simp at hd

theorem opens (h : Exchange L m owner k old new) (hm : m.Accords L)
    (hc : m.slots[k]? = some old) {d : Descriptor α} (hd : new = .claimed d) :
    L.Opened d ∨ k = d.first.index ∧ d.stamp.owner = owner := by
  cases h with
  | opening hk hu hl ho hown =>
    cases hd
    exact Or.inr ⟨hk, hown⟩
  | handover hv =>
    cases hd
    exact Or.inl (hm.formed.reserved (hm.cells _ _ hc)).2.1
  | _ => simp at hd

theorem fits (h : Exchange L m owner k old new) (hm : m.Accords L) (hc : m.slots[k]? = some old)
    {s : Stamp} (hs : L s = none) :
    (Entry.cell k new).Fits (L.record s (.cell k new)) m.size s := by
  have hw := Ledger.within_record hs (.cell k new)
  have hk := Memory.lt_of_slot hc
  cases h with
  | opening he hu hl ho _ =>
    refine ⟨hk, ⟨s, ?_⟩, hw _ _ hl, _, Descriptor.first_mem _, he.symm⟩
    rw [Ledger.record_self, he]
  | offer he ho hm hu => exact ⟨hk, rfl, ho.mono hw, _, hm, he, hu⟩
  | handover hv =>
    obtain ⟨-, ho, w, hmem, he, -⟩ := hm.formed.reserved (hm.cells _ _ hc)
    exact ⟨hk, ho.mono hw, hw _ _ (hm.formed.known ho), w, Descriptor.mem_of_others hmem, he⟩
  | _ => exact hk

end Exchange

namespace Memory.Accords

variable {L : Ledger α} {m : Memory α}

theorem place (h : m.Accords L) {owner k : Nat} {old c : Cell α} (hc : m.slots[k]? = some old)
    (hs : L c.stamp = none) (hx : Exchange L m owner k old c.content) :
    (m.place k c).Accords (L.record c.stamp (.cell k c.content)) := by
  have hw := Ledger.within_record hs (.cell k c.content)
  have hk := lt_of_slot hc
  -- an entry of the new ledger is an old one, or the cell that is placed
  have hcell {s : Stamp} {j : Nat} {x : Content α}
      (hj : L.record c.stamp (.cell k c.content) s = some (.cell j x)) :
      L s = some (.cell j x) ∨ s = c.stamp ∧ j = k ∧ x = c.content := by
    by_cases he : s = c.stamp
    · subst he
      rw [Ledger.record_self] at hj
      cases hj
      exact Or.inr ⟨rfl, rfl, rfl⟩
    · exact Or.inl (by rwa [Ledger.record_of_ne he] at hj)
  have hslot {j : Nat} {c' : Cell α} (hj : (m.place k c).slots[j]? = some c') :
      j = k ∧ c' = c ∨ j ≠ k ∧ m.slots[j]? = some c' := by
    by_cases he : j = k
    · subst he
      rw [slot_place_self hk] at hj
      exact Or.inl ⟨rfl, (Option.some.inj hj).symm⟩
    · exact Or.inr ⟨he, by rwa [slot_place_of_ne he] at hj⟩
  constructor
  · rw [size_place]
    exact h.formed.record hs (hx.fits h hc hs)
  · intro j c' hj
    rcases hslot hj with ⟨rfl, rfl⟩ | ⟨-, hj⟩
    · exact Ledger.record_self _ _ _
    · exact hw _ _ (h.cells j c' hj)
  · intro s j d hl hv
    rcases hcell hl with hl | ⟨rfl, rfl, hd⟩
    · have hj := h.held s j d hl hv
      have hne : j ≠ k := by
        rintro rfl
        rw [hc] at hj
        cases hj
        exact hx.settled rfl hv
      rwa [slot_place_of_ne hne]
    · rw [slot_place_self hk, hd]
  · intro s r j d hl hr
    rcases hcell hl with hl | ⟨rfl, rfl, hd⟩ <;> rcases hcell hr with hr | ⟨rfl, hj, hd'⟩
    · exact h.once s r j d hl hr
    · exact absurd ⟨s, hj ▸ hl⟩ (hx.not_took h hc hd'.symm).1
    · exact absurd ⟨r, hr⟩ (hx.not_took h hc hd.symm).1
    · rfl
  · intro j r g hj hv
    rcases hslot hj with ⟨rfl, rfl⟩ | ⟨hne, hj⟩
    · rw [verdict_place, h.unknown _ hs] at hv
      simp at hv
    · obtain ⟨hn, hv'⟩ := h.timely j r g hj hv
      refine ⟨fun ht => ?_, hv'⟩
      rcases Ledger.took_record ht with ht | ht
      · exact hn ht
      · have he := (h.formed.reserved (h.cells _ _ hj)).1
        exact hne (he.symm.trans (Entry.cell.inj ht).1.symm)
  · intro d hl hn
    have hl' : L d.stamp = some (.operation d) := by
      by_cases he : d.stamp = c.stamp
      · rw [he, Ledger.record_self] at hl
        simp at hl
      · rwa [Ledger.record_of_ne he] at hl
    exact h.unopened d hl' fun ho => hn (ho.mono hw)
  · intro s hl
    by_cases he : s = c.stamp
    · rw [he, Ledger.record_self] at hl
      simp at hl
    · exact h.unknown s (by rwa [Ledger.record_of_ne he] at hl)
  · intro d ho hv w hmem
    rcases Ledger.took_record ho with ho | he
    · exact (h.complete d ho hv w hmem).mono hw
    · exact absurd hv (hx.not_took h hc (Entry.cell.inj he).2).2

theorem decide_operation (h : m.Accords L) {d : Descriptor α} {p : Verdict} (ho : L.Opened d)
    (hv : m.verdict d.stamp = .pending)
    (hall : p = .commit → ∀ w ∈ d.words, L.Took d w.index) :
    (m.propose d.stamp p).Accords L := by
  have hd := h.formed.known ho
  constructor
  · rw [size_propose]
    exact h.formed
  · rw [slots_propose]
    exact h.cells
  · intro s k d' hl hv'
    rw [slots_propose]
    by_cases he : d'.stamp = d.stamp
    · have := h.formed.eq_of_stamp (h.formed.opened_of_took ⟨s, hl⟩) ho he
      subst this
      exact h.held s k d' hl hv
    · rw [verdict_propose_of_ne he] at hv'
      exact h.held s k d' hl hv'
  · exact h.once
  · intro k r g hk hr
    rw [slots_propose] at hk
    have hl := h.cells _ _ hk
    have hne : r ≠ d.stamp := by
      rintro rfl
      rw [hd] at hl
      simp at hl
    rw [verdict_propose_of_ne hne] at hr
    obtain ⟨hn, hv'⟩ := h.timely k r g hk hr
    refine ⟨hn, ?_⟩
    by_cases he : g.operation.stamp = d.stamp
    · obtain ⟨hs, hg, w, hw, hi, -⟩ := h.formed.reserved hl
      have := h.formed.eq_of_stamp hg ho he
      subst this
      rw [verdict_propose_self hv]
      rintro rfl
      exact hn (hs ▸ hi ▸ hall rfl w (Descriptor.mem_of_others hw))
    · rwa [verdict_propose_of_ne he]
  · intro d' hl hn
    by_cases he : d'.stamp = d.stamp
    · rw [he, hd] at hl
      cases hl
      exact absurd ho hn
    · rw [verdict_propose_of_ne he]
      exact h.unopened d' hl hn
  · intro s hl
    have hne : s ≠ d.stamp := by
      rintro rfl
      rw [hd] at hl
      simp at hl
    rw [verdict_propose_of_ne hne]
    exact h.unknown s hl
  · intro d' ho' hv' w hw
    by_cases he : d'.stamp = d.stamp
    · have := h.formed.eq_of_stamp ho' ho he
      subst this
      rw [verdict_propose_self hv] at hv'
      exact hall hv' w hw
    · rw [verdict_propose_of_ne he] at hv'
      exact h.complete d' ho' hv' w hw

theorem decide_handoff (h : m.Accords L) {r : Stamp} {g : Handoff α} {p : Verdict}
    (hr : L r = some (.cell g.slot (.reserved g))) (hv : m.verdict r = .pending)
    (ht : p = .commit → m.slots[g.slot]? = some ⟨r, .reserved g⟩ → g.Timely L m) :
    (m.propose r p).Accords L := by
  -- the ticket of a handoff is the stamp of no operation
  have hne {d : Descriptor α} (hd : L d.stamp = some (.operation d)) : d.stamp ≠ r := by
    intro he
    rw [he, hr] at hd
    simp at hd
  have hopen {d : Descriptor α} (ho : L.Opened d) :
      (m.propose r p).verdict d.stamp = m.verdict d.stamp :=
    verdict_propose_of_ne (hne (h.formed.known ho)) p
  constructor
  · rw [size_propose]
    exact h.formed
  · rw [slots_propose]
    exact h.cells
  · intro s k d hl hv'
    rw [hopen (h.formed.opened_of_took ⟨s, hl⟩)] at hv'
    rw [slots_propose]
    exact h.held s k d hl hv'
  · exact h.once
  · intro k s g' hk hs
    rw [slots_propose] at hk
    have hl := h.cells _ _ hk
    have ht' : g'.Timely L m := by
      by_cases he : s = r
      · subst he
        rw [hr] at hl
        cases hl
        rw [verdict_propose_self hv] at hs
        exact ht hs hk
      · rw [verdict_propose_of_ne he] at hs
        exact h.timely k s g' hk hs
    exact ⟨ht'.1, by rw [hopen (h.formed.reserved hl).2.1]; exact ht'.2⟩
  · intro d hl hn
    rw [verdict_propose_of_ne (hne hl)]
    exact h.unopened d hl hn
  · intro s hl
    have hne' : s ≠ r := by
      rintro rfl
      rw [hr] at hl
      simp at hl
    rw [verdict_propose_of_ne hne']
    exact h.unknown s hl
  · intro d ho hv' w hw
    rw [hopen ho] at hv'
    exact h.complete d ho hv' w hw

theorem record_operation (h : m.Accords L) {d : Descriptor α} (hs : L d.stamp = none)
    (hd : d.Formed m.size) : m.Accords (L.record d.stamp (.operation d)) := by
  have hw := Ledger.within_record hs (.operation d)
  have htook {d' : Descriptor α} {k : Nat}
      (ht : (L.record d.stamp (.operation d)).Took d' k) : L.Took d' k :=
    (Ledger.took_record ht).resolve_right (by simp)
  have hcell {s : Stamp} {k : Nat} {x : Content α}
      (hl : L.record d.stamp (.operation d) s = some (.cell k x)) : L s = some (.cell k x) := by
    by_cases he : s = d.stamp
    · subst he
      rw [Ledger.record_self] at hl
      simp at hl
    · rwa [Ledger.record_of_ne he] at hl
  constructor
  · exact h.formed.record hs ⟨rfl, hd⟩
  · exact fun k c hk => hw _ _ (h.cells k c hk)
  · exact fun s k d' hl hv => h.held s k d' (hcell hl) hv
  · exact fun s r k d' hl hr => h.once s r k d' (hcell hl) (hcell hr)
  · intro k r g hk hv
    obtain ⟨hn, hv'⟩ := h.timely k r g hk hv
    exact ⟨fun ht => hn (htook ht), hv'⟩
  · intro d' hl hn
    by_cases he : d'.stamp = d.stamp
    · rw [he]
      exact h.unknown _ hs
    · rw [Ledger.record_of_ne he] at hl
      exact h.unopened d' hl fun ho => hn (ho.mono hw)
  · intro s hl
    by_cases he : s = d.stamp
    · rw [he, Ledger.record_self] at hl
      simp at hl
    · exact h.unknown s (by rwa [Ledger.record_of_ne he] at hl)
  · exact fun d' ho hv w hmem => (h.complete d' (htook ho) hv w hmem).mono hw

end Memory.Accords

end MultiSwap
