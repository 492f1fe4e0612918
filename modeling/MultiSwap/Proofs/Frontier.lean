import MultiSwap.Proofs.Effort
import MultiSwap.Proofs.Growth
import Mathlib.Logic.Relation

/-! How far a pending operation has come. The slots that it holds are those of its first words, and
it never loses one of them while it is pending. Only the next word is worked at: nobody claims for
the operation beyond it, and a handoff to the operation can only be in its slot. An operation whose
next slot is held by another pending one waits for an operation that is further up, so operations
never wait for each other in a circle. -/

namespace MultiSwap

variable {σ α : Type}

namespace Memory

def heldWords (m : Memory α) (d : Descriptor α) : List (Word α) :=
  d.words.filter fun w => m.claims d w.index

/-- The word of `d` that comes after as many words as it holds slots. -/
def nextWord (m : Memory α) (d : Descriptor α) : Option (Word α) :=
  d.words[(m.heldWords d).length]?

end Memory

/-- The operation for which a frame is about to claim a slot, and the word that asks for this. -/
def Frame.claiming : Frame α → Option (Descriptor α × Word α)
  | check d word _ | claim d word _ | offer d word _ _ _ => some (d, word)
  | _ => none

/-- Where an operation stands: behind its first words. Its handoffs and the claim loops that work
for it are at the next word, or behind that. -/
structure System.Fronts (s : System σ α) (d : Descriptor α) : Prop where
  held : s.memory.heldWords d <+: d.words
  begun : s.memory.heldWords d ≠ []
  handoff : ∀ (k : Nat) c, s.memory.slots[k]? = some c → c.isHandoffTo d = true →
    ∃ w, s.memory.nextWord d = some w ∧ w.index = k
  alone : ∀ (j k : Nat) b c, s.memory.slots[j]? = some b → s.memory.slots[k]? = some c →
    b.isHandoffTo d = true → c.isHandoffTo d = true → j = k
  claiming : ∀ (t : Nat) th f d' w, s.threads[t]? = some th → f ∈ th.strand.stack →
    f.claiming = some (d', w) → d'.stamp = d.stamp →
      w ∈ s.memory.heldWords d ∨ s.memory.nextWord d = some w

/-- The next slot of `d` is held by `d'`, and both operations are pending. -/
def Run.Waits (r : Run σ α) (d d' : Descriptor α) : Prop :=
  r.history.Opened d ∧ r.system.memory.verdict d.stamp = .pending ∧
    r.system.memory.verdict d'.stamp = .pending ∧
    ∃ w, r.system.memory.nextWord d = some w ∧ r.system.memory.Holds d' w.index

section

variable {m : Memory α} {d : Descriptor α} {n : Nat} {w : Word α}

/-- If a slot is held only along with those below it, the slots held are those of the first words. -/
theorem Descriptor.Formed.exists_rest (hd : d.Formed n)
    (hdown : ∀ v ∈ d.words, ∀ w ∈ d.words, v.index < w.index → m.claims d w.index = true →
      m.claims d v.index = true) :
    ∃ rest, d.words = m.heldWords d ++ rest ∧ ∀ w ∈ rest, m.claims d w.index = false := by
  have hsplit (ws : List (Word α)) (hasc : ws.Pairwise fun v w => v.index < w.index)
      (hws : ∀ w ∈ ws, w ∈ d.words) : ∃ rest,
        ws = ws.filter (fun w => m.claims d w.index) ++ rest ∧
          ∀ w ∈ rest, m.claims d w.index = false := by
    induction ws with
    | nil => exact ⟨[], rfl, by simp⟩
    | cons v ws ih =>
      obtain ⟨hv, hasc⟩ := List.pairwise_cons.1 hasc
      by_cases hc : m.claims d v.index = true
      · obtain ⟨rest, he, hrest⟩ := ih hasc fun w hw => hws w (List.mem_cons_of_mem _ hw)
        refine ⟨rest, ?_, hrest⟩
        rw [List.filter_cons, if_pos hc, List.cons_append, ← he]
      · -- what comes after a word that is not held is not held either
        have hnone : ∀ w ∈ v :: ws, m.claims d w.index = false := by
          intro w hw
          rw [← Bool.not_eq_true]
          rcases List.mem_cons.1 hw with rfl | hw
          · exact hc
          · exact fun hcw => hc (hdown v (hws v List.mem_cons_self) w
              (hws w (List.mem_cons_of_mem _ hw)) (hv w hw) hcw)
        refine ⟨v :: ws, ?_, hnone⟩
        rw [List.filter_eq_nil_iff.2 fun w hw => by simp [hnone w hw], List.nil_append]
  exact hsplit d.words hd.ascending fun w hw => hw

theorem Memory.mem_heldWords : w ∈ m.heldWords d ↔ w ∈ d.words ∧ m.claims d w.index = true :=
  List.mem_filter

theorem Descriptor.Formed.nextWord_eq_some_iff (hd : d.Formed n)
    (hdown : ∀ v ∈ d.words, ∀ w ∈ d.words, v.index < w.index → m.claims d w.index = true →
      m.claims d v.index = true) :
    m.nextWord d = some w ↔ w ∈ d.words ∧ m.claims d w.index = false ∧
      ∀ v ∈ d.words, v.index < w.index → m.claims d v.index = true := by
  obtain ⟨rest, he, hrest⟩ := hd.exists_rest hdown
  have hnext : m.nextWord d = rest.head? := by
    rw [Memory.nextWord, he, List.getElem?_append_right (Nat.le_refl _), Nat.sub_self,
      List.head?_eq_getElem?]
  have hasc := hd.ascending
  rw [he] at hasc
  have hpost := (List.pairwise_append.1 hasc).2.1
  have hmem {v : Word α} (hv : v ∈ rest) : v ∈ d.words := he ▸ List.mem_append_right _ hv
  have hheld {v : Word α} (hv : v ∈ d.words) (hn : v ∉ rest) : m.claims d v.index = true := by
    rw [he] at hv
    exact (Memory.mem_heldWords.1 ((List.mem_append.1 hv).resolve_right hn)).2
  rw [hnext]
  constructor
  · intro hw
    obtain ⟨later, rfl⟩ := List.head?_eq_some_iff.1 hw
    refine ⟨hmem List.mem_cons_self, hrest w List.mem_cons_self, fun v hv hlt => hheld hv ?_⟩
    intro hin
    rcases List.mem_cons.1 hin with rfl | hin
    · exact Nat.lt_irrefl _ hlt
    · exact Nat.lt_asymm hlt ((List.pairwise_cons.1 hpost).1 v hin)
  · rintro ⟨hw, hc, hbelow⟩
    have hin : w ∈ rest := by
      by_contra hn
      rw [hheld hw hn] at hc
      simp at hc
    cases rest with
    | nil => simp at hin
    | cons v later =>
      rcases List.mem_cons.1 hin with rfl | hin
      · rfl
      · -- the first word of the rest would be held, being below `w`
        have hlt := (List.pairwise_cons.1 hpost).1 w hin
        have hv := hrest v List.mem_cons_self
        rw [hbelow v (hmem List.mem_cons_self) hlt] at hv
        simp at hv

end

variable [BEq α] {client : Client σ α}

theorem System.Ascends.claims_of_lt {s : System σ α} {L : Ledger α} (ha : s.Ascends L)
    (hm : s.memory.Accords L) {d : Descriptor α} (ho : L.Opened d)
    (hv : s.memory.verdict d.stamp = .pending) {v w : Word α} (hmem : v ∈ d.words)
    (hlt : v.index < w.index) (hw : s.memory.claims d w.index = true) :
    s.memory.claims d v.index = true :=
  (hm.claims_iff ho).2
    (ha.holds hm (hm.took ((hm.claims_iff ho).1 hw)) hv hmem (Nat.le_of_lt hlt))

theorem Frame.Sound.reached {f : Frame α} {L : Ledger α} {m : Memory α} {owner : Nat}
    (hf : f.Sound L m owner) {d : Descriptor α} {w : Word α} (hc : f.claiming = some (d, w)) :
    ∃ rest, L.Reached d (w :: rest) := by
  cases f <;> simp only [claiming, Option.some.injEq, Prod.mk.injEq, reduceCtorEq] at hc
  all_goals obtain ⟨rfl, rfl⟩ := hc
  case check => exact ⟨_, hf⟩
  case claim => exact ⟨_, hf⟩
  case offer => exact ⟨_, hf.1⟩

namespace Course

variable {values : Array α} {states : List σ} {r : Run σ α} {L : Ledger α}

section

variable (h : Course client values states r L) {d : Descriptor α} (ho : L.Opened d)
  (hv : r.system.memory.verdict d.stamp = .pending)

include h ho hv

theorem nextWord_eq_some_iff {w : Word α} :
    r.system.memory.nextWord d = some w ↔ w ∈ d.words ∧
      r.system.memory.claims d w.index = false ∧
        ∀ v ∈ d.words, v.index < w.index → r.system.memory.claims d v.index = true := by
  have hm := h.sound.accords
  exact (hm.formed.descriptor_of_opened ho).nextWord_eq_some_iff fun v hmem w _ hlt =>
    h.ascends.claims_of_lt hm ho hv hmem hlt

theorem heldWords_prefix : r.system.memory.heldWords d <+: d.words := by
  have hm := h.sound.accords
  obtain ⟨rest, he, -⟩ := (hm.formed.descriptor_of_opened ho).exists_rest fun v hmem w _ hlt =>
    h.ascends.claims_of_lt hm ho hv hmem hlt
  exact ⟨rest, he.symm⟩

theorem nextWord_of_climbed {w : Word α} (hw : w ∈ d.words) (hc : L.Climbed d w.index)
    (hn : r.system.memory.claims d w.index = false) : r.system.memory.nextWord d = some w := by
  have hm := h.sound.accords
  refine (h.nextWord_eq_some_iff ho hv).2 ⟨hw, hn, fun v hmem hlt => ?_⟩
  exact (hm.claims_iff ho).2 (hm.holds (hc v hmem hlt) hv)

theorem nextWord_of_handoff {k : Nat} {c : Cell α} (hc : r.system.memory.slots[k]? = some c)
    (hd : c.isHandoffTo d = true) : ∃ w, r.system.memory.nextWord d = some w ∧ w.index = k := by
  have hm := h.sound.accords
  have hl := hm.cells k c hc
  rcases hx : c.content with v | g | d' <;> simp only [Cell.isHandoffTo, hx] at hd
  · simp at hd
  · rw [hx] at hl
    obtain ⟨-, hg, w, hw, rfl, -⟩ := hm.formed.reserved hl
    have hclimbed := h.ascends.reserved _ _ _ hl
    obtain rfl : g.operation = d := hm.formed.eq_of_stamp hg ho (by simpa using hd)
    refine ⟨w, h.nextWord_of_climbed ho hv (Descriptor.mem_of_others hw) hclimbed ?_, rfl⟩
    rw [Memory.claims_of_slot hc, Cell.isClaimedBy, hx]
  · simp at hd

theorem fronts : r.system.Fronts d := by
  have hm := h.sound.accords
  have hd := hm.formed.descriptor_of_opened ho
  have handoff {k : Nat} {c : Cell α} (hc : r.system.memory.slots[k]? = some c)
      (hto : c.isHandoffTo d = true) := h.nextWord_of_handoff ho hv hc hto
  refine ⟨h.heldWords_prefix ho hv, ?_, fun k c hc hto => handoff hc hto, ?_, ?_⟩
  · have hfirst : d.first ∈ r.system.memory.heldWords d :=
      Memory.mem_heldWords.2 ⟨d.first_mem, (hm.claims_iff ho).2 (hm.holds ho hv)⟩
    exact List.ne_nil_of_mem hfirst
  · intro j k b c hb hc hto hto'
    obtain ⟨v, hv, rfl⟩ := handoff hb hto
    obtain ⟨w, hw, rfl⟩ := handoff hc hto'
    rw [Option.some.inj (hv.symm.trans hw)]
  · intro t th f d' w ht hf hclaim hstamp
    obtain ⟨rest, hr⟩ := ((h.sound.threads t th ht).frames f hf).reached hclaim
    obtain rfl : d' = d := hm.formed.eq_of_stamp hr.1 ho hstamp
    have hw := Descriptor.mem_of_others hr.mem
    by_cases hheld : r.system.memory.claims d' w.index = true
    · exact Or.inl (Memory.mem_heldWords.2 ⟨hw, hheld⟩)
    · exact Or.inr (h.nextWord_of_climbed ho hv hw (hr.climbed hd) (by simpa using hheld))

theorem heldWords_prefix_steps {us : List Nat}
    (hv' : (r.steps client us).system.memory.verdict d.stamp = .pending) :
    r.system.memory.heldWords d <+: (r.steps client us).system.memory.heldWords d := by
  obtain ⟨L', h', hg⟩ := h.steps_grows us
  have hm := h.sound.accords
  have ho' := ho.mono hg.within
  have hkept (w : Word α) (hw : r.system.memory.claims d w.index = true) :
      (r.steps client us).system.memory.claims d w.index = true := by
    have ht := hm.took ((hm.claims_iff ho).1 hw)
    exact (h'.sound.accords.claims_iff ho').2 (h'.sound.accords.holds (ht.mono hg.within) hv')
  have hsub : (r.system.memory.heldWords d).Sublist
      ((r.steps client us).system.memory.heldWords d) := List.monotone_filter_right _ hkept
  -- both are the first words of `d`, so the longer list begins with the shorter one
  exact List.prefix_of_prefix_length_le (h.heldWords_prefix ho hv) (h'.heldWords_prefix ho' hv')
    hsub.length_le

end

theorem lt_of_waits (h : Course client values states r L) {d d' : Descriptor α}
    (hw : r.Waits d d') {w w' : Word α} (hn : r.system.memory.nextWord d = some w)
    (hn' : r.system.memory.nextWord d' = some w') : w.index < w'.index := by
  obtain ⟨-, -, hv', v, hv, hh⟩ := hw
  obtain rfl : v = w := Option.some.inj (hv.symm.trans hn)
  have hm := h.sound.accords
  have ht := hm.took hh
  have ho' := hm.formed.opened_of_took ht
  obtain ⟨hmem, hfree, -⟩ := (h.nextWord_eq_some_iff ho' hv').1 hn'
  by_contra hle
  have hheld := (hm.claims_iff ho').2 (h.ascends.holds hm ht hv' hmem (by omega))
  rw [hheld] at hfree
  simp at hfree

theorem lt_of_waits_chain (h : Course client values states r L) {d d' : Descriptor α}
    (hw : Relation.TransGen r.Waits d d') {w w' : Word α}
    (hn : r.system.memory.nextWord d = some w) (hn' : r.system.memory.nextWord d' = some w') :
    w.index < w'.index := by
  induction hw generalizing w' with
  | single hw => exact h.lt_of_waits hw hn hn'
  | tail _ hw ih =>
    obtain ⟨-, -, -, v, hv, -⟩ := id hw
    exact Nat.lt_trans (ih hv) (h.lt_of_waits hw hv hn')

theorem not_waits_self (h : Course client values states r L) (d : Descriptor α) :
    ¬ Relation.TransGen r.Waits d d := by
  intro hw
  obtain ⟨d', ⟨-, -, -, w, hn, -⟩, -⟩ := Relation.TransGen.head'_iff.1 hw
  exact Nat.lt_irrefl _ (h.lt_of_waits_chain hw hn hn)

end Course

/-- In every run, each pending operation that was opened holds the slots of its first words, loses
none of them while it is pending, and waits only for operations that are further up. -/
theorem Run.claims_climb (client : Client σ α) (values : Array α) (states : List σ)
    (ts : List Nat) :
    let r := (Run.new (.ofValues values) states).steps client ts
    (∀ d, r.history.Opened d → r.system.memory.verdict d.stamp = .pending →
      r.system.Fronts d ∧ ∀ us : List Nat,
        (r.steps client us).system.memory.verdict d.stamp = .pending →
          r.system.memory.heldWords d <+: (r.steps client us).system.memory.heldWords d) ∧
      (∀ d d' w w', r.Waits d d' → r.system.memory.nextWord d = some w →
        r.system.memory.nextWord d' = some w' → w.index < w'.index) ∧
        ∀ d, ¬ Relation.TransGen r.Waits d d := by
  intro r
  obtain ⟨L, h⟩ : ∃ L, Course client values states r L := exists_course client values states ts
  refine ⟨fun d hd hv => ?_, fun d d' w w' hw => h.lt_of_waits hw, h.not_waits_self⟩
  obtain ⟨t, old, s, he⟩ := hd
  have ho : L.Opened d := ⟨s, (h.chronicle.swapped t _ old _ he).2⟩
  exact ⟨h.fronts ho hv, fun us => h.heldWords_prefix_steps ho hv⟩

/-- One operation has claimed slot 0 and waits for slot 1, which is the first of another. -/
theorem Run.claims_climb_dcas :
    let r := (Run.new (.ofValues #[0, 0, 0]) [[.dcas 0 0 1 1 0 1], [.dcas 1 0 2 2 0 2]]).steps
      .script (List.replicate 3 0 ++ List.replicate 3 1)
    let d : Descriptor Nat := ⟨⟨1, 0⟩, ⟨0, 0, 1⟩, [⟨1, 0, 1⟩]⟩
    let d' : Descriptor Nat := ⟨⟨2, 0⟩, ⟨1, 0, 2⟩, [⟨2, 0, 2⟩]⟩
    r.system.Fronts d ∧ r.system.memory.heldWords d = [⟨0, 0, 1⟩] ∧
      r.system.memory.heldWords d <+: (r.steps .script [1]).system.memory.heldWords d ∧
        r.Waits d d' ∧ (1 : Nat) < 2 ∧ ¬ Relation.TransGen r.Waits d d := by
  intro r d d'
  have he : r.history[4]? =
      some (0, .swapped 0 ⟨⟨0, 0⟩, .plain 0⟩ true ⟨⟨1, 2⟩, .claimed d⟩) := by
    unfold r d
    cbv
  have hv : r.system.memory.verdict d.stamp = .pending := by decide +kernel
  have hv' : r.system.memory.verdict d'.stamp = .pending := by decide +kernel
  have hlater : (r.steps .script [1]).system.memory.verdict d.stamp = .pending := by
    decide +kernel
  have hheld : r.system.memory.heldWords d = [⟨0, 0, 1⟩] := by
    unfold r d
    cbv
  have hnext : r.system.memory.nextWord d = some ⟨1, 0, 1⟩ := by
    unfold r d
    cbv
  have hnext' : r.system.memory.nextWord d' = some ⟨2, 0, 2⟩ := by
    unfold r d'
    cbv
  have hslot : r.system.memory.slots[1]? = some ⟨⟨2, 2⟩, .claimed d'⟩ := by
    unfold r d'
    cbv
  obtain ⟨hall, hlt, hno⟩ : _ ∧ _ ∧ _ := Run.claims_climb .script #[0, 0, 0]
    [[.dcas 0 0 1 1 0 1], [.dcas 1 0 2 2 0 2]] (List.replicate 3 0 ++ List.replicate 3 1)
  have hopened : r.history.Opened d := ⟨0, _, _, List.mem_of_getElem? he⟩
  have hwaits : r.Waits d d' := ⟨hopened, hv, hv', _, hnext, _, hslot⟩
  obtain ⟨hfronts, hgrow⟩ := hall d hopened hv
  exact ⟨hfronts, hheld, hgrow [1] hlater, hwaits, hlt d d' _ _ hwaits hnext hnext', hno d⟩

end MultiSwap
