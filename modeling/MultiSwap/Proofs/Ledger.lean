import MultiSwap.Memory.Logical
import Mathlib.Data.List.Nodup
import Mathlib.Data.List.Perm.Subperm
import Mathlib.Tactic.Common

/-! A ledger says what each stamp of a run stands for: a cell that was put into a slot, or an
operation. It only grows, so what it says of the past stays true: whether a slot was ever claimed
for an operation is read off it, whatever the slot holds now. -/

namespace MultiSwap

variable {α : Type}

theorem Word.ascending_iff (ws : List (Word α)) :
    Word.ascending ws = true ↔ ws.Pairwise fun v w => v.index < w.index := by
  induction ws with
  | nil => simp [Word.ascending]
  | cons v rest ih =>
    cases rest with
    | nil => simp [Word.ascending]
    | cons w rest =>
      simp only [Word.ascending, Bool.and_eq_true, decide_eq_true_eq, ih, List.pairwise_cons]
      constructor
      · intro h
        obtain ⟨hvw, hw, hrest⟩ := h
        refine ⟨fun x hx => ?_, hw, hrest⟩
        rcases List.mem_cons.1 hx with rfl | hx
        · exact hvw
        · exact Nat.lt_trans hvw (hw x hx)
      · intro h
        obtain ⟨hv, hw, hrest⟩ := h
        exact ⟨hv w List.mem_cons_self, hw, hrest⟩

namespace Descriptor

/-- The words are several, ascend, and name slots that an array of `n` slots has. -/
structure Formed (n : Nat) (d : Descriptor α) : Prop where
  several : d.others ≠ []
  ascending : d.words.Pairwise fun v w => v.index < w.index
  inBounds : ∀ w ∈ d.words, w.index < n

@[simp] theorem length_words (d : Descriptor α) : d.words.length = d.others.length + 1 := rfl

theorem first_mem (d : Descriptor α) : d.first ∈ d.words := List.mem_cons_self

theorem mem_of_others {d : Descriptor α} {w : Word α} (h : w ∈ d.others) : w ∈ d.words :=
  List.mem_cons_of_mem _ h

theorem Formed.first_lt {n : Nat} {d : Descriptor α} (h : d.Formed n) {w : Word α}
    (hw : w ∈ d.others) : d.first.index < w.index :=
  (List.pairwise_cons.1 h.ascending).1 w hw

theorem Formed.nodup {n : Nat} {d : Descriptor α} (h : d.Formed n) :
    (d.words.map fun w => w.index).Nodup := by
  rw [List.Nodup, List.pairwise_map]
  exact h.ascending.imp fun hlt => Nat.ne_of_lt hlt

theorem Formed.length_le {n : Nat} {d : Descriptor α} (h : d.Formed n) : d.words.length ≤ n := by
  have hsub : d.words.map (fun w => w.index) ⊆ List.range n := by
    intro k hk
    obtain ⟨w, hw, rfl⟩ := List.mem_map.1 hk
    exact List.mem_range.2 (h.inBounds w hw)
  have hle := (h.nodup.subperm hsub).length_le
  rwa [List.length_map, List.length_range] at hle

theorem Formed.eq_of_index {n : Nat} {d : Descriptor α} (h : d.Formed n) {v w : Word α}
    (hv : v ∈ d.words) (hw : w ∈ d.words) (he : v.index = w.index) : v = w :=
  List.inj_on_of_nodup_map h.nodup hv hw he

theorem Formed.wordAt_eq {n : Nat} {d : Descriptor α} (h : d.Formed n) {w : Word α}
    (hw : w ∈ d.words) : d.wordAt w.index = some w := by
  have hs : (d.words.find? fun v => v.index == w.index).isSome := by
    rw [List.find?_isSome]
    exact ⟨w, hw, by simp⟩
  obtain ⟨v, hv⟩ := Option.isSome_iff_exists.1 hs
  have hi : v.index = w.index := by simpa using List.find?_some hv
  rw [wordAt, hv, h.eq_of_index (List.mem_of_find?_eq_some hv) hw hi]

end Descriptor

inductive Entry (α : Type) where
  | cell (slot : Nat) (content : Content α)
  | operation (d : Descriptor α)

abbrev Ledger (α : Type) := Stamp → Option (Entry α)

namespace Ledger

def record (L : Ledger α) (s : Stamp) (e : Entry α) : Ledger α :=
  fun r => if r = s then some e else L r

def Took (L : Ledger α) (d : Descriptor α) (slot : Nat) : Prop :=
  ∃ s, L s = some (.cell slot (.claimed d))

/-- The first slot was claimed for `d`, which is when other threads can first meet it. -/
def Opened (L : Ledger α) (d : Descriptor α) : Prop := L.Took d d.first.index

def Within (L L' : Ledger α) : Prop := ∀ s e, L s = some e → L' s = some e

theorem record_self (L : Ledger α) (s : Stamp) (e : Entry α) : L.record s e s = some e :=
  if_pos rfl

theorem record_of_ne {L : Ledger α} {s r : Stamp} (h : r ≠ s) (e : Entry α) :
    L.record s e r = L r :=
  if_neg h

theorem Within.refl (L : Ledger α) : L.Within L := fun _ _ h => h

theorem within_record {L : Ledger α} {s : Stamp} (h : L s = none) (e : Entry α) :
    L.Within (L.record s e) := by
  intro r e' hr
  rw [record_of_ne (by rintro rfl; simp [h] at hr), hr]

theorem cell_eq {L : Ledger α} {k j : Nat} {c : Cell α} (hc : L c.stamp = some (.cell k c.content))
    {s : Stamp} {x : Content α} (hs : L s = some (.cell j x)) (he : c.stamp = s) :
    k = j ∧ c = ⟨s, x⟩ := by
  rw [he, hs] at hc
  cases hc
  subst he
  exact ⟨rfl, rfl⟩

theorem Took.mono {L L' : Ledger α} (h : L.Within L') {d : Descriptor α} {k : Nat}
    (ht : L.Took d k) : L'.Took d k :=
  ht.imp fun _ hs => h _ _ hs

theorem Opened.mono {L L' : Ledger α} (h : L.Within L') {d : Descriptor α}
    (ho : L.Opened d) : L'.Opened d :=
  Took.mono h ho

theorem took_record {L : Ledger α} {s : Stamp} {e : Entry α} {d : Descriptor α} {k : Nat}
    (h : (L.record s e).Took d k) : L.Took d k ∨ e = .cell k (.claimed d) := by
  obtain ⟨r, hr⟩ := h
  by_cases hrs : r = s
  · subst hrs
    rw [record_self] at hr
    exact Or.inr (Option.some.inj hr)
  · exact Or.inl ⟨r, by rwa [record_of_ne hrs] at hr⟩

end Ledger

variable [BEq α]

/-- What an entry may say in the ledger of an array of `n` slots. Handoffs and claims are of
operations that were opened, on slots that these ask for, and a handoff keeps a value that its word
expects. -/
def Entry.Fits (L : Ledger α) (n : Nat) (s : Stamp) : Entry α → Prop
  | .cell k (.plain _) => k < n
  | .cell k (.reserved h) =>
    k < n ∧ h.slot = k ∧ L.Opened h.operation ∧
      ∃ w ∈ h.operation.others, w.index = k ∧ (h.kept == w.expected) = true
  | .cell k (.claimed d) =>
    k < n ∧ L.Opened d ∧ L d.stamp = some (.operation d) ∧ ∃ w ∈ d.words, w.index = k
  | .operation d => d.stamp = s ∧ d.Formed n

theorem Entry.Fits.mono {L L' : Ledger α} (h : L.Within L') {n : Nat} {s : Stamp} {e : Entry α}
    (he : e.Fits L n s) : e.Fits L' n s := by
  rcases e with ⟨k, _ | g | d⟩ | d
  · exact he
  · obtain ⟨hk, hs, ho, hw⟩ := he
    exact ⟨hk, hs, ho.mono h, hw⟩
  · obtain ⟨hk, ho, hd, hw⟩ := he
    exact ⟨hk, ho.mono h, h _ _ hd, hw⟩
  · exact he

namespace Ledger

def Formed (L : Ledger α) (n : Nat) : Prop := ∀ s e, L s = some e → e.Fits L n s

theorem Formed.record {L : Ledger α} {n : Nat} (h : L.Formed n) {s : Stamp} {e : Entry α}
    (hs : L s = none) (he : e.Fits (L.record s e) n s) : (L.record s e).Formed n := by
  intro r e' hr
  by_cases hrs : r = s
  · subst hrs
    rw [record_self] at hr
    cases hr
    exact he
  · rw [record_of_ne hrs] at hr
    exact (h r e' hr).mono (within_record hs e)

variable {L : Ledger α} {n : Nat}

theorem Formed.slot_lt (h : L.Formed n) {s : Stamp} {k : Nat} {x : Content α}
    (hs : L s = some (.cell k x)) : k < n := by
  have hf := h s _ hs
  cases x with
  | plain v => exact hf
  | reserved g => exact hf.1
  | claimed d => exact hf.1

theorem Formed.reserved (h : L.Formed n) {s : Stamp} {k : Nat} {g : Handoff α}
    (hs : L s = some (.cell k (.reserved g))) :
    g.slot = k ∧ L.Opened g.operation ∧
      ∃ w ∈ g.operation.others, w.index = k ∧ (g.kept == w.expected) = true :=
  (h s _ hs).2

theorem Formed.opened_of_took (h : L.Formed n) {d : Descriptor α} {k : Nat} (ht : L.Took d k) :
    L.Opened d := by
  obtain ⟨s, hs⟩ := ht
  exact (h s _ hs).2.1

theorem Formed.known_of_took (h : L.Formed n) {d : Descriptor α} {k : Nat} (ht : L.Took d k) :
    L d.stamp = some (.operation d) := by
  obtain ⟨s, hs⟩ := ht
  exact (h s _ hs).2.2.1

theorem Formed.word_of_took (h : L.Formed n) {d : Descriptor α} {k : Nat} (ht : L.Took d k) :
    ∃ w ∈ d.words, w.index = k := by
  obtain ⟨s, hs⟩ := ht
  exact (h s _ hs).2.2.2

theorem Formed.known (h : L.Formed n) {d : Descriptor α} (ho : L.Opened d) :
    L d.stamp = some (.operation d) :=
  h.known_of_took ho

theorem Formed.descriptor (h : L.Formed n) {s : Stamp} {d : Descriptor α}
    (hs : L s = some (.operation d)) : d.Formed n :=
  (h s _ hs).2

theorem Formed.descriptor_of_opened (h : L.Formed n) {d : Descriptor α} (ho : L.Opened d) :
    d.Formed n :=
  h.descriptor (h.known ho)

theorem Formed.eq_of_stamp (h : L.Formed n) {d d' : Descriptor α} (hd : L.Opened d)
    (hd' : L.Opened d') (he : d.stamp = d'.stamp) : d = d' := by
  have hk := h.known hd
  rw [he, h.known hd'] at hk
  cases hk
  rfl

end Ledger

end MultiSwap
