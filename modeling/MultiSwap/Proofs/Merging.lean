import MultiSwap.Call.OnList
import MultiSwap.Proofs.Ledger
import MultiSwap.Proofs.Summary

/-! Merged words ask for the same slots as the words they were merged from, and mean the same on a
plain list: they find their expected values on the same lists, and leave the same list behind. -/

namespace MultiSwap

variable {α : Type}

namespace Word

variable [BEq α] {ws ms : List (Word α)}

theorem expected_of_merge? (h : merge? ws = some ms) {x w : Word α} (hx : x ∈ ms) (hw : w ∈ ws)
    (hi : w.index = x.index) : w.expected = x.expected ∨ (x.expected == w.expected) = true := by
  obtain ⟨first, hfirst, he⟩ := (summary_of_merge? h).expected x hx
  obtain ⟨later, hlater⟩ := List.head?_eq_some_iff.1 hfirst
  have hmem : w ∈ first :: later := hlater ▸ mem_onSlot.2 ⟨hw, hi⟩
  rcases List.mem_cons.1 hmem with rfl | hmem
  · exact Or.inl he.symm
  · refine Or.inr ?_
    by_contra hne
    have hno : ¬ Contradicts ws := by simp [← merge?_eq_none_iff, h]
    exact hno ⟨x.index, first, later, hlater, w, hmem, by simpa [← he, bne] using hne⟩

end Word

namespace Call

theorem writeAll_cons (w : Word α) (ws : List (Word α)) (vs : List α) :
    writeAll (w :: ws) vs = writeAll ws (vs.set w.index w.desired) := rfl

theorem writeAll_append (ws ws' : List (Word α)) (vs : List α) :
    writeAll (ws ++ ws') vs = writeAll ws' (writeAll ws vs) := List.foldl_append

theorem writeAll_set {ws : List (Word α)} {i : Nat} (h : ∀ w ∈ ws, w.index ≠ i) (x : α)
    (vs : List α) : writeAll ws (vs.set i x) = (writeAll ws vs).set i x := by
  induction ws generalizing vs with
  | nil => rfl
  | cons w rest ih =>
    rw [writeAll_cons, writeAll_cons, List.set_comm _ _ (h w List.mem_cons_self).symm]
    exact ih (fun v hv => h v (List.mem_cons_of_mem _ hv)) _

theorem getElem?_writeAll_of_ne {ws : List (Word α)} {i : Nat} (h : ∀ w ∈ ws, w.index ≠ i)
    (vs : List α) : (writeAll ws vs)[i]? = vs[i]? := by
  induction ws generalizing vs with
  | nil => rfl
  | cons w rest ih =>
    rw [writeAll_cons, ih fun v hv => h v (List.mem_cons_of_mem _ hv)]
    exact List.getElem?_set_ne (h w List.mem_cons_self)

theorem getElem?_writeAll_of_distinct {ws : List (Word α)}
    (hws : ws.Pairwise fun v w => v.index ≠ w.index) {w : Word α} (hw : w ∈ ws) {vs : List α}
    (hi : w.index < vs.length) : (writeAll ws vs)[w.index]? = some w.desired := by
  induction ws generalizing vs with
  | nil => simp at hw
  | cons v rest ih =>
    obtain ⟨hv, hrest⟩ := List.pairwise_cons.1 hws
    rw [writeAll_cons]
    rcases List.mem_cons.1 hw with rfl | hw
    · rw [getElem?_writeAll_of_ne fun u hu => (hv u hu).symm]
      exact List.getElem?_set_self hi
    · exact ih hrest hw (by rwa [List.length_set])

theorem getElem?_writeAll {ws : List (Word α)} (hws : ws.Pairwise fun v w => v.index < w.index)
    {w : Word α} (hw : w ∈ ws) {vs : List α} (hi : w.index < vs.length) :
    (writeAll ws vs)[w.index]? = some w.desired :=
  getElem?_writeAll_of_distinct (hws.imp fun h => Nat.ne_of_lt h) hw hi

theorem getElem?_writeAll_last {before after : List (Word α)} {w : Word α} {vs : List α}
    (hi : w.index < vs.length) (ha : ∀ x ∈ after, x.index ≠ w.index) :
    (writeAll (before ++ w :: after) vs)[w.index]? = some w.desired := by
  rw [writeAll_append, writeAll_cons, getElem?_writeAll_of_ne ha]
  exact List.getElem?_set_self (by rwa [length_writeAll])

theorem getElem?_writeAll_onSlot (ws : List (Word α)) {vs : List α} {k : Nat}
    (hk : k < vs.length) : (writeAll ws vs)[k]? =
      ((Word.onSlot k ws).getLast?.map (·.desired)).or vs[k]? := by
  induction ws using List.reverseRecOn with
  | nil => rfl
  | append_singleton ws w ih =>
    rw [writeAll_append, writeAll_cons, Word.onSlot_concat]
    show ((writeAll ws vs).set w.index w.desired)[k]? = _
    by_cases hw : w.index = k
    · subst hw
      rw [if_pos rfl, List.getLast?_concat]
      exact List.getElem?_set_self (by rwa [length_writeAll])
    · rw [if_neg hw, List.append_nil, ← ih]
      exact List.getElem?_set_ne hw

theorem writeAll_reverse {ws : List (Word α)} (hws : ws.Pairwise fun v w => v.index ≠ w.index)
    (vs : List α) : writeAll ws.reverse vs = writeAll ws vs := by
  induction ws generalizing vs with
  | nil => rfl
  | cons w rest ih =>
    obtain ⟨hw, hrest⟩ := List.pairwise_cons.1 hws
    rw [List.reverse_cons, writeAll_append, ih hrest]
    exact (writeAll_set (fun v hv => (hw v hv).symm) _ _).symm

variable [BEq α]

def holds (w : Word α) (vs : List α) : Bool := vs[w.index]?.any (· == w.expected)

theorem allHold_cons (w : Word α) (ws : List (Word α)) (vs : List α) :
    allHold (w :: ws) vs = (holds w vs && allHold ws vs) := rfl

theorem allHold_singleton (w : Word α) (vs : List α) : allHold [w] vs = holds w vs := by
  rw [allHold_cons]
  exact Bool.and_true _

theorem allHold_iff {ws : List (Word α)} {vs : List α} :
    allHold ws vs = true ↔ ∀ w ∈ ws, ∃ v, vs[w.index]? = some v ∧ (v == w.expected) = true := by
  simp [allHold, List.all_eq_true, Option.any_eq_true]

variable {ws ms : List (Word α)}

theorem writeAll_merge? (h : Word.merge? ws = some ms) (vs : List α) :
    writeAll ms vs = writeAll ws vs := by
  have hsum := Word.summary_of_merge? h
  have hlast (k : Nat) : (Word.onSlot k ms).getLast?.map (·.desired) =
      (Word.onSlot k ws).getLast?.map (·.desired) := by
    by_cases hk : ∃ x ∈ ms, x.index = k
    · obtain ⟨x, hx, rfl⟩ := hk
      obtain ⟨v, hv, he⟩ := hsum.desired x hx
      rw [Word.onSlot_of_ascending hsum.ascending hx, hv]
      exact congrArg some he
    · have hno : ∀ x ∈ ms, x.index ≠ k := fun x hx hi => hk ⟨x, hx, hi⟩
      rw [hsum.onSlot_eq_nil hno, Word.onSlot, List.filter_eq_nil_iff.2 fun x hx => by simp [hno x hx]]
  refine List.ext_getElem? fun k => ?_
  by_cases hk : k < vs.length
  · rw [getElem?_writeAll_onSlot ms hk, getElem?_writeAll_onSlot ws hk, hlast]
  · have hge := Nat.le_of_not_lt hk
    rw [List.getElem?_eq_none, List.getElem?_eq_none] <;> rwa [length_writeAll]

variable [PartialEquivBEq α]

theorem allHold_merge? (h : Word.merge? ws = some ms) (vs : List α) :
    allHold ms vs = allHold ws vs := by
  have hsum := Word.summary_of_merge? h
  rw [Bool.eq_iff_iff, allHold_iff, allHold_iff]
  constructor
  · intro hms w hw
    obtain ⟨x, hx, hi⟩ := (hsum.slots w.index).2 ⟨w, hw, rfl⟩
    obtain ⟨v, hv, he⟩ := hms x hx
    refine ⟨v, hi ▸ hv, ?_⟩
    rcases Word.expected_of_merge? h hx hw hi.symm with hxw | hxw
    · rwa [hxw]
    · exact PartialEquivBEq.trans he hxw
  · intro hws x hx
    obtain ⟨first, hfirst, he⟩ := hsum.expected x hx
    obtain ⟨hmem, hi⟩ := Word.mem_onSlot.1 (List.mem_of_head? hfirst)
    obtain ⟨v, hv, hve⟩ := hws first hmem
    exact ⟨v, hi ▸ hv, he ▸ hve⟩

theorem allHold_of_merge?_none (h : Word.merge? ws = none) (vs : List α) :
    allHold ws vs = false := by
  obtain ⟨i, first, later, hi, w, hw, hne⟩ := (Word.merge?_eq_none_iff ws).1 h
  rw [← Bool.not_eq_true, allHold_iff]
  intro hall
  obtain ⟨hfirst, rfl⟩ := Word.mem_onSlot.1 (hi ▸ List.mem_cons_self : first ∈ Word.onSlot i ws)
  obtain ⟨hmem, hwi⟩ := Word.mem_onSlot.1 (hi ▸ List.mem_cons_of_mem _ hw)
  obtain ⟨u, hu, hue⟩ := hall first hfirst
  obtain ⟨v, hv, hve⟩ := hall w hmem
  rw [hwi, hu] at hv
  cases hv
  rw [bne, PartialEquivBEq.trans (PartialEquivBEq.symm hue) hve] at hne
  cases hne

/-- An exchange means the same before and after its words are merged. -/
theorem exchangeOnList_merge? (h : Word.merge? ws = some ms) (vs : List α) :
    exchangeOnList ms vs = exchangeOnList ws vs := by
  unfold exchangeOnList
  rw [allHold_merge? h, writeAll_merge? h]

theorem exchangeOnList_of_merge?_none (h : Word.merge? ws = none) (vs : List α) :
    exchangeOnList ws vs = (vs, .flag false) := by
  unfold exchangeOnList
  rw [allHold_of_merge?_none h]
  rfl

end Call

end MultiSwap
