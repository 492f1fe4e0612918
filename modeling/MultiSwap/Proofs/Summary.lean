import MultiSwap.Element.Keyed
import MultiSwap.Word.Merge
import Mathlib.Data.List.Induction
import Mathlib.Data.List.Nodup
import Mathlib.Data.List.Perm.Basic
import Mathlib.Tactic.Common

/-! What merged words are. Each slot that is asked for has one merged word, slots ascending, with the
expected value of the first word on the slot and the desired value of the last. There is no merged
list exactly if a later word on some slot differs from the first one there. So words on different
slots may come in any order, and merging again changes nothing. Nothing is assumed of the equality:
a value need not even equal itself.

Merging looks at the last merged word only. What makes that enough is the order of sorted words: the
last merged word is then on the highest slot so far, so it is the one on the slot of the next word, if
there is one. And sorting is stable, so the words on a slot come in call order. -/

namespace MultiSwap.Word

variable {α : Type}

/-- The words on slot `i`, in call order. -/
def onSlot (i : Nat) (ws : List (Word α)) : List (Word α) := ws.filter fun w => w.index == i

/-- One word for each slot, ascending, made of the first and the last word on it. -/
structure Summary (ws ms : List (Word α)) : Prop where
  ascending : ms.Pairwise fun v w => v.index < w.index
  slots : ∀ i, (∃ x ∈ ms, x.index = i) ↔ ∃ w ∈ ws, w.index = i
  expected : ∀ x ∈ ms, ∃ v, (onSlot x.index ws).head? = some v ∧ x.expected = v.expected
  desired : ∀ x ∈ ms, ∃ v, (onSlot x.index ws).getLast? = some v ∧ x.desired = v.desired

theorem mem_onSlot {i : Nat} {ws : List (Word α)} {w : Word α} :
    w ∈ onSlot i ws ↔ w ∈ ws ∧ w.index = i := by
  simp [onSlot]

theorem exists_index_iff {i : Nat} {ws : List (Word α)} :
    (∃ w ∈ ws, w.index = i) ↔ onSlot i ws ≠ [] := by
  simp [onSlot, List.filter_eq_nil_iff]

theorem onSlot_concat (i : Nat) (ws : List (Word α)) (w : Word α) :
    onSlot i (ws ++ [w]) = onSlot i ws ++ if w.index = i then [w] else [] := by
  by_cases h : w.index = i <;> simp [onSlot, h]

theorem onSlot_of_ascending {ms : List (Word α)} (h : ms.Pairwise fun v w => v.index < w.index)
    {x : Word α} (hx : x ∈ ms) : onSlot x.index ms = [x] := by
  induction ms with
  | nil => simp at hx
  | cons v rest ih =>
    obtain ⟨hv, hrest⟩ := List.pairwise_cons.1 h
    rcases List.mem_cons.1 hx with rfl | hx
    · have hnone : onSlot x.index rest = [] :=
        List.filter_eq_nil_iff.2 fun w hw => by simp [Nat.ne_of_gt (hv w hw)]
      rw [onSlot, List.filter_cons_of_pos (by simp), ← onSlot, hnone]
    · rw [onSlot, List.filter_cons_of_neg (by simp [Nat.ne_of_lt (hv x hx)])]
      exact ih hrest hx

theorem onSlot_cons (i : Nat) (w : Word α) (ws : List (Word α)) :
    onSlot i (w :: ws) = if w.index = i then w :: onSlot i ws else onSlot i ws := by
  by_cases h : w.index = i <;> simp [onSlot, h]

/-- Words whose slots do not descend are told by the words on each slot. -/
theorem eq_of_onSlot {ws ws' : List (Word α)} (h : ws.Pairwise fun v w => v.index ≤ w.index)
    (h' : ws'.Pairwise fun v w => v.index ≤ w.index) (hs : ∀ i, onSlot i ws = onSlot i ws') :
    ws = ws' := by
  have hmem {l l' : List (Word α)} (hl : ∀ i, onSlot i l = onSlot i l') {x : Word α} (hx : x ∈ l) :
      x ∈ l' := (mem_onSlot.1 (hl x.index ▸ mem_onSlot.2 ⟨hx, rfl⟩)).1
  induction ws generalizing ws' with
  | nil =>
    refine (List.eq_nil_iff_forall_not_mem.2 fun x hx => ?_).symm
    exact absurd (hmem (fun i => (hs i).symm) hx) List.not_mem_nil
  | cons v rest ih =>
    cases ws' with
    | nil => exact absurd (hmem hs List.mem_cons_self) List.not_mem_nil
    | cons u rest' =>
      obtain ⟨hv, hrest⟩ := List.pairwise_cons.1 h
      obtain ⟨hu, hrest'⟩ := List.pairwise_cons.1 h'
      have hi : v.index = u.index := by
        apply Nat.le_antisymm
        · rcases List.mem_cons.1 (hmem (fun i => (hs i).symm) List.mem_cons_self) with he | he
          · exact Nat.le_of_eq (congrArg index he.symm)
          · exact hv u he
        · rcases List.mem_cons.1 (hmem hs List.mem_cons_self) with he | he
          · exact Nat.le_of_eq (congrArg index he.symm)
          · exact hu v he
      have hfirst := hs v.index
      rw [onSlot_cons, onSlot_cons, if_pos rfl, if_pos hi.symm] at hfirst
      obtain ⟨rfl, htail⟩ := List.cons.inj hfirst
      refine congrArg (v :: ·) (ih hrest hrest' fun i => ?_)
      by_cases hvi : v.index = i
      · exact hvi ▸ htail
      · have hi := hs i
        rwa [onSlot_cons, onSlot_cons, if_neg hvi, if_neg hvi] at hi

theorem onSlot_insertSorted (i : Nat) (w : Word α) (ws : List (Word α)) :
    onSlot i (insertSorted w ws) = onSlot i (w :: ws) := by
  induction ws with
  | nil => rfl
  | cons v rest ih =>
    unfold insertSorted
    by_cases hlt : v.index < w.index
    · rw [if_pos hlt, onSlot_cons, ih]
      simp only [onSlot_cons]
      -- the two words that change places are on different slots
      by_cases hv : v.index = i
      · rw [if_pos hv, if_neg (by omega), if_neg (by omega), if_pos hv]
      · rw [if_neg hv, if_neg hv]
    · rw [if_neg hlt]

/-- Sorting is stable. -/
theorem onSlot_sorted (i : Nat) (ws : List (Word α)) : onSlot i (sorted ws) = onSlot i ws := by
  induction ws with
  | nil => rfl
  | cons w rest ih =>
    show onSlot i (insertSorted w (sorted rest)) = _
    rw [onSlot_insertSorted, onSlot_cons, onSlot_cons, ih]

theorem pairwise_insertSorted {w : Word α} {ws : List (Word α)}
    (h : ws.Pairwise fun v w => v.index ≤ w.index) :
    (insertSorted w ws).Pairwise fun v w => v.index ≤ w.index := by
  induction ws with
  | nil => simp [insertSorted]
  | cons v rest ih =>
    obtain ⟨hv, hrest⟩ := List.pairwise_cons.1 h
    unfold insertSorted
    by_cases hlt : v.index < w.index
    · rw [if_pos hlt]
      refine List.pairwise_cons.2 ⟨fun x hx => ?_, ih hrest⟩
      have hx' : x ∈ onSlot x.index (w :: rest) := by
        rw [← onSlot_insertSorted]
        exact mem_onSlot.2 ⟨hx, rfl⟩
      rcases List.mem_cons.1 (mem_onSlot.1 hx').1 with rfl | hx
      · exact Nat.le_of_lt hlt
      · exact hv x hx
    · rw [if_neg hlt]
      refine List.pairwise_cons.2 ⟨fun x hx => ?_, h⟩
      rcases List.mem_cons.1 hx with rfl | hx
      · exact Nat.le_of_not_lt hlt
      · exact Nat.le_trans (Nat.le_of_not_lt hlt) (hv x hx)

theorem pairwise_sorted (ws : List (Word α)) :
    (sorted ws).Pairwise fun v w => v.index ≤ w.index := by
  induction ws with
  | nil => exact List.Pairwise.nil
  | cons w rest ih => exact pairwise_insertSorted ih

theorem sorted_eq_mergeSort (ws : List (Word α)) :
    sorted ws = ws.mergeSort fun v w => v.index ≤ w.index := by
  have htrans (a b c : Word α) (hab : decide (a.index ≤ b.index) = true)
      (hbc : decide (b.index ≤ c.index) = true) : decide (a.index ≤ c.index) = true :=
    decide_eq_true (Nat.le_trans (of_decide_eq_true hab) (of_decide_eq_true hbc))
  have htotal (a b : Word α) : (decide (a.index ≤ b.index) || decide (b.index ≤ a.index)) = true := by
    simpa using Nat.le_total a.index b.index
  refine eq_of_onSlot (pairwise_sorted ws) ?_ fun i => ?_
  · exact (List.pairwise_mergeSort htrans htotal ws).imp of_decide_eq_true
  · -- the words on one slot are in order as they stand, so they keep it
    have hpair : (onSlot i ws).Pairwise fun v w => decide (v.index ≤ w.index) = true := by
      refine List.pairwise_of_forall_mem_list fun v hv w hw => decide_eq_true ?_
      exact Nat.le_of_eq ((mem_onSlot.1 hv).2.trans (mem_onSlot.1 hw).2.symm)
    have hsub : (onSlot i ws).Sublist (onSlot i (ws.mergeSort fun v w => v.index ≤ w.index)) := by
      have hfilter := (List.sublist_mergeSort htrans htotal hpair List.filter_sublist).filter
        fun w => w.index == i
      simpa [onSlot] using hfilter
    rw [onSlot_sorted]
    exact hsub.eq_of_length ((List.mergeSort_perm ws _).filter _).length_eq.symm

namespace Summary

variable {ws ws' ms ms' : List (Word α)}

theorem mem_of_mem (h : Summary ws ms) (h' : Summary ws ms') {x : Word α} (hx : x ∈ ms) :
    x ∈ ms' := by
  obtain ⟨y, hy, hi⟩ := (h'.slots x.index).2 ((h.slots x.index).1 ⟨x, hx, rfl⟩)
  obtain ⟨v, hv, hxv⟩ := h.expected x hx
  obtain ⟨u, hu, hyu⟩ := h'.expected y hy
  obtain ⟨v', hv', hxv'⟩ := h.desired x hx
  obtain ⟨u', hu', hyu'⟩ := h'.desired y hy
  rw [hi, hv] at hu
  rw [hi, hv'] at hu'
  cases hu
  cases hu'
  obtain ⟨i, e, d⟩ := x
  obtain ⟨j, e', d'⟩ := y
  simp only at hi hxv hyu hxv' hyu'
  rwa [← hi, hxv, hxv', ← hyu, ← hyu']

theorem unique (h : Summary ws ms) (h' : Summary ws ms') : ms = ms' := by
  have hnodup {l : List (Word α)} (hl : l.Pairwise fun v w => v.index < w.index) : l.Nodup :=
    hl.imp fun {v w} hlt (he : v = w) => Nat.lt_irrefl _ (he ▸ hlt)
  have hperm : ms.Perm ms' := (List.perm_ext_iff_of_nodup (hnodup h.ascending)
    (hnodup h'.ascending)).2 fun _ => ⟨h.mem_of_mem h', h'.mem_of_mem h⟩
  exact hperm.eq_of_pairwise (fun a b _ _ hab hba => absurd hab (Nat.lt_asymm hba)) h.ascending
    h'.ascending

theorem congr (hws : ∀ i, onSlot i ws' = onSlot i ws) (h : Summary ws ms) : Summary ws' ms := by
  refine ⟨h.ascending, fun i => ?_, fun x hx => ?_, fun x hx => ?_⟩
  · rw [h.slots, exists_index_iff, exists_index_iff, hws]
  · rw [hws]
    exact h.expected x hx
  · rw [hws]
    exact h.desired x hx

theorem refl (h : ms.Pairwise fun v w => v.index < w.index) : Summary ms ms :=
  ⟨h, fun _ => Iff.rfl, fun x hx => ⟨x, by rw [onSlot_of_ascending h hx]; rfl, rfl⟩,
    fun x hx => ⟨x, by rw [onSlot_of_ascending h hx]; rfl, rfl⟩⟩

variable {w last : Word α}

theorem onSlot_eq_nil (h : Summary ws ms) {i : Nat} (hne : ∀ x ∈ ms, x.index ≠ i) :
    onSlot i ws = [] := by
  by_contra hno
  obtain ⟨x, hx, hi⟩ := (h.slots i).2 (exists_index_iff.2 hno)
  exact hne x hx hi

theorem push (h : Summary ws ms) (hlt : ∀ x ∈ ms, x.index < w.index) :
    Summary (ws ++ [w]) (ms ++ [w]) := by
  have hnone : onSlot w.index ws = [] := h.onSlot_eq_nil fun x hx => Nat.ne_of_lt (hlt x hx)
  have hslot {x : Word α} (hx : x ∈ ms) : onSlot x.index (ws ++ [w]) = onSlot x.index ws := by
    rw [onSlot_concat, if_neg (Nat.ne_of_gt (hlt x hx)), List.append_nil]
  constructor
  · refine List.pairwise_append.2 ⟨h.ascending, List.pairwise_singleton _ _, fun x hx y hy => ?_⟩
    rw [List.mem_singleton.1 hy]
    exact hlt x hx
  · intro i
    simp only [List.mem_append, List.mem_singleton, or_and_right, exists_or, h.slots]
  · intro x hx
    rcases List.mem_append.1 hx with hx | hx
    · rw [hslot hx]
      exact h.expected x hx
    · rw [List.mem_singleton.1 hx, onSlot_concat, hnone, if_pos rfl]
      exact ⟨w, rfl, rfl⟩
  · intro x hx
    rcases List.mem_append.1 hx with hx | hx
    · rw [hslot hx]
      exact h.desired x hx
    · rw [List.mem_singleton.1 hx, onSlot_concat, hnone, if_pos rfl]
      exact ⟨w, rfl, rfl⟩

theorem renew (h : Summary ws (ms ++ [last])) (hi : last.index = w.index) :
    Summary (ws ++ [w]) (ms ++ [{ last with desired := w.desired }]) := by
  obtain ⟨hms, -, hlt⟩ := List.pairwise_append.1 h.ascending
  have hlast : last ∈ ms ++ [last] := by simp
  have hslot {x : Word α} (hx : x ∈ ms) : onSlot x.index (ws ++ [w]) = onSlot x.index ws := by
    have := hlt x hx last (List.mem_singleton_self last)
    rw [onSlot_concat, if_neg (by omega), List.append_nil]
  have hnew : onSlot last.index (ws ++ [w]) = onSlot last.index ws ++ [w] := by
    rw [onSlot_concat, if_pos hi.symm]
  constructor
  · refine List.pairwise_append.2 ⟨hms, List.pairwise_singleton _ _, fun x hx y hy => ?_⟩
    rw [List.mem_singleton.1 hy]
    exact hlt x hx last (List.mem_singleton_self last)
  · intro i
    have hold := h.slots i
    simp only [List.mem_append, List.mem_singleton, or_and_right, exists_or, exists_eq_left]
      at hold ⊢
    rw [hold, ← hi, or_iff_left_of_imp]
    rintro rfl
    exact (h.slots last.index).1 ⟨last, hlast, rfl⟩
  · intro x hx
    rcases List.mem_append.1 hx with hx | hx
    · rw [hslot hx]
      exact h.expected x (List.mem_append_left _ hx)
    · obtain ⟨v, hv, he⟩ := h.expected last hlast
      rw [List.mem_singleton.1 hx, hnew]
      exact ⟨v, by rw [List.head?_append, hv]; rfl, he⟩
  · intro x hx
    rcases List.mem_append.1 hx with hx | hx
    · rw [hslot hx]
      exact h.desired x (List.mem_append_left _ hx)
    · rw [List.mem_singleton.1 hx, hnew, List.getLast?_concat]
      exact ⟨w, rfl, rfl⟩

end Summary

variable [BEq α]

/-- Some word expects another value of its slot than the first word there. -/
def Contradicts (ws : List (Word α)) : Prop :=
  ∃ i first later, onSlot i ws = first :: later ∧
    ∃ w ∈ later, (first.expected != w.expected) = true

theorem Contradicts.congr {ws ws' : List (Word α)} (hws : ∀ i, onSlot i ws' = onSlot i ws)
    (h : Contradicts ws) : Contradicts ws' := by
  obtain ⟨i, first, later, hi, hlater⟩ := h
  exact ⟨i, first, later, (hws i).trans hi, hlater⟩

theorem contradicts_concat {ws : List (Word α)} {w : Word α} :
    Contradicts (ws ++ [w]) ↔ Contradicts ws ∨
      ∃ first, (onSlot w.index ws).head? = some first ∧
        (first.expected != w.expected) = true := by
  constructor
  · rintro ⟨i, first, later, hi, u, hu, hne⟩
    rw [onSlot_concat] at hi
    by_cases hw : w.index = i
    · subst hw
      rw [if_pos rfl] at hi
      cases hold : onSlot w.index ws with
      | nil =>
        rw [hold] at hi
        obtain ⟨-, rfl⟩ := List.cons.inj hi
        simp at hu
      | cons v rest =>
        rw [hold] at hi
        obtain ⟨rfl, rfl⟩ := List.cons.inj hi
        rcases List.mem_append.1 hu with hu | hu
        · exact Or.inl ⟨w.index, v, rest, hold, u, hu, hne⟩
        · rw [List.mem_singleton.1 hu] at hne
          exact Or.inr ⟨v, rfl, hne⟩
    · rw [if_neg hw, List.append_nil] at hi
      exact Or.inl ⟨i, first, later, hi, u, hu, hne⟩
  · rintro (⟨i, first, later, hi, u, hu, hne⟩ | ⟨first, hfirst, hne⟩)
    · refine ⟨i, first, later ++ if w.index = i then [w] else [], ?_, u, ?_, hne⟩
      · rw [onSlot_concat, hi, List.cons_append]
      · exact List.mem_append_left _ hu
    · obtain ⟨later, hlater⟩ := List.head?_eq_some_iff.1 hfirst
      refine ⟨w.index, first, later ++ [w], ?_, w, by simp, hne⟩
      rw [onSlot_concat, hlater, if_pos rfl, List.cons_append]

theorem not_contradicts_of_ascending {ms : List (Word α)}
    (h : ms.Pairwise fun v w => v.index < w.index) : ¬ Contradicts ms := by
  rintro ⟨i, first, later, hi, w, hw, -⟩
  obtain ⟨hmem, rfl⟩ := mem_onSlot.1 (hi ▸ List.mem_cons_self : first ∈ onSlot i ms)
  rw [onSlot_of_ascending h hmem] at hi
  obtain ⟨-, rfl⟩ := List.cons.inj hi
  simp at hw

/-- What merging words comes to. -/
def Merges (ws : List (Word α)) : Option (List (Word α)) → Prop
  | none => Contradicts ws
  | some ms => ¬ Contradicts ws ∧ Summary ws ms

namespace Merges

variable {ws ws' ms : List (Word α)} {w : Word α}

theorem congr (hws : ∀ i, onSlot i ws' = onSlot i ws) {o : Option (List (Word α))}
    (h : Merges ws o) : Merges ws' o := by
  cases o with
  | none => exact Contradicts.congr hws h
  | some ms => exact ⟨fun hc => h.1 (hc.congr fun i => (hws i).symm), h.2.congr hws⟩

theorem push (h : Merges ws (some ms)) (hlt : ∀ x ∈ ms, x.index < w.index) :
    Merges (ws ++ [w]) (some (ms ++ [w])) := by
  refine ⟨fun hc => ?_, h.2.push hlt⟩
  obtain ⟨first, hfirst, -⟩ := (contradicts_concat.1 hc).resolve_left h.1
  rw [h.2.onSlot_eq_nil fun x hx => Nat.ne_of_lt (hlt x hx)] at hfirst
  cases hfirst

/-- If words come by ascending slots, only the last merged word can be on the slot of the next. -/
theorem mergeLast (h : Merges ws (some ms)) (hw : ∀ v ∈ ws, v.index ≤ w.index) :
    Merges (ws ++ [w]) (Word.mergeLast ms w) := by
  rcases ms.eq_nil_or_concat' with rfl | ⟨init, last, rfl⟩
  · exact h.push fun x hx => absurd hx List.not_mem_nil
  have hlast : last ∈ init ++ [last] := by simp
  simp only [Word.mergeLast, List.getLast?_concat, List.dropLast_concat]
  by_cases hi : last.index = w.index
  · obtain ⟨v, hv, he⟩ := h.2.expected last hlast
    rw [hi] at hv
    rw [if_pos hi]
    by_cases hne : (last.expected != w.expected) = true
    · rw [if_pos hne]
      exact contradicts_concat.2 (Or.inr ⟨v, hv, he ▸ hne⟩)
    · rw [if_neg hne]
      refine ⟨fun hc => ?_, h.2.renew hi⟩
      obtain ⟨first, hfirst, hne'⟩ := (contradicts_concat.1 hc).resolve_left h.1
      rw [hv] at hfirst
      cases hfirst
      exact hne (he ▸ hne')
  · rw [if_neg hi]
    refine h.push fun x hx => ?_
    obtain ⟨v, hv, hvi⟩ := (h.2.slots last.index).1 ⟨last, hlast, rfl⟩
    have hle := hw v hv
    rcases List.mem_append.1 hx with hx | hx
    · have hlt := (List.pairwise_append.1 h.2.ascending).2.2 x hx last (List.mem_singleton_self _)
      omega
    · rw [List.mem_singleton.1 hx]
      omega

theorem foldlM (h : ws.Pairwise fun v w => v.index ≤ w.index) :
    Merges ws (ws.foldlM Word.mergeLast []) := by
  -- on the words merged so far, of which `Merges` says what they came to
  induction ws using List.reverseRecOn with
  | nil =>
    refine ⟨?_, .refl List.Pairwise.nil⟩
    rintro ⟨i, first, later, hi, -⟩
    cases hi
  | append_singleton ws w ih =>
    obtain ⟨hws, -, hw⟩ := List.pairwise_append.1 h
    rw [List.foldlM_append]
    generalize ws.foldlM Word.mergeLast [] = o at ih
    cases o with
    | none => exact contradicts_concat.2 (Or.inl (ih hws))
    | some ms =>
      have hstep := (ih hws).mergeLast fun v hv => hw v hv w (List.mem_singleton_self w)
      simpa using hstep

end Merges

theorem merges_merge? (ws : List (Word α)) : Merges ws (merge? ws) :=
  (Merges.foldlM (pairwise_sorted ws)).congr fun i => (onSlot_sorted i ws).symm

theorem summary_of_merge? {ws ms : List (Word α)} (h : merge? ws = some ms) : Summary ws ms := by
  have hm := merges_merge? ws
  rw [h] at hm
  exact hm.2

theorem merge?_eq_none_iff (ws : List (Word α)) : merge? ws = none ↔ Contradicts ws := by
  have hm := merges_merge? ws
  cases ho : merge? ws with
  | none =>
    rw [ho] at hm
    exact iff_of_true rfl hm
  | some ms =>
    rw [ho] at hm
    exact iff_of_false (by simp) hm.1

theorem merge?_eq_some_iff (ws ms : List (Word α)) :
    merge? ws = some ms ↔ ¬ Contradicts ws ∧ Summary ws ms := by
  constructor
  · intro h
    exact ⟨by simp [← merge?_eq_none_iff, h], summary_of_merge? h⟩
  · rintro ⟨hno, hsum⟩
    rw [← merge?_eq_none_iff, ← Ne, Option.ne_none_iff_exists'] at hno
    obtain ⟨ms', hm⟩ := hno
    rw [hm, (summary_of_merge? hm).unique hsum]

theorem merge?_congr {ws ws' : List (Word α)} (h : ∀ i, onSlot i ws' = onSlot i ws) :
    merge? ws' = merge? ws := by
  apply Option.ext
  intro ms
  have hback (i : Nat) : onSlot i ws = onSlot i ws' := (h i).symm
  rw [merge?_eq_some_iff, merge?_eq_some_iff]
  exact ⟨fun hm => ⟨fun hc => hm.1 (hc.congr h), hm.2.congr hback⟩,
    fun hm => ⟨fun hc => hm.1 (hc.congr hback), hm.2.congr h⟩⟩

/-- Merging sorts the words, and merges each with the last one before it or with none. There are no
merged words exactly if some word contradicts the first one on its slot, and else they are the summary
of the given words. They stay the same when words on different slots change places, and when they are
merged again. -/
theorem merging_summarizes (ws : List (Word α)) :
    merge? ws = (ws.mergeSort fun v w => v.index ≤ w.index).foldlM mergeLast [] ∧
      (merge? ws = none ↔ Contradicts ws) ∧
      (∀ ms, merge? ws = some ms ↔ ¬ Contradicts ws ∧ Summary ws ms) ∧
      (∀ ws', ws'.Perm ws → (∀ i, onSlot i ws' = onSlot i ws) → merge? ws' = merge? ws) ∧
      ∀ ms, merge? ws = some ms → merge? ms = some ms := by
  refine ⟨by rw [← sorted_eq_mergeSort, merge?], merge?_eq_none_iff ws, merge?_eq_some_iff ws,
    fun ws' _ h => merge?_congr h, ?_⟩
  intro ms hm
  have hsum := summary_of_merge? hm
  exact (merge?_eq_some_iff ms ms).2 ⟨not_contradicts_of_ascending hsum.ascending, .refl hsum.ascending⟩

/-- Records with equal keys are merged: the tag that is expected is that of the first. -/
theorem merging_summarizes_keyed :
    let record (key : Int) (tag : String) : Element.Keyed := ⟨⟨key⟩, tag⟩
    let low : Word Element.Keyed := ⟨1, record 0 "c", record 1 "d"⟩
    let first : Word Element.Keyed := ⟨2, record 5 "a", record 6 "b"⟩
    let last : Word Element.Keyed := ⟨2, record 5 "x", record 7 "y"⟩
    let ms : List (Word Element.Keyed) := [low, ⟨2, record 5 "a", record 7 "y"⟩]
    merge? [first, low, last] = some ms ∧ Summary [first, low, last] ms ∧
      merge? [first, last, low] = some ms ∧ merge? ms = some ms := by
  intro record low first last ms
  have hm : merge? [first, low, last] = some ms := rfl
  obtain ⟨-, -, hsome, hperm, hagain⟩ := merging_summarizes [first, low, last]
  have hmoved (i : Nat) : onSlot i [first, last, low] = onSlot i [first, low, last] := by
    by_cases hone : i = 1
    · subst hone
      rfl
    · simp [onSlot, List.filter_cons, low, Ne.symm hone]
  refine ⟨hm, ((hsome ms).1 hm).2, ?_, hagain ms hm⟩
  rw [hperm [first, last, low] ((List.Perm.swap low last []).cons first) hmoved, hm]

end MultiSwap.Word
