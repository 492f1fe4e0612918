import MultiSwap.Element.Binary64
import MultiSwap.Element.Keyed
import MultiSwap.Proofs.Session

/-! What an exchange does to an array that its caller has alone, for an equality that need not be
identity. It is made exactly if every word as it was given finds an equal value, and then the last
word on each slot stays. If it is not made, the slots before the first that differs may hold other
values than before, though equal ones: an operation gives back what it expected, not what was
there. -/

namespace MultiSwap

variable {α : Type} [BEq α]

namespace Call

theorem flag_exchangeAlone [PartialEquivBEq α] (ws : List (Word α)) (vs : List α) :
    (exchangeAlone ws vs).2 = .flag (allHold ws vs) := by
  cases hm : Word.merge? ws with
  | none => rw [exchangeAlone_of_merge?_none hm, allHold_of_merge?_none hm]
  | some ms => rw [exchangeAlone_of_merge? hm, allHold_merge? hm]

theorem exchangeAlone_of_holds [PartialEquivBEq α] {ws : List (Word α)} {vs : List α}
    (h : allHold ws vs = true) : (exchangeAlone ws vs).1 = writeAll ws vs := by
  cases hm : Word.merge? ws with
  | none =>
    rw [allHold_of_merge?_none hm] at h
    cases h
  | some ms =>
    rw [← allHold_merge? hm] at h
    rw [exchangeAlone_of_merge? hm, h, leading_of_allHold h]
    exact (congrArg (writeAll · vs) (List.map_id ms)).trans (writeAll_merge? hm vs)

theorem getElem?_exchangeAlone {ws : List (Word α)} {k : Nat} (h : ∀ w ∈ ws, w.index ≠ k)
    (vs : List α) : (exchangeAlone ws vs).1[k]? = vs[k]? := by
  cases hm : Word.merge? ws with
  | none => rw [exchangeAlone_of_merge?_none hm]
  | some ms =>
    rw [exchangeAlone_of_merge? hm]
    refine getElem?_writeAll_of_ne (fun w hw => ?_) vs
    obtain ⟨x, hx, rfl⟩ := List.mem_map.1 hw
    obtain ⟨y, hy, hi⟩ := ((Word.summary_of_merge? hm).slots x.index).1
      ⟨x, (leading_sublist _ _).subset hx, rfl⟩
    rw [Word.index_leaving, ← hi]
    exact h y hy

end Call

namespace Session

theorem exists_mcas (values : Array α) (calls : List (Call α)) {words : List (Word α)}
    (hlt : ∀ w ∈ words, w.index < values.size) :
    ∃ vs, vs.length = values.size ∧ ((ofValues values).after calls).memory.AtRest vs ∧
      (((ofValues values).after calls).perform (.mcas words)).1.memory.AtRest
        (Call.exchangeAlone words vs).1 ∧
      (((ofValues values).after calls).perform (.mcas words)).2.answer =
        some (Call.exchangeAlone words vs).2 := by
  obtain ⟨vs, h, hlen⟩ := (owns_ofValues values).after calls
  have hlen' : vs.length = values.size := hlen.trans values.length_toList
  obtain ⟨h', ha⟩ := h.perform (.mcas words)
  have hb : (Call.mcas words).firstBeyond vs.length = none :=
    Call.firstBeyond_eq_none_iff.2 (by simpa [Call.slots, hlen'] using hlt)
  rw [Call.alone_of_exchange hb rfl] at h' ha
  exact ⟨vs, hlen', h.atRest, h'.atRest, ha⟩

/-- An exchange is made exactly if every word finds an equal value in its slot. Then the last word
on each slot stays. No other slot changes, and no slot is left with work in progress. -/
theorem mcas_meaning [PartialEquivBEq α] (values : Array α) (calls : List (Call α))
    (words : List (Word α)) (hlt : ∀ w ∈ words, w.index < values.size) :
    ∃ vs vs' b, ((ofValues values).after calls).memory.AtRest vs ∧
      (((ofValues values).after calls).perform (.mcas words)).1.memory.AtRest vs' ∧
      (((ofValues values).after calls).perform (.mcas words)).2.answer = some (.flag b) ∧
      (b = true ↔ ∀ w ∈ words, ∃ v, vs[w.index]? = some v ∧ (v == w.expected) = true) ∧
      (b = true → ∀ before w after, words = before ++ w :: after →
        (∀ x ∈ after, x.index ≠ w.index) → vs'[w.index]? = some w.desired) ∧
      ∀ k, (∀ w ∈ words, w.index ≠ k) → vs'[k]? = vs[k]? := by
  obtain ⟨vs, hlen, h, h', ha⟩ := exists_mcas values calls hlt
  rw [Call.flag_exchangeAlone] at ha
  refine ⟨vs, _, _, h, h', ha, Call.allHold_iff, fun hall => ?_, fun k hk => ?_⟩
  · rintro before w after rfl hlast
    rw [Call.exchangeAlone_of_holds hall]
    exact Call.getElem?_writeAll_last (hlen ▸ hlt w (by simp)) hlast
  · exact Call.getElem?_exchangeAlone hk vs

/-- Zeros of either sign are equal, and nothing equals what is no number. -/
theorem mcas_meaning_zeros :
    let zero : Element.Binary64 := ⟨0⟩
    let minusZero : Element.Binary64 := ⟨0x8000000000000000⟩
    let nan : Element.Binary64 := ⟨0x7FF8000000000000⟩
    let values := #[zero, minusZero, nan]
    let calls : List (Call Element.Binary64) := [.set 0 minusZero]
    let words : List (Word Element.Binary64) :=
      [⟨1, zero, nan⟩, ⟨0, zero, nan⟩, ⟨1, minusZero, zero⟩]
    let held := [minusZero, minusZero, nan]
    let left := [nan, zero, nan]
    (∀ w ∈ words, w.index < values.size) ∧
      ((ofValues values).after calls).memory.AtRest held ∧
      (((ofValues values).after calls).perform (.mcas words)).1.memory.AtRest left ∧
      (((ofValues values).after calls).perform (.mcas words)).2.answer = some (.flag true) ∧
      (∀ w ∈ words, ∃ v, held[w.index]? = some v ∧ (v == w.expected) = true) ∧
      (∀ before w after, words = before ++ w :: after →
        (∀ x ∈ after, x.index ≠ w.index) → left[w.index]? = some w.desired) ∧
      ∀ k, (∀ w ∈ words, w.index ≠ k) → left[k]? = held[k]? := by
  intro zero minusZero nan values calls words held left
  have hlt : ∀ w ∈ words, w.index < values.size := by decide
  obtain ⟨vs, vs', b, h, h', ha, hholds, hlast, hrest⟩ := mcas_meaning values calls words hlt
  obtain rfl : vs = held :=
    h.unique ((owns_ofValues values).perform (.set 0 minusZero)).1.atRest
  obtain rfl : b = true := hholds.2 (by
    rw [List.forall_mem_cons, List.forall_mem_cons, List.forall_mem_singleton]
    exact ⟨⟨minusZero, rfl, by decide⟩, ⟨minusZero, rfl, by decide⟩, ⟨minusZero, rfl, by decide⟩⟩)
  -- the last words on slots 1 and 0, and no word on slot 2 or beyond
  have h₀ := hlast rfl [⟨1, zero, nan⟩] ⟨0, zero, nan⟩ [⟨1, minusZero, zero⟩] rfl (by decide)
  have h₁ := hlast rfl [⟨1, zero, nan⟩, ⟨0, zero, nan⟩] ⟨1, minusZero, zero⟩ [] rfl (by simp)
  obtain rfl : vs' = left := by
    apply List.ext_getElem?
    intro k
    match k with
    | 0 => exact h₀
    | 1 => exact h₁
    | k + 2 => exact hrest (k + 2) (by simp [words])
  exact ⟨hlt, h, h', ha, hholds.1 rfl, hlast rfl, hrest⟩

end Session

end MultiSwap
