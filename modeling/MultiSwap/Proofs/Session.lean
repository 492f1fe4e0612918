import MultiSwap.Proofs.Outset
import MultiSwap.Proofs.Unopposed
import Mathlib.Tactic.Linarith

/-! An array in the hands of one caller. Every call is answered, and leaves the slots with plain
values and no work in progress. -/

namespace MultiSwap

variable {α : Type}

namespace Memory

variable {m : Memory α} {vs : List α} {d : Descriptor α}

theorem AtRest.content? (h : m.AtRest vs) (k : Nat) : m.content? k = vs[k]?.map .plain := by
  have hk := congrArg (fun l => l[k]?) h
  simpa [Memory.content?] using hk

theorem AtRest.size (h : m.AtRest vs) : m.size = vs.length := by
  simpa [Memory.size] using congrArg List.length h

theorem AtRest.unique {vs' : List α} (h : m.AtRest vs) (h' : m.AtRest vs') : vs = vs' :=
  List.map_injective_iff.2 (fun _ _ => Content.plain.inj) (h.symm.trans h')

theorem AtRest.spans (h : m.AtRest vs) (d : Descriptor α) : m.Spans d [] vs :=
  ⟨h.size, by simp, fun k _ => h.content? k⟩

theorem Spans.atRest (h : m.Spans d [] vs) : m.AtRest vs := by
  apply List.ext_getElem?
  intro k
  have hk := h.plain k (by simp)
  simpa [Memory.content?] using hk

theorem atRest_ofValues (values : Array α) : (ofValues values).AtRest values.toList := by
  apply List.ext_getElem?
  intro k
  simp only [ofValues, Array.toList_mapIdx, List.getElem?_map, List.getElem?_mapIdx]
  cases values.toList[k]? <;> rfl

theorem AtRest.exists_slot (h : m.AtRest vs) {k : Nat} (hk : k < vs.length) :
    ∃ v s, vs[k]? = some v ∧ m.slots[k]? = some ⟨s, .plain v⟩ := by
  have hv : vs[k]? = some vs[k] := List.getElem?_eq_getElem hk
  obtain ⟨s, hs⟩ := slot_of_content ((h.content? k).trans (by rw [hv, Option.map_some]))
  exact ⟨vs[k], s, hv, hs⟩

theorem AtRest.place (h : m.AtRest vs) {k : Nat} (s : Stamp) (v : α) :
    (m.place k ⟨s, .plain v⟩).AtRest (vs.set k v) := by
  simp only [AtRest, Memory.place, Array.toList_setIfInBounds, List.map_set]
  rw [h]

end Memory

/-- Strand `owner` has the answer and the values that `p` says, at clock `bound` at the latest. -/
def Ending (owner bound : Nat) (p : List α × Result α) : Goal α :=
  fun n m r => n ≤ bound ∧ m.Unused owner n ∧ m.AtRest p.1 ∧ r = p.2

variable [BEq α] {owner n bound : Nat} {m : Memory α} {vs : List α}

namespace Solo

open MultiSwap.Frame

theorem get {k : Nat} (hm : m.AtRest vs) (hu : m.Unused owner n) (hk : k < vs.length)
    (hn : n < bound) :
    Solo owner (Ending owner bound (vs, vs[k]?.elim .done .value)) n m [get k] := by
  obtain ⟨v, s, hv, hs⟩ := hm.exists_slot hk
  refine of_next (.got hs rfl) ⟨hn, hu.mono (Nat.le_succ n), hm, ?_⟩
  rw [hv]
  rfl

theorem set {k : Nat} {v : α} (hm : m.AtRest vs) (hu : m.Unused owner n) (hk : k < vs.length)
    (hn : n + 1 < bound) :
    Solo owner (Ending owner bound (vs.set k v, .done)) n m [set k v] := by
  obtain ⟨u, s, hv, hs⟩ := hm.exists_slot hk
  refine .goto (.setReady hs rfl) (of_next (.setWon hs rfl) ⟨hn, ?_, hm.place _ v, rfl⟩)
  exact fun tick ht => hu tick (by omega)

theorem contents {announced : Bool} {k left : Nat} {seen : List α} (hm : m.AtRest vs)
    (hu : m.Unused owner n) (hk : k + left + 1 = vs.length) (hseen : seen.reverse = vs.take k)
    (hn : n + left < bound) :
    Solo owner (Ending owner bound (vs, .values vs)) n m [contents announced k left seen] := by
  induction left generalizing n k seen with
  | zero =>
    obtain ⟨v, s, hv, hs⟩ := hm.exists_slot (k := k) (by omega)
    refine of_next (.gotLast hs rfl) ⟨hn, hu.mono (Nat.le_succ n), hm, ?_⟩
    have hall : vs.take (k + 1) = vs := List.take_of_length_le (by omega)
    rw [List.take_add_one, hv] at hall
    rw [List.reverse_cons, hseen]
    exact congrArg Result.values hall
  | succ left ih =>
    obtain ⟨v, s, hv, hs⟩ := hm.exists_slot (k := k) (by omega)
    refine .goto (.gotNext hs rfl) (ih (hu.mono (Nat.le_succ n)) (by omega) ?_ (by omega))
    rw [List.reverse_cons, hseen, List.take_add_one, hv]
    rfl

theorem exchange_one {w : Word α} (hm : m.AtRest vs) (hu : m.Unused owner n)
    (hk : w.index < vs.length) (hn : n + 1 < bound) :
    Solo owner (Ending owner bound (Call.writeAll ((Call.leading [w] vs).map
      (Word.leaving (Call.allHold [w] vs))) vs, .flag (Call.allHold [w] vs))) n m
      [cas w.index w.expected (.plain w.desired) none] := by
  obtain ⟨u, s, hv, hs⟩ := hm.exists_slot hk
  rw [Call.allHold_singleton]
  cases hw : Call.holds w vs with
  | true =>
    have he : (u == w.expected) = true := by simpa [Call.holds, hv] using hw
    rw [Call.leading_cons_of_holds hw]
    refine .goto (.casReady hs rfl he) (of_next (.casWon hs rfl) ⟨hn, ?_, hm.place _ _, rfl⟩)
    exact fun tick ht => hu tick (by omega)
  | false =>
    have he : (u == w.expected) = false := by simpa [Call.holds, hv] using hw
    rw [Call.leading_cons_of_misses hw]
    exact of_next (.casRefused hs rfl he) ⟨by omega, hu.mono (Nat.le_succ n), hm, rfl⟩

end Solo

theorem Outset.solo {c : Call α} {next : Next α} (h : Outset ⟨owner, n⟩ vs.length c next)
    (hm : m.AtRest vs) (hu : m.Unused owner n) (hn : n + 12 * vs.length + 3 ≤ bound) :
    next.Solo owner (Ending owner bound (c.alone vs)) (n + 1) m := by
  have hu' := hu.mono (Nat.le_succ n)
  -- a call that is answered at once leaves the memory as it is
  have hdone {r : Result α} (h : c.alone vs = (vs, r)) :
      Ending owner bound (c.alone vs) (n + 1) m r := by
    rw [h]
    exact ⟨by omega, hu', hm, rfl⟩
  cases h with
  | refused hb => exact hdone (Call.alone_of_refused hb)
  | len h =>
    subst h
    exact hdone (Call.alone_of_exchange?_none rfl)
  | isEmpty h =>
    subst h
    refine hdone ((Call.alone_of_exchange?_none rfl).trans ?_)
    cases vs <;> rfl
  | contradicted hb hc hx =>
    exact hdone ((Call.alone_of_exchange hb hc).trans (Call.exchangeAlone_of_merge?_none hx))
  | nothing hb hc hx =>
    exact hdone ((Call.alone_of_exchange hb hc).trans (Call.exchangeAlone_of_merge? hx))
  | noContents h h0 =>
    subst h
    refine hdone ((Call.alone_of_exchange?_none rfl).trans ?_)
    rw [List.length_eq_zero_iff.1 h0]
    rfl
  | @get k h hk =>
    subst h
    have hb : (Call.get k : Call α).firstBeyond vs.length = none :=
      Call.firstBeyond_eq_none_iff.2 (by simpa [Call.slots] using hk)
    rw [Call.alone_of_exchange?_none rfl, Call.onList, hb]
    exact Solo.get hm hu' hk (by omega)
  | @set k v h hk =>
    subst h
    have hb : (Call.set k v).firstBeyond vs.length = none :=
      Call.firstBeyond_eq_none_iff.2 (by simpa [Call.slots] using hk)
    rw [Call.alone_of_exchange?_none rfl, Call.onList, hb]
    exact Solo.set hm hu' hk (by omega)
  | contents h hk =>
    subst h
    rw [Call.alone_of_exchange?_none rfl]
    exact Solo.contents hm hu' (by omega) (by simp) (by omega)
  | single hb hc hx hk =>
    rw [Call.alone_of_exchange hb hc, Call.exchangeAlone_of_merge? hx]
    exact Solo.exchange_one hm hu' hk (by omega)
  | @many ws d hb hc hx hs hd =>
    rw [Call.alone_of_exchange hb hc, Call.exchangeAlone_of_merge? hx]
    refine Solo.exchange_many hd hs (hm.spans d) hu fun n' m' hn' hu' hm' => ?_
    exact ⟨by omega, hu', hm'.atRest, rfl⟩

/-- A call whose strand is alone is answered, and leaves the slots without work in progress. -/
theorem Strand.perform_alone {s : Strand α} (hm : m.AtRest vs) (hu : m.Unused s.owner s.clock)
    (c : Call α) : ∃ m' n' events, m'.AtRest (c.alone vs).1 ∧ m'.Unused s.owner n' ∧
      s.perform m c = ⟨m', ⟨s.owner, n', []⟩, events, some (c.alone vs).2⟩ := by
  have ho : Outset ⟨s.owner, s.clock⟩ vs.length c (c.start s.fresh m.size).next := by
    rw [← hm.size]
    exact c.outset _ _
  have hlong : s.clock + 12 * vs.length + 3 ≤ s.clock + 1 + patience m.size 0 := by
    rw [hm.size, patience]
    nlinarith
  obtain ⟨n', m', r, ⟨-, hu', hm', rfl⟩, events, he⟩ :=
    Strand.perform_of_solo (ho.solo hm hu hlong) fun n' m' r hq => hq.1
  exact ⟨m', n', events, hm', hu', he⟩

namespace Session

/-- The caller has all values to itself, and no work is in progress. -/
structure Owns (s : Session α) (vs : List α) : Prop where
  atRest : s.memory.AtRest vs
  unused : s.memory.Unused s.strand.owner s.strand.clock

omit [BEq α] in
theorem owns_ofValues (values : Array α) : (ofValues values).Owns values.toList :=
  ⟨Memory.atRest_ofValues values, fun _ _ => Docket.get_empty _⟩

theorem Owns.perform {s : Session α} (h : s.Owns vs) (c : Call α) :
    (s.perform c).1.Owns (c.alone vs).1 ∧ (s.perform c).2.answer = some (c.alone vs).2 := by
  obtain ⟨m', n', events, hm', hu', he⟩ := Strand.perform_alone h.atRest h.unused c
  have hp : s.perform c = (⟨m', ⟨s.strand.owner, n', []⟩⟩,
      ⟨m', ⟨s.strand.owner, n', []⟩, events, some (c.alone vs).2⟩) := by
    rw [Session.perform, he]
  rw [hp]
  exact ⟨⟨hm', hu'⟩, rfl⟩

def after (s : Session α) (calls : List (Call α)) : Session α :=
  calls.foldl (fun s c => (s.perform c).1) s

theorem Owns.after {s : Session α} (h : s.Owns vs) (calls : List (Call α)) :
    ∃ vs', (s.after calls).Owns vs' ∧ vs'.length = vs.length := by
  induction calls generalizing s vs with
  | nil => exact ⟨vs, h, rfl⟩
  | cons c rest ih =>
    obtain ⟨vs', h', hlen⟩ := ih (h.perform c).1
    exact ⟨vs', h', hlen.trans (Call.length_alone vs c)⟩

end Session

end MultiSwap
