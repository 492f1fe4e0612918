import MultiSwap.Counting
import MultiSwap.Proofs.Dialogue
import Mathlib.Algebra.BigOperators.Group.List.Basic
import Mathlib.Algebra.GroupWithZero.Nat
import Mathlib.Data.List.ProdSigma

/-! No update is lost. A call of a counting thread reads a slot or raises slots by one, and a raise is
made exactly when it is answered so. Whatever the schedule, each slot ends with the number of rounds
that it was a target of. -/

namespace MultiSwap

namespace Pattern

variable {p : Pattern} {s t n k : Nat}

/-- In how many rounds of all threads slot `k` is a target. -/
def tally (p : Pattern) (threads s rounds k : Nat) : Nat :=
  (List.range threads ×ˢ List.range rounds).countP fun x => decide (k ∈ p.targets s x.1 x.2)

theorem mem_targets_lt (hs : 0 < s) (hk : k ∈ p.targets s t n) : k < s := by
  cases p with
  | single =>
    rw [List.mem_singleton.1 hk]
    exact Nat.mod_lt _ hs
  | paired =>
    rcases List.mem_pair.1 hk with rfl | rfl
    · exact Nat.mod_lt _ hs
    · exact Nat.mod_lt _ hs
  | wide => exact List.mem_range.1 hk

theorem nodup_targets (hs : 2 ≤ s) (p : Pattern) (t n : Nat) : (p.targets s t n).Nodup := by
  cases p with
  | single => exact List.nodup_singleton _
  | paired =>
    have hi : (t + n) % s < s := Nat.mod_lt _ (by omega)
    have hd : n % (s - 1) < s - 1 := Nat.mod_lt _ (by omega)
    simp only [targets, List.nodup_cons, List.mem_singleton, List.not_mem_nil, not_false_eq_true,
      List.nodup_nil, and_true]
    -- the second target is at most `s - 1` slots further, so a turn round the array falls short of it
    generalize (t + n) % s = i at hi ⊢
    generalize n % (s - 1) = d at hd ⊢
    by_cases hlt : i + 1 + d < s
    · rw [Nat.mod_eq_of_lt hlt]
      omega
    · rw [Nat.mod_eq_sub_mod (by omega), Nat.mod_eq_of_lt (by omega)]
      omega
  | wide => exact List.nodup_range

theorem mem_sources_lt (hs : 0 < s) (hk : k ∈ p.sources s t n) : k < s := by
  cases p with
  | wide =>
    rw [List.mem_singleton.1 hk]
    omega
  | single => exact mem_targets_lt (p := .single) hs hk
  | paired => exact mem_targets_lt (p := .paired) hs hk

theorem tally_eq_sum (p : Pattern) (threads s rounds k : Nat) :
    p.tally threads s rounds k =
      ((List.range threads).map fun t =>
        (List.range rounds).countP fun n => decide (k ∈ p.targets s t n)).sum := by
  simp [tally, SProd.sprod, List.product, List.countP_flatMap, List.countP_map, Function.comp_def]

theorem countP_eq_sum {β : Type} (xs : List β) (q : β → Bool) :
    xs.countP q = (xs.map fun x => (q x).toNat).sum := by
  induction xs with
  | nil => rfl
  | cons x rest ih => cases h : q x <;> simp [ih, h, Nat.add_comm]

/-- Counted slot by slot, the targets of some rounds are as many as counted round by round. -/
theorem sum_countP_mem {β : Type} {xs : List β} {f : β → List Nat}
    (hf : ∀ x ∈ xs, (f x).Nodup ∧ ∀ k ∈ f x, k < s) :
    ((List.range s).map fun k => xs.countP fun x => decide (k ∈ f x)).sum =
      (xs.map fun x => (f x).length).sum := by
  induction xs with
  | nil => simp
  | cons x rest ih =>
    obtain ⟨hnodup, hlt⟩ := hf x List.mem_cons_self
    have hone : ((List.range s).map fun k => (decide (k ∈ f x)).toNat).sum = (f x).length := by
      rw [← countP_eq_sum, List.countP_eq_length_filter]
      refine ((List.perm_ext_iff_of_nodup (List.nodup_range.filter _) hnodup).2 ?_).length_eq
      intro k
      simpa using hlt k
    have hcons (k : Nat) : (x :: rest).countP (fun x => decide (k ∈ f x)) =
        rest.countP (fun x => decide (k ∈ f x)) + (decide (k ∈ f x)).toNat := by
      rw [List.countP_cons]
      cases decide (k ∈ f x) <;> rfl
    simp only [hcons, List.sum_map_add, List.map_cons, List.sum_cons]
    rw [hone, ih fun y hy => hf y (List.mem_cons_of_mem _ hy), Nat.add_comm]

theorem sum_tally_paired (hs : 2 ≤ s) (threads rounds : Nat) :
    ((List.range s).map (paired.tally threads s rounds)).sum = 2 * threads * rounds := by
  have hrounds : ∀ x ∈ List.range threads ×ˢ List.range rounds,
      (paired.targets s x.1 x.2).Nodup ∧ ∀ k ∈ paired.targets s x.1 x.2, k < s :=
    fun x _ => ⟨paired.nodup_targets hs _ _, fun k hk => mem_targets_lt (by omega) hk⟩
  refine (sum_countP_mem hrounds).trans ?_
  have htwo : (fun x : Nat × Nat => (paired.targets s x.1 x.2).length) = fun _ => 2 := rfl
  rw [htwo, List.map_const', List.sum_replicate_nat, List.length_product, List.length_range,
    List.length_range, Nat.mul_comm, Nat.mul_assoc]

theorem tally_wide (threads rounds : Nat) (hk : k < s) :
    wide.tally threads s rounds k = threads * rounds := by
  have hall : ∀ x ∈ List.range threads ×ˢ List.range rounds,
      decide (k ∈ wide.targets s x.1 x.2) = true :=
    fun x _ => decide_eq_true (List.mem_range.2 hk)
  rw [tally, List.countP_eq_length.2 hall, List.length_product, List.length_range,
    List.length_range]

end Pattern

namespace Call

def raises (k : Nat) (x : Call Nat × Result Nat) : Bool := decide (x.2 = .flag true ∧ k ∈ x.1.slots)

/-- The call reads a slot or raises different slots by one. -/
inductive Counts : Call Nat → Prop where
  | get (i : Nat) : Counts (.get i)
  | raise {c : Call Nat} {ws : List (Word Nat)} (hc : c.exchange? = some ws)
      (hws : ws.Pairwise fun v w => v.index ≠ w.index)
      (hd : ∀ w ∈ ws, w.desired = w.expected + 1) : Counts c

theorem Counts.isAtomic {c : Call Nat} (h : c.Counts) : c.isAtomic = true := by
  cases h with
  | get i => rfl
  | raise hc hws hd => exact isAtomic_of_exchange hc

/-- What a call of a counting thread does to a slot shows in its answer. -/
theorem Counts.getElem?_onList {c : Call Nat} (h : c.Counts) (vs : List Nat) (k : Nat) :
    (c.onList vs).1[k]? = vs[k]?.map (· + (raises k (c, (c.onList vs).2)).toNat) := by
  cases hb : c.firstBeyond vs.length with
  | some e => simp [onList, hb, raises]
  | none =>
    cases h with
    | get i =>
      rw [onList_of_inBounds hb]
      cases hv : vs[i]? <;> simp [enterOnList, hv, raises]
    | @raise _ ws hc hws hd =>
      rw [onList_of_exchange hc hb]
      cases hall : allHold ws vs with
      | false => simp [exchangeOnList_of_misses hall, raises]
      | true =>
        rw [exchangeOnList_of_holds hall]
        by_cases hk : k ∈ ws.map (·.index)
        · obtain ⟨w, hw, rfl⟩ := List.mem_map.1 hk
          obtain ⟨v, hv, he⟩ := allHold_iff.1 hall w hw
          rw [getElem?_writeAll_of_distinct hws hw (List.getElem?_eq_some_iff.1 hv).1, hv, hd w hw,
            ← beq_iff_eq.1 he]
          simp [raises, slots_of_exchange hc, hk]
        · rw [getElem?_writeAll_of_ne fun w hw hi => hk (List.mem_map.2 ⟨w, hw, hi⟩)]
          simp [raises, slots_of_exchange hc, hk]

end Call

theorem Replays.getElem?_of_counts {vs ws : List Nat} {acts : List (Act Nat)}
    (h : Replays vs acts ws) (hc : ∀ a ∈ acts, a.call.Counts) (k : Nat) :
    ws[k]? = vs[k]?.map (· + acts.countP fun a => Call.raises k (a.call, a.result)) := by
  induction acts generalizing vs with
  | nil =>
    rw [h]
    simp
  | cons a rest ih =>
    rw [ih h.2 fun b hb => hc b (List.mem_cons_of_mem _ hb),
      (hc a List.mem_cons_self).getElem?_onList, h.1, Option.map_map, List.countP_cons]
    congr 1
    funext x
    cases Call.raises k (a.call, a.result) with
    | false => simp
    | true =>
      simp only [Function.comp_apply, Bool.toNat_true, if_true]
      omega

theorem Replays.exists_of_mem {α : Type} [BEq α] {vs ws : List α} {acts : List (Act α)}
    (h : Replays vs acts ws) {a : Act α} (ha : a ∈ acts) :
    ∃ us : List α, us.length = vs.length ∧ (a.call.onList us).2 = a.result := by
  induction acts generalizing vs with
  | nil => simp at ha
  | cons b rest ih =>
    rcases List.mem_cons.1 ha with rfl | ha
    · exact ⟨vs, rfl, h.1⟩
    · obtain ⟨us, hlen, hres⟩ := ih h.2 ha
      exact ⟨us, hlen.trans (Call.length_onList vs b.call), hres⟩

namespace Counter

variable {p : Pattern} {s rounds : Nat} {c : Counter}

theorem map_index_raise (slots seen : List Nat) : (raise slots seen).map (·.index) = slots :=
  List.ext_getElem (by simp [raise]) (by simp [raise])

theorem desired_raise (slots seen : List Nat) :
    ∀ w ∈ raise slots seen, w.desired = w.expected + 1 := by
  intro w hw
  obtain ⟨k, hk, rfl⟩ := List.mem_mapIdx.1 hw
  rfl

theorem exchange?_attempt (p : Pattern) (s : Nat) (c : Counter) :
    (c.attempt p s).exchange? = some (raise (p.targets s c.thread c.round) c.seen) := by
  cases p <;> rfl

theorem slots_attempt (p : Pattern) (s : Nat) (c : Counter) :
    (c.attempt p s).slots = p.targets s c.thread c.round := by
  rw [Call.slots_of_exchange (exchange?_attempt p s c), map_index_raise]

theorem counts_attempt (hs : 2 ≤ s) (c : Counter) : (c.attempt p s).Counts := by
  refine .raise (exchange?_attempt p s c) ?_ (desired_raise _ _)
  rw [← List.pairwise_map, map_index_raise]
  exact p.nodup_targets hs c.thread c.round

theorem next_cases {call : Call Nat} (h : (client p s rounds).next c = some call) :
    c.round < rounds ∧
      ((∃ i ∈ p.sources s c.thread c.round, call = .get i) ∨ call = c.attempt p s) := by
  simp only [client] at h
  by_cases hr : rounds ≤ c.round
  · simp [hr] at h
  · rw [if_neg hr] at h
    refine ⟨Nat.lt_of_not_le hr, ?_⟩
    cases hi : (p.sources s c.thread c.round)[c.seen.length]? with
    | some i =>
      rw [hi] at h
      cases h
      exact Or.inl ⟨i, List.mem_of_getElem? hi, rfl⟩
    | none =>
      rw [hi] at h
      cases h
      exact Or.inr rfl

theorem le_round_of_next (h : (client p s rounds).next c = none) : rounds ≤ c.round := by
  by_contra hlt
  simp only [client, if_neg hlt] at h
  cases hi : (p.sources s c.thread c.round)[c.seen.length]? <;> simp [hi] at h

theorem counts_next (hs : 2 ≤ s) {call : Call Nat}
    (h : (client p s rounds).next c = some call) : call.Counts := by
  rcases (next_cases h).2 with ⟨i, -, rfl⟩ | rfl
  · exact .get i
  · exact counts_attempt hs c

theorem counts_of_converses (hs : 2 ≤ s) {start : Counter} {xs : List (Call Nat × Result Nat)}
    (h : (client p s rounds).Converses start xs c) : ∀ x ∈ xs, x.1.Counts := by
  induction h with
  | nil => simp
  | snoc res h hc ih =>
    intro x hx
    rcases List.mem_append.1 hx with hx | hx
    · exact ih x hx
    · rw [List.mem_singleton.1 hx]
      exact counts_next hs hc

theorem answer_cases (hs : 2 ≤ s) {call : Call Nat} {res : Result Nat}
    (h : (client p s rounds).next c = some call)
    (hres : ∃ us : List Nat, us.length = s ∧ (call.onList us).2 = res) :
    (∃ i v, call = .get i ∧ res = .value v) ∨ call = c.attempt p s ∧ ∃ b, res = .flag b := by
  obtain ⟨us, rfl, rfl⟩ := hres
  rcases (next_cases h).2 with ⟨i, hi, rfl⟩ | rfl
  · have hlt : i < us.length := Pattern.mem_sources_lt (by omega) hi
    refine Or.inl ⟨i, us[i], rfl, ?_⟩
    have hb : (Call.get i : Call Nat).firstBeyond us.length = none :=
      Call.firstBeyond_eq_none_iff.2 (by simpa [Call.slots] using hlt)
    rw [Call.onList_of_inBounds hb, Call.enterOnList, List.getElem?_eq_getElem hlt]
    rfl
  · have hb : (c.attempt p us.length).firstBeyond us.length = none := by
      rw [Call.firstBeyond_eq_none_iff, slots_attempt]
      exact fun k hk => Pattern.mem_targets_lt (by omega) hk
    rw [Call.onList_of_exchange (exchange?_attempt p us.length c) hb, Call.flag_exchangeOnList]
    exact Or.inr ⟨rfl, _, rfl⟩

/-- A counter has raised a slot as often as the slot was a target of the rounds behind it. -/
theorem countP_raises (hs : 2 ≤ s) {t : Nat} {xs : List (Call Nat × Result Nat)}
    (h : (client p s rounds).Converses ⟨t, 0, []⟩ xs c)
    (hx : ∀ x ∈ xs, ∃ us : List Nat, us.length = s ∧ (x.1.onList us).2 = x.2) (k : Nat) :
    c.thread = t ∧ c.round ≤ rounds ∧
      xs.countP (Call.raises k) =
        (List.range c.round).countP fun n => decide (k ∈ p.targets s t n) := by
  induction h with
  | nil => exact ⟨rfl, Nat.zero_le _, rfl⟩
  | @snoc xs c call res h hc ih =>
    obtain ⟨ht, hr, hcount⟩ := ih fun x hmem => hx x (List.mem_append_left _ hmem)
    have hlt := (next_cases hc).1
    rw [List.countP_append, hcount, List.countP_singleton]
    rcases answer_cases hs hc (hx (call, res) (by simp)) with ⟨i, v, rfl, rfl⟩ | ⟨rfl, b, rfl⟩
    · exact ⟨ht, hr, by simp [Call.raises, client]⟩
    cases b with
    | false => exact ⟨ht, hr, by simp [Call.raises, client]⟩
    | true =>
      refine ⟨ht, hlt, ?_⟩
      simp only [client, List.range_succ, List.countP_append, List.countP_singleton, Call.raises,
        slots_attempt, ht, true_and]

end Counter

theorem System.not_busy_of_finished {σ α : Type} {client : Client σ α} {s : System σ α}
    (h : s.isFinished client = true) (t : Nat) : s.isBusy t = false := by
  refine isBusy_eq_false (fun th hth => ?_) t
  have hdone := List.all_eq_true.1 h th hth
  simp only [Thread.isFinished, Thread.isBusy, Strand.isIdle, Bool.not_not, Bool.and_eq_true,
    List.isEmpty_iff] at hdone
  exact hdone.1

def Counter.crew (threads : Nat) : List Counter := (List.range threads).map fun t => ⟨t, 0, []⟩

/-- The run of a crew on `s` slots that hold zero at first. -/
def Pattern.run (p : Pattern) (threads s rounds : Nat) (ts : List Nat) : Run Counter Nat :=
  (Run.new (.ofValues (Array.replicate s 0)) (Counter.crew threads)).steps
    (Counter.client p s rounds) ts

section

variable {p : Pattern} {threads s rounds : Nat} {r : Run Counter Nat} {L : Ledger Nat}

theorem Course.counter (h : Course (Counter.client p s rounds) (Array.replicate s 0)
    (Counter.crew threads) r L) {t : Nat} (ht : t < threads) :
    ∃ th, r.system.threads[t]? = some th ∧
      (Counter.client p s rounds).Converses ⟨t, 0, []⟩ (r.history.dialogue t) th.state := by
  have hlen := h.length_threads
  simp only [Counter.crew, List.length_map, List.length_range] at hlen
  have hth := List.getElem?_eq_getElem (hlen.symm ▸ ht : t < r.system.threads.length)
  obtain ⟨st, hst, hconv⟩ := h.converses hth
  obtain rfl : ⟨t, 0, []⟩ = st := by simpa [Counter.crew, ht] using hst
  exact ⟨_, hth, hconv⟩

theorem Course.counts_dialogue (h : Course (Counter.client p s rounds) (Array.replicate s 0)
    (Counter.crew threads) r L) (hs : 2 ≤ s) (t : Nat) :
    ∀ x ∈ r.history.dialogue t, x.1.Counts := by
  by_cases ht : t < threads
  · obtain ⟨th, -, hconv⟩ := h.counter ht
    exact Counter.counts_of_converses hs hconv
  · simp [Log.dialogue, h.calls_eq_nil (t := t) (by simpa [Counter.crew] using ht)]

theorem Course.countP_dialogue (h : Course (Counter.client p s rounds) (Array.replicate s 0)
    (Counter.crew threads) r L) (hs : 2 ≤ s)
    (hfin : r.system.isFinished (Counter.client p s rounds) = true) {t : Nat} (ht : t < threads)
    (hx : ∀ x ∈ r.history.dialogue t, ∃ us : List Nat, us.length = s ∧ (x.1.onList us).2 = x.2)
    (k : Nat) : (r.history.dialogue t).countP (Call.raises k) =
      (List.range rounds).countP fun n => decide (k ∈ p.targets s t n) := by
  obtain ⟨th, hth, hconv⟩ := h.counter ht
  obtain ⟨-, hle, hcount⟩ := Counter.countP_raises hs hconv hx k
  have hdone := List.all_eq_true.1 hfin th (List.mem_of_getElem? hth)
  rw [Thread.isFinished, Bool.and_eq_true, Option.isNone_iff_eq_none] at hdone
  rw [hcount, Nat.le_antisymm hle (Counter.le_round_of_next hdone.2)]

theorem Course.countP_acts (h : Course (Counter.client p s rounds) (Array.replicate s 0)
    (Counter.crew threads) r L) (hs : 2 ≤ s)
    (hfin : r.system.isFinished (Counter.client p s rounds) = true) {acts : List (Act Nat)}
    (hperm : acts.Perm ((List.range threads).flatMap r.history.acts)) {vs ws : List Nat}
    (hreplays : Replays vs acts ws) (hlen : vs.length = s) (k : Nat) :
    acts.countP (fun a => Call.raises k (a.call, a.result)) = p.tally threads s rounds k := by
  rw [hperm.countP_eq, List.countP_flatMap, Pattern.tally_eq_sum]
  refine congrArg List.sum (List.map_congr_left fun t ht => ?_)
  have hfits : ∀ x ∈ r.history.dialogue t, ∃ us : List Nat, us.length = s ∧
      (x.1.onList us).2 = x.2 := by
    intro x hx
    rw [← r.history.map_acts t] at hx
    obtain ⟨a, ha, rfl⟩ := List.mem_map.1 hx
    have hmem : a ∈ acts := hperm.symm.subset (List.mem_flatMap.2 ⟨t, ht, ha⟩)
    exact hlen ▸ hreplays.exists_of_mem hmem
  rw [← h.countP_dialogue hs hfin (List.mem_range.1 ht) hfits k, ← r.history.map_acts t,
    List.countP_map]
  rfl

theorem Pattern.atRest_run (hs : 2 ≤ s) (ts : List Nat)
    (hfin : (p.run threads s rounds ts).system.isFinished (Counter.client p s rounds) = true) :
    (p.run threads s rounds ts).system.memory.AtRest
      ((List.range s).map (p.tally threads s rounds)) := by
  obtain ⟨L, h⟩ : ∃ L, Course (Counter.client p s rounds) (Array.replicate s 0)
    (Counter.crew threads) (p.run threads s rounds ts) L :=
    Run.exists_course _ _ _ ts
  have hcounts := h.counts_dialogue hs
  obtain ⟨acts, final, hperm, hreplays, hrest⟩ :=
    h.exists_settled_order (System.not_busy_of_finished hfin) fun t x hx => (hcounts t x hx).isAtomic
  have hcrew : (Counter.crew threads).length = threads := by simp [Counter.crew]
  rw [hcrew] at hperm
  have hacts : ∀ a ∈ acts, a.call.Counts := by
    intro a ha
    obtain ⟨t, -, hat⟩ := List.mem_flatMap.1 (hperm.subset ha)
    refine hcounts t (a.call, a.result) ?_
    rw [← Log.map_acts]
    exact List.mem_map_of_mem (f := fun a => (a.call, a.result)) hat
  have hfinal : final = (List.range s).map (p.tally threads s rounds) := by
    apply List.ext_getElem?
    intro k
    rw [hreplays.getElem?_of_counts hacts, h.countP_acts hs hfin hperm hreplays (by simp),
      Array.toList_replicate, List.getElem?_replicate, List.getElem?_map]
    by_cases hk : k < s <;> simp [hk]
  exact hfinal ▸ hrest

end

/-- In every run in which all threads finish their rounds, each slot ends with the number of rounds
that it was a target of. If rounds have two targets, these are different slots, and the values add up
to two for each round. If they have all slots, each slot ends with the number of all rounds. -/
theorem Run.no_lost_update (p : Pattern) (threads s rounds : Nat) (hs : 2 ≤ s) (ts : List Nat)
    (hfin : (p.run threads s rounds ts).system.isFinished (Counter.client p s rounds) = true) :
    (p.run threads s rounds ts).system.memory.AtRest
        ((List.range s).map (p.tally threads s rounds)) ∧
      (p = .paired → (∀ t n, (p.targets s t n).Nodup) ∧
        ((List.range s).map (p.tally threads s rounds)).sum = 2 * threads * rounds) ∧
      (p = .wide → ∀ k < s, p.tally threads s rounds k = threads * rounds) := by
  refine ⟨p.atRest_run hs ts hfin, ?_, ?_⟩
  · rintro rfl
    exact ⟨Pattern.paired.nodup_targets hs, Pattern.sum_tally_paired hs threads rounds⟩
  · rintro rfl k hk
    exact Pattern.tally_wide threads rounds hk

/-- Two threads that take turns, with two rounds each on three slots. -/
theorem Run.no_lost_update_turns :
    (Pattern.paired.run 2 3 2 ((List.range 200).map (· % 2))).system.isFinished
        (Counter.client .paired 3 2) = true ∧
      (Pattern.paired.run 2 3 2 ((List.range 200).map (· % 2))).system.memory.AtRest
        ((List.range 3).map (Pattern.paired.tally 2 3 2)) ∧
      (List.range 3).map (Pattern.paired.tally 2 3 2) = [2, 4, 2] ∧
      (∀ t n, (Pattern.paired.targets 3 t n).Nodup) ∧
        ((List.range 3).map (Pattern.paired.tally 2 3 2)).sum = 2 * 2 * 2 := by
  have hfin : (Pattern.paired.run 2 3 2 ((List.range 200).map (· % 2))).system.isFinished
      (Counter.client .paired 3 2) = true := by decide +kernel
  obtain ⟨hrest, hpaired, -⟩ := no_lost_update .paired 2 3 2 (by decide) _ hfin
  exact ⟨hfin, hrest, by decide +kernel, hpaired rfl⟩

end MultiSwap
