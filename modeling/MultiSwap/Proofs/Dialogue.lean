import MultiSwap.Proofs.Linearizable

/-! What a thread asks and what it is told, in turn. A client goes by the answers alone, and once no
call is in progress a linearization has exactly the calls of all threads with the answers that they
got. -/

namespace MultiSwap

variable {σ α : Type}

def Log.dialogue (log : Log α) (t : Nat) : List (Call α × Result α) :=
  (log.calls t).zip (log.answers t)

/-- From the first state, the client makes these calls one after the other, and their answers bring
it to the second. -/
inductive Client.Converses (client : Client σ α) (st : σ) :
    List (Call α × Result α) → σ → Prop where
  | nil : Converses client st [] st
  | snoc {xs : List (Call α × Result α)} {st' : σ} {c : Call α} (res : Result α)
      (h : Converses client st xs st') (hc : client.next st' = some c) :
    Converses client st (xs ++ [(c, res)]) (client.absorb st' res)

theorem Log.zip_concat {cs : List (Call α)} {rs : List (Result α)} {c : Call α}
    (hc : cs[rs.length]? = some c) (res : Result α) :
    cs.zip (rs ++ [res]) = cs.zip rs ++ [(c, res)] := by
  induction rs generalizing cs with
  | nil =>
    cases cs with
    | nil => simp at hc
    | cons c' rest => simpa using hc
  | cons r rest ih =>
    cases cs with
    | nil => simp at hc
    | cons c' cs => simpa using ih (by simpa using hc)

variable [BEq α] {client : Client σ α} {values : Array α} {states : List σ} {r : Run σ α}
  {L : Ledger α}

omit [BEq α] in
theorem Client.Converses.answer {st : σ} {th : Thread σ α} {cs : List (Call α)}
    {rs : List (Result α)} (h : client.Converses st (cs.zip rs) th.state) {c : Call α}
    (hc : client.next th.state = some c) (hlast : cs[rs.length]? = some c) {next : Next α}
    {below : List (Frame α)} :
    client.Converses st (cs.zip (rs ++ (next.answer below).toList))
      (th.onward client below next).state := by
  cases ha : next.answer below with
  | none => simpa [Thread.onward, ha] using h
  | some res =>
    simp only [Option.toList_some, Log.zip_concat hlast, Thread.onward, ha, Option.elim_some]
    exact h.snoc res hc

theorem Course.converses (h : Course client values states r L) {t : Nat} {th : Thread σ α}
    (ht : r.system.threads[t]? = some th) :
    ∃ st, states[t]? = some st ∧ client.Converses st (r.history.dialogue t) th.state := by
  induction h generalizing th with
  | new =>
    obtain ⟨st, hst, rfl⟩ := System.thread_of_new ht
    exact ⟨st, hst, .nil⟩
  | @start r L t₀ th₀ c move h hs ht₀ hi hc ho ih =>
    rw [Run.system_step] at ht
    rw [Log.dialogue, Run.history_step, Log.calls_append, Log.answers_append, Log.calls_start,
      Log.answers_start]
    rcases Thread.of_getElem?_set ht₀ ht with ⟨rfl, rfl⟩ | ⟨he, ht⟩
    · obtain ⟨st, hst, hconv⟩ := ih ht₀
      have hlen := h.length_calls_of_idle ht₀ hi
      rw [if_pos rfl, if_pos rfl]
      refine ⟨st, hst, Client.Converses.answer ?_ hc ?_⟩
      · -- the new call has no answer yet
        have hzip : (r.history.calls t₀ ++ [c]).zip (r.history.answers t₀ ++ []) =
            (r.history.calls t₀).zip (r.history.answers t₀) ++ [c].zip [] := List.zip_append hlen
        rw [List.append_nil, List.zip_nil_right, List.append_nil] at hzip
        rw [hzip]
        exact hconv
      · rw [← hlen, List.getElem?_concat_length]
    · rw [if_neg he, if_neg he, List.append_nil, List.append_nil]
      exact ih ht
  | @access r L t₀ th₀ c f below m' e move h hs ht₀ hf hc hd ih =>
    rw [Run.system_step] at ht
    rw [Log.dialogue, Run.history_step, Log.calls_append, Log.answers_append,
      Log.calls_access hd.isAccess, Log.answers_access hd.isAccess, List.append_nil]
    rcases Thread.of_getElem?_set ht₀ ht with ⟨rfl, rfl⟩ | ⟨he, ht⟩
    · obtain ⟨st, hst, hconv⟩ := ih ht₀
      rw [if_pos rfl]
      refine ⟨st, hst, hconv.answer hc ?_⟩
      rw [← hc]
      exact h.current_call ht₀ (by simp [hf])
    · rw [if_neg he, List.append_nil]
      exact ih ht

theorem Course.length_threads (h : Course client values states r L) :
    r.system.threads.length = states.length := by
  induction h with
  | new => exact List.length_mapIdx
  | start h hs ht hi hc ho ih => exact List.length_set.trans ih
  | access h hs ht hf hc hd ih => exact List.length_set.trans ih

theorem Course.calls_eq_nil (h : Course client values states r L) {t : Nat}
    (ht : states.length ≤ t) : r.history.calls t = [] := by
  induction h with
  | new => rfl
  | @start r L t₀ th₀ c move h hs ht₀ hi hc ho ih =>
    have hlt := (List.getElem?_eq_some_iff.1 ht₀).1
    rw [h.length_threads] at hlt
    rw [Run.history_step, Log.calls_append, Log.calls_start, ih, if_neg (by omega)]
    rfl
  | @access r L t₀ th₀ c f below m' e move h hs ht₀ hf hc hd ih =>
    rw [Run.history_step, Log.calls_append, Log.calls_access hd.isAccess, ih]
    rfl

def Log.acts (log : Log α) (t : Nat) : List (Act α) :=
  (log.dialogue t).mapIdx fun i x => ⟨⟨t, i⟩, x.1, x.2⟩

omit [BEq α] in
theorem Log.mem_acts {log : Log α} {t : Nat} {a : Act α} : a ∈ log.acts t ↔
    a.op.thread = t ∧ log.call? a.op = some a.call ∧ log.answer? a.op = some a.result := by
  simp only [acts, List.mem_iff_getElem?, List.getElem?_mapIdx, Option.map_eq_some_iff, dialogue,
    List.getElem?_zip_eq_some, call?, answer?]
  constructor
  · rintro ⟨i, ⟨c, res⟩, ⟨hc, hres⟩, rfl⟩
    exact ⟨rfl, hc, hres⟩
  · obtain ⟨⟨t', i⟩, c, res⟩ := a
    rintro ⟨rfl, hc, hres⟩
    exact ⟨i, (c, res), ⟨hc, hres⟩, rfl⟩

omit [BEq α] in
theorem Log.nodup_acts (log : Log α) (t : Nat) : (log.acts t).Nodup := by
  apply List.Nodup.of_map fun a => a.op.number
  have hnumbers : (log.acts t).map (fun a => a.op.number) =
      List.range (log.dialogue t).length :=
    List.ext_getElem (by simp [acts]) (by simp [acts])
  rw [hnumbers]
  exact List.nodup_range

omit [BEq α] in
theorem Log.map_acts (log : Log α) (t : Nat) :
    (log.acts t).map (fun a => (a.call, a.result)) = log.dialogue t :=
  List.ext_getElem (by simp [acts]) (by simp [acts])

theorem Linearizes.perm {log : Log α} {vs final : List α} {acts : List (Act α)}
    (h : Linearizes log vs acts final) (hans : ∀ a ∈ acts, log.answer? a.op ≠ none)
    (hatomic : ∀ t, ∀ x ∈ log.dialogue t, x.1.isAtomic = true) {n : Nat}
    (hn : ∀ t, n ≤ t → log.calls t = []) : acts.Perm ((List.range n).flatMap log.acts) := by
  have hdisjoint : ∀ t t', t ≠ t' → (log.acts t).Disjoint (log.acts t') := by
    intro t t' hne a ha ha'
    exact hne ((Log.mem_acts.1 ha).1.symm.trans (Log.mem_acts.1 ha').1)
  have hnodup : ((List.range n).flatMap log.acts).Nodup :=
    List.nodup_flatMap.2 ⟨fun t _ => log.nodup_acts t,
      List.nodup_range.imp fun hne => hdisjoint _ _ hne⟩
  refine (List.perm_ext_iff_of_nodup (h.distinct.of_map _) hnodup).2 fun a => ?_
  simp only [List.mem_flatMap, List.mem_range, Log.mem_acts]
  constructor
  · intro ha
    obtain ⟨res, hres⟩ := Option.ne_none_iff_exists'.1 (hans a ha)
    have hcall := h.invoked a ha
    have hlt : a.op.thread < n := by
      by_contra hge
      simp [Log.call?, hn _ (Nat.not_lt.1 hge)] at hcall
    -- the order has the call with its answer, and has no call twice
    have hmem : (a.call, res) ∈ log.dialogue a.op.thread :=
      List.mem_of_getElem? (List.getElem?_zip_eq_some.2 ⟨hcall, hres⟩)
    obtain ⟨c, hc, hin⟩ := h.answered a.op res hres
    obtain rfl := Option.some.inj (hcall.symm.trans hc)
    have heq := List.inj_on_of_nodup_map h.distinct (hin (hatomic _ _ hmem)) ha rfl
    rw [← heq]
    exact ⟨a.op.thread, hlt, rfl, hcall, hres⟩
  · rintro ⟨t, -, rfl, hcall, hres⟩
    have hmem : (a.call, a.result) ∈ log.dialogue a.op.thread :=
      List.mem_of_getElem? (List.getElem?_zip_eq_some.2 ⟨hcall, hres⟩)
    obtain ⟨c, hc, hin⟩ := h.answered a.op a.result hres
    obtain rfl := Option.some.inj (hcall.symm.trans hc)
    exact hin (hatomic _ _ hmem)

omit [BEq α] in
theorem Memory.atRest_of_logical {m : Memory α} {vs : List α} (hvs : m.logical = vs.map some)
    (hm : ∀ (k : Nat) c, m.slots[k]? = some c → ∃ v, c.content = .plain v) : m.AtRest vs := by
  apply List.ext_getElem?
  intro k
  have hk := m.getElem?_logical k
  rw [hvs, List.getElem?_map] at hk
  rw [List.getElem?_map, List.getElem?_map, Array.getElem?_toList]
  cases hc : m.slots[k]? with
  | none =>
    rw [hc, Option.map_none, Option.map_eq_none_iff] at hk
    rw [hk, Option.map_none, Option.map_none]
  | some c =>
    obtain ⟨v, hv⟩ := hm k c hc
    rw [value_of_plain hc hv hvs, Option.map_some, Option.map_some, hv]

/-- Once no call is in progress, some order has exactly the answered calls of all threads, and
leaves the values that the slots hold. -/
theorem Course.exists_settled_order [LawfulBEq α] (h : Course client values states r L)
    (hidle : ∀ t, r.system.isBusy t = false)
    (hatomic : ∀ t, ∀ x ∈ r.history.dialogue t, x.1.isAtomic = true) :
    ∃ acts final, acts.Perm ((List.range states.length).flatMap r.history.acts) ∧
      Replays values.toList acts final ∧ r.system.memory.AtRest final := by
  obtain ⟨acts, final, ho⟩ := h.exists_order
  refine ⟨acts, final, ho.linear.perm (fun a ha hnone => ?_) hatomic fun t => h.calls_eq_nil,
    ho.linear.replays, Memory.atRest_of_logical ho.logical fun k c hc => h.plain_of_idle hidle hc⟩
  obtain ⟨d, hatt, -⟩ := ho.early a ha hnone
  obtain ⟨th, f, ht, hlast, -⟩ := hatt
  have hb := hidle a.op.thread
  rw [← Bool.not_eq_true, System.isBusy_of_thread ht, Ne, not_not] at hb
  simp [hb] at hlast

end MultiSwap
