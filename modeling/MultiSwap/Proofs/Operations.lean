import MultiSwap.Proofs.Chronicle

/-! Calls and their answers in the log of a run. Each thread makes one call at a time, so its
answers come in the order of its calls, and while it is at work exactly its last call has no
answer. -/

namespace MultiSwap

variable {σ α : Type}

namespace Log

/-- The calls that thread `t` made, in order. -/
def calls (log : Log α) (t : Nat) : List (Call α) :=
  log.filterMap fun
    | (t', .invoked c) => if t' = t then some c else none
    | _ => none

/-- The answers that thread `t` got, in order. -/
def answers (log : Log α) (t : Nat) : List (Result α) :=
  log.filterMap fun
    | (t', .returned _ r) => if t' = t then some r else none
    | _ => none

theorem calls_append (log log' : Log α) (t : Nat) :
    calls (log ++ log') t = calls log t ++ calls log' t := List.filterMap_append

theorem answers_append (log log' : Log α) (t : Nat) :
    answers (log ++ log') t = answers log t ++ answers log' t := List.filterMap_append

end Log

section

variable {t t' : Nat} {move : Move α} {c : Call α} {f : Frame α} {below : List (Frame α)}

theorem Log.ofStep_append (t : Nat) (es es' : List (Event α)) :
    ofStep t (es ++ es') = ofStep t es ++ ofStep t es' := List.map_append

theorem Log.calls_ofStep_noted (move : Move α) : calls (ofStep t move.noted) t' = [] := by
  simp [calls, ofStep, Move.noted]

theorem Log.answers_ofStep_noted (move : Move α) : answers (ofStep t move.noted) t' = [] := by
  simp [answers, ofStep, Move.noted]

theorem Log.calls_ofStep_closing (move : Move α) (f : Frame α) :
    calls (ofStep t (move.closing f)) t' = [] := by
  unfold Move.closing
  cases move.next <;> rfl

theorem Log.answers_ofStep_closing (move : Move α) (f : Frame α) :
    answers (ofStep t (move.closing f)) t' = [] := by
  unfold Move.closing
  cases move.next <;> rfl

theorem Log.calls_ofStep_returning (c : Call α) (a : Option (Result α)) :
    calls (ofStep t (c.returning a)) t' = [] := by
  cases a <;> rfl

theorem Log.answers_ofStep_returning (c : Call α) (a : Option (Result α)) :
    answers (ofStep t (c.returning a)) t' = if t = t' then a.toList else [] := by
  cases a with
  | none => simp [answers, ofStep, Call.returning]
  | some r => by_cases he : t = t' <;> simp [answers, ofStep, Call.returning, he]

theorem Log.calls_start : calls (ofStep t (.invoked c :: move.prelude c)) t' =
    if t = t' then [c] else [] := by
  have hrest : calls (ofStep t (move.prelude c)) t' = [] := by
    rw [Move.prelude, ofStep_append, calls_append, calls_ofStep_noted, calls_ofStep_returning]
    rfl
  rw [ofStep, List.map_cons, ← List.singleton_append, calls_append]
  rw [show (move.prelude c).map (fun e => (t, e)) = ofStep t (move.prelude c) from rfl, hrest]
  by_cases he : t = t' <;> simp [calls, he]

theorem Log.answers_start : answers (ofStep t (.invoked c :: move.prelude c)) t' =
    if t = t' then (move.next.answer []).toList else [] := by
  have hrest : answers (ofStep t (move.prelude c)) t' =
      if t = t' then (move.next.answer []).toList else [] := by
    rw [Move.prelude, ofStep_append, answers_append, answers_ofStep_noted,
      answers_ofStep_returning]
    rfl
  rw [← hrest]
  rfl

def Event.isAccess : Event α → Bool
  | loaded _ _ | swapped _ _ _ _ | inspected _ _ | decided _ _ _ _ => true
  | _ => false

theorem Deed.isAccess [BEq α] {m m' : Memory α} {fresh : Stamp} {e : Event α}
    (h : Deed m fresh f e m' move) : e.isAccess = true := by
  cases h <;> rfl

theorem Move.idle_ofStart (move : Move α) (c : Call α) (t : Nat) :
    ∀ x ∈ Log.ofStep t (.invoked c :: move.prelude c), x.2.isAccess = false := by
  intro x hx
  obtain ⟨e, he, rfl⟩ := List.mem_map.1 hx
  rcases List.mem_cons.1 he with rfl | he
  · rfl
  · rcases mem_prelude.1 he with ⟨n, -, rfl⟩ | ⟨res, -, rfl⟩ <;> rfl

theorem Move.idle_ofSequel (move : Move α) (f : Frame α) (c : Call α) (below : List (Frame α))
    (t : Nat) : ∀ x ∈ Log.ofStep t (move.sequel f c below), x.2.isAccess = false := by
  intro x hx
  obtain ⟨e, he, rfl⟩ := List.mem_map.1 hx
  rcases mem_sequel.1 he with ⟨n, -, rfl⟩ | ⟨res, -, rfl⟩ | ⟨res, -, rfl⟩ <;> rfl

theorem Log.calls_access {e : Event α} (he : e.isAccess = true) :
    calls (ofStep t (e :: move.sequel f c below)) t' = [] := by
  have hrest : calls (ofStep t (move.sequel f c below)) t' = [] := by
    rw [Move.sequel, ofStep_append, ofStep_append, calls_append, calls_append, calls_ofStep_noted,
      calls_ofStep_closing, calls_ofStep_returning]
    rfl
  rw [← hrest]
  cases e with
  | invoked c => simp [Event.isAccess] at he
  | _ => rfl

theorem Log.answers_cons {e : Event α} (he : e.isAccess = true) (t t' : Nat) (log : Log α) :
    Log.answers ((t, e) :: log) t' = log.answers t' := by
  cases e with
  | returned c r => simp [Event.isAccess] at he
  | _ => rfl

theorem Log.answers_access {e : Event α} (he : e.isAccess = true) :
    answers (ofStep t (e :: move.sequel f c below)) t' =
      if t = t' then (move.next.answer below).toList else [] := by
  have hrest : answers (ofStep t (move.sequel f c below)) t' =
      if t = t' then (move.next.answer below).toList else [] := by
    rw [Move.sequel, ofStep_append, ofStep_append, answers_append, answers_append,
      answers_ofStep_noted, answers_ofStep_closing, answers_ofStep_returning]
    rfl
  rw [← hrest]
  exact answers_cons he t t' _

end

section

variable {s : System σ α} {m : Memory α} {t t' : Nat} {th : Thread σ α} {client : Client σ α}
  {below : List (Frame α)} {next : Next α}

theorem System.isBusy_of_thread (ht : s.threads[t]? = some th) :
    s.isBusy t = true ↔ th.strand.stack ≠ [] := by
  simp [isBusy, ht, Thread.isBusy, Strand.isIdle]

theorem System.isBusy_of_idle (ht : s.threads[t]? = some th) (hi : th.strand.stack = []) :
    s.isBusy t = false := by
  rw [← Bool.not_eq_true, isBusy_of_thread ht]
  simpa using hi

theorem System.isBusy_eq_false (h : ∀ th ∈ s.threads, th.strand.stack = []) (t : Nat) :
    s.isBusy t = false := by
  rw [← Bool.not_eq_true]
  intro hb
  cases ht : s.threads[t]? with
  | none => simp [isBusy, ht] at hb
  | some th => exact (isBusy_of_thread ht).1 hb (h th (List.mem_of_getElem? ht))

theorem System.isBusy_onward_self (ht : s.threads[t]? = some th) :
    (System.mk m (s.threads.set t (th.onward client below next))).isBusy t =
      (next.answer below).isNone := by
  have hset : (s.threads.set t (th.onward client below next))[t]? =
      some (th.onward client below next) :=
    Thread.getElem?_set_self ht _
  rw [Bool.eq_iff_iff, isBusy_of_thread hset, Option.isNone_iff_eq_none, next.answer_eq_none_iff]
  rfl

theorem System.length_answers_onward (ht : s.threads[t]? = some th) :
    (next.answer below).toList.length +
      ((System.mk m (s.threads.set t (th.onward client below next))).isBusy t).toNat = 1 := by
  rw [isBusy_onward_self ht]
  cases next.answer below <;> rfl

theorem System.isBusy_onward_of_ne (he : t ≠ t') :
    (System.mk m (s.threads.set t (th.onward client below next))).isBusy t' = s.isBusy t' := by
  simp [isBusy, List.getElem?_set_ne he]

end

variable [BEq α] {client : Client σ α} {values : Array α} {states : List σ} {r : Run σ α}
  {L : Ledger α}

/-- A busy thread has made one call more than it got answers. -/
theorem Course.length_calls (h : Course client values states r L) (t : Nat) :
    (r.history.calls t).length =
      (r.history.answers t).length + (r.system.isBusy t).toNat := by
  induction h with
  | new =>
    have hidle : (System.new (.ofValues values) states).isBusy t = false := by
      refine System.isBusy_eq_false (fun th hth => ?_) t
      obtain ⟨i, hi, rfl⟩ := List.mem_mapIdx.1 hth
      rfl
    simp only [Run.new, Run.history, hidle]
    rfl
  | @start r L t₀ th c move h hs ht hi hc ho ih =>
    rw [Run.history_step, Log.calls_append, Log.answers_append, Log.calls_start,
      Log.answers_start, List.length_append, List.length_append, ih]
    by_cases he : t₀ = t
    · subst he
      rw [if_pos rfl, if_pos rfl, System.isBusy_of_idle ht hi, Bool.toNat_false, Nat.add_assoc _ _ (Bool.toNat _),
        Run.system_step, System.length_answers_onward ht]
      rfl
    · rw [if_neg he, if_neg he, Run.system_step, System.isBusy_onward_of_ne he]
      rfl
  | @access r L t₀ th c f below m' e move h hs ht hf hc hd ih =>
    rw [Run.history_step, Log.calls_append, Log.answers_append, Log.calls_access hd.isAccess,
      Log.answers_access hd.isAccess, List.length_append, List.length_append, ih]
    by_cases he : t₀ = t
    · subst he
      have hbusy : r.system.isBusy t₀ = true := by
        rw [System.isBusy_of_thread ht, hf]
        simp
      rw [if_pos rfl, hbusy, Bool.toNat_true, Nat.add_assoc _ _ (Bool.toNat _), Run.system_step,
        System.length_answers_onward ht]
      rfl
    · rw [if_neg he, Run.system_step, System.isBusy_onward_of_ne he]
      rfl

theorem Course.length_calls_of_idle (h : Course client values states r L) {t : Nat}
    {th : Thread σ α} (ht : r.system.threads[t]? = some th) (hi : th.strand.stack = []) :
    (r.history.calls t).length = (r.history.answers t).length := by
  rw [h.length_calls t, System.isBusy_of_idle ht hi]
  rfl

theorem Course.current_call (h : Course client values states r L) {t : Nat} {th : Thread σ α}
    (ht : r.system.threads[t]? = some th) (hb : th.strand.stack ≠ []) :
    (r.history.calls t)[(r.history.answers t).length]? = client.next th.state := by
  induction h generalizing t th with
  | new =>
    obtain ⟨state, -, rfl⟩ := System.thread_of_new ht
    exact absurd rfl hb
  | @start r L t₀ th₀ c move h hs ht₀ hi hc ho ih =>
    rw [Run.history_step, Log.calls_append, Log.answers_append, Log.calls_start,
      Log.answers_start]
    rcases Thread.of_getElem?_set ht₀ ht with ⟨rfl, rfl⟩ | ⟨he, ht⟩
    · have hlen := h.length_calls_of_idle ht₀ hi
      rw [(move.next.answer_eq_none_iff []).2 hb, Thread.onward_busy hb, hc, if_pos rfl, if_pos rfl,
        Option.toList_none, List.append_nil, ← hlen, List.getElem?_concat_length]
    · rw [if_neg he, if_neg he, List.append_nil, List.append_nil]
      exact ih ht hb
  | @access r L t₀ th₀ c f below m' e move h hs ht₀ hf hc hd ih =>
    rw [Run.history_step, Log.calls_append, Log.answers_append, Log.calls_access hd.isAccess,
      Log.answers_access hd.isAccess, List.append_nil]
    rcases Thread.of_getElem?_set ht₀ ht with ⟨rfl, rfl⟩ | ⟨he, ht⟩
    · rw [(move.next.answer_eq_none_iff below).2 hb, Thread.onward_busy hb, if_pos rfl,
        Option.toList_none, List.append_nil]
      exact ih ht₀ (by simp [hf])
    · rw [if_neg he, List.append_nil]
      exact ih ht hb

end MultiSwap
