import MultiSwap.Proofs.Descent

/-! Runs by a schedule end. All calls of a thread are made and answered when it runs on alone, since
each of its steps lowers the rank, and nobody else's calls are touched by that. So after every
schedule the threads can run to their ends in turn. -/

namespace MultiSwap

variable {σ α : Type}

namespace Run

/-- Thread `t` stands before an access, or wants nothing more. -/
def Rests (client : Client σ α) (r : Run σ α) (t : Nat) : Prop :=
  ∀ th, r.system.threads[t]? = some th → th.isBusy = true ∨ client.next th.state = none

def Finished (client : Client σ α) (r : Run σ α) (t : Nat) : Prop :=
  ∀ th, r.system.threads[t]? = some th → th.isFinished client = true

variable [BEq α]

section

variable {client : Client σ α} {r : Run σ α} {t t' : Nat}

theorem threads_step (client : Client σ α) (r : Run σ α) (t : Nat) :
    (r.step client t).system.threads = r.system.threads ∨
      ∃ th, (r.step client t).system.threads = r.system.threads.set t th := by
  obtain ⟨⟨m, threads⟩, log⟩ := r
  simp only [step, System.step]
  split
  · exact Or.inl rfl
  · exact Or.inr ⟨_, rfl⟩

theorem threads_step_of_ne (he : t ≠ t') :
    (r.step client t).system.threads[t']? = r.system.threads[t']? := by
  rcases threads_step client r t with h | ⟨th, h⟩
  · rw [h]
  · rw [h, List.getElem?_set_ne he]

theorem length_threads_step :
    (r.step client t).system.threads.length = r.system.threads.length := by
  rcases threads_step client r t with h | ⟨th, h⟩
  · rw [h]
  · rw [h, List.length_set]

theorem threads_settle_of_ne (he : t ≠ t') (n : Nat) :
    (r.settle client t n).system.threads[t']? = r.system.threads[t']? := by
  induction n generalizing r with
  | zero => rfl
  | succ n ih =>
    unfold settle
    split
    · rfl
    · rw [ih, threads_step_of_ne he]

theorem threads_access_of_ne (he : t ≠ t') (n : Nat) :
    (r.access client n t).system.threads[t']? = r.system.threads[t']? := by
  unfold access
  split
  · rw [threads_settle_of_ne he, threads_step_of_ne he]
  · rfl

theorem threads_drain_of_ne (he : t ≠ t') (n fuel : Nat) :
    (r.drain client n t fuel).system.threads[t']? = r.system.threads[t']? := by
  induction fuel generalizing r with
  | zero => rfl
  | succ fuel ih =>
    unfold drain
    split
    · rw [ih, threads_access_of_ne he]
    · rfl

omit [BEq α] in
theorem Rests.congr {r' : Run σ α} (h : r.Rests client t)
    (he : r'.system.threads[t]? = r.system.threads[t]?) : r'.Rests client t := by
  unfold Rests
  rwa [he]

theorem system_step_of_rests (h : r.Rests client t) (hb : r.system.isBusy t = false) :
    r.system.step client t = (r.system, []) := by
  refine System.step_rest fun th ht => (h th ht).resolve_left ?_
  simpa [System.isBusy, ht] using hb

omit [BEq α] in
theorem Finished.congr {r' : Run σ α} (h : r.Finished client t)
    (he : r'.system.threads[t]? = r.system.threads[t]?) : r'.Finished client t := by
  unfold Finished
  rwa [he]

omit [BEq α] in
theorem Finished.rests (h : r.Finished client t) : r.Rests client t := by
  intro th ht
  have hfin := h th ht
  simp only [Thread.isFinished, Bool.and_eq_true, Option.isNone_iff_eq_none] at hfin
  exact Or.inr hfin.2

omit [BEq α] in
theorem Rests.finished (h : r.Rests client t) (hb : r.system.isBusy t = false) :
    r.Finished client t := by
  intro th ht
  have hidle : th.isBusy = false := by simpa [System.isBusy, ht] using hb
  have hnext := (h th ht).resolve_left (by simp [hidle])
  simp [Thread.isFinished, hidle, hnext]

theorem Rests.settle (h : r.Rests client t) (n : Nat) : (r.settle client t n).Rests client t := by
  induction n generalizing r with
  | zero => exact h
  | succ n ih =>
    unfold Run.settle
    split
    · exact h
    · next hb =>
      refine ih (h.congr ?_)
      rw [show (r.step client t).system = (r.system.step client t).1 from rfl,
        system_step_of_rests h (by simpa using hb)]

end

/-- What threads with the given states come to on an array. -/
def Reachable (client : Client σ α) (values : Array α) (states : List σ) (r : Run σ α) : Prop :=
  ∃ ts, r = (Run.new (.ofValues values) states).steps client ts

section

variable {client : Client σ α} {values : Array α} {states : List σ} {r : Run σ α} {t : Nat}

theorem Reachable.steps (h : r.Reachable client values states) (ts : List Nat) :
    (r.steps client ts).Reachable client values states := by
  obtain ⟨us, rfl⟩ := h
  exact ⟨us ++ ts, (steps_append client _ us ts).symm⟩

theorem Reachable.step (h : r.Reachable client values states) (t : Nat) :
    (r.step client t).Reachable client values states := h.steps [t]

theorem Reachable.course (h : r.Reachable client values states) :
    ∃ L, Course client values states r L := by
  obtain ⟨ts, rfl⟩ := h
  exact exists_course client values states ts

theorem Reachable.length_threads (h : r.Reachable client values states) :
    r.system.threads.length = states.length := by
  obtain ⟨ts, rfl⟩ := h
  induction ts using List.reverseRecOn with
  | nil => simp [Run.steps, Run.new, System.new]
  | append_singleton ts t ih =>
    rw [steps_append]
    exact length_threads_step.trans ih

theorem Reachable.stride (h : r.Reachable client values states) (t : Nat) :
    Stride client r.system t (r.system.step client t) := by
  obtain ⟨L, h⟩ := h.course
  exact h.sound.stride t

theorem Reachable.step_cases (h : r.Reachable client values states) (t : Nat) :
    (r.step client t).system = r.system ∨ (r.system.step client t).2 ≠ [] := by
  have hstride := h.stride t
  rw [show (r.step client t).system = (r.system.step client t).1 from rfl]
  generalize r.system.step client t = step at hstride ⊢
  cases hstride with
  | rest => exact Or.inl rfl
  | start => exact Or.inr (List.cons_ne_nil _ _)
  | access => exact Or.inr (List.cons_ne_nil _ _)

/-- Something happens in every step of a busy thread, which stays busy until its call returns. -/
theorem Reachable.busy_step (h : r.Reachable client values states)
    (hb : r.system.isBusy t = true) :
    (r.system.step client t).2 ≠ [] ∧
      (¬ r.Returns client t → (r.step client t).system.isBusy t = true) := by
  obtain ⟨th, ht, -⟩ := (Option.any_eq_true _ _).1 hb
  have hstack := (System.isBusy_of_thread ht).1 hb
  have hstride := h.stride t
  rw [show (r.step client t).system = (r.system.step client t).1 from rfl]
  unfold Returns
  generalize r.system.step client t = step at hstride ⊢
  cases hstride with
  | rest hn => exact absurd (hn th ht) hstack
  | start ht' hi =>
    rw [ht] at ht'
    cases ht'
    exact absurd hi hstack
  | @access th' c f below m' e move ht' hf hc hd =>
    refine ⟨List.cons_ne_nil _ _, fun hret => ?_⟩
    rw [System.isBusy_onward_self ht', Option.isNone_iff_eq_none]
    by_contra hans
    obtain ⟨res, hans⟩ := Option.ne_none_iff_exists'.1 hans
    have hmem : Event.returned c res ∈ move.sequel f c below :=
      Move.mem_sequel.2 (Or.inr (Or.inr ⟨res, hans, rfl⟩))
    exact hret ⟨c, res, List.mem_cons_of_mem _ hmem⟩

end

section

variable {values : Array α} {scripts : List (List (Call α))} {r : Run (List (Call α)) α} {t n : Nat}

theorem calls_step_le (h : ∀ th ∈ r.system.threads, th.state.length ≤ n) (t : Nat) :
    ∀ th ∈ (r.step .script t).system.threads, th.state.length ≤ n := by
  obtain ⟨⟨m, threads⟩, log⟩ := r
  simp only [Run.step, System.step]
  split
  · exact h
  · next th c hth =>
    intro th' hmem
    rcases List.mem_or_eq_of_mem_set hmem with hmem | rfl
    · exact h th' hmem
    · obtain ⟨th', ht, hsome⟩ := Option.bind_eq_some_iff.1 hth
      obtain ⟨c', -, hpair⟩ := Option.map_eq_some_iff.1 hsome
      cases hpair
      have hle := h th (List.mem_of_getElem? ht)
      cases (th.turn m c).answer with
      | none => exact hle
      | some res =>
        show th.state.tail.length ≤ n
        rw [List.length_tail]
        omega

theorem Reachable.calls_le (h : r.Reachable .script values scripts) :
    ∀ th ∈ r.system.threads, th.state.length ≤ scripts.flatten.length := by
  obtain ⟨ts, rfl⟩ := h
  induction ts using List.reverseRecOn with
  | nil =>
    intro th hth
    simp only [Run.steps, List.foldl_nil, Run.new, System.new, List.mem_mapIdx] at hth
    obtain ⟨t, ht, rfl⟩ := hth
    exact (List.sublist_flatten_of_mem (List.getElem_mem ht)).length_le
  | append_singleton ts t ih =>
    rw [steps_append]
    exact calls_step_le ih t

theorem Reachable.rank_step_lt (h : r.Reachable .script values scripts)
    (hne : (r.system.step .script t).2 ≠ []) :
    (r.step .script t).system.rank List.length < r.system.rank List.length := by
  obtain ⟨L, h⟩ := h.course
  refine h.rank_step_lt hne fun _ th c res _ hc => ?_
  obtain ⟨rest, hstate⟩ : ∃ rest, th.state = c :: rest := List.head?_eq_some_iff.1 hc
  show th.state.tail.length < th.state.length
  simp [hstate]

theorem Reachable.rank_step_le (h : r.Reachable .script values scripts) (t : Nat) :
    (r.step .script t).system.rank List.length ≤ r.system.rank List.length := by
  rcases h.step_cases t with hsame | hne
  · rw [hsame]
  · exact Nat.le_of_lt (h.rank_step_lt hne)

theorem Reachable.rank_settle_le (h : r.Reachable .script values scripts) (t n : Nat) :
    (r.settle .script t n).system.rank List.length ≤ r.system.rank List.length := by
  induction n generalizing r with
  | zero => exact Nat.le_refl _
  | succ n ih =>
    unfold Run.settle
    split
    · exact Nat.le_refl _
    · exact Nat.le_trans (ih (h.step t)) (h.rank_step_le t)

theorem rests_settle (hn : ∀ th, r.system.threads[t]? = some th → th.state.length < n) :
    (r.settle .script t n).Rests .script t := by
  induction n generalizing r with
  | zero => exact fun th ht => absurd (hn th ht) (Nat.not_lt_zero _)
  | succ n ih =>
    by_cases hrest : r.Rests .script t
    · exact hrest.settle (n + 1)
    · unfold Run.Rests at hrest
      push Not at hrest
      obtain ⟨th, ht, hbusy, hnext⟩ := hrest
      obtain ⟨c, hc⟩ := Option.ne_none_iff_exists'.1 hnext
      have hi : th.strand.stack = [] := by simpa [Thread.isBusy, Strand.isIdle] using hbusy
      have hidle : ¬ r.system.isBusy t = true := by simp [System.isBusy, ht, hbusy]
      have hstep := System.step_start ht hi hc rfl
      have hset : (r.step .script t).system.threads[t]? = some (th.onward .script []
          (c.start th.strand.fresh r.system.memory.size).next) := by
        rw [show (r.step .script t).system = (r.system.step .script t).1 from rfl, hstep]
        exact Thread.getElem?_set_self ht _
      unfold Run.settle
      rw [if_neg hidle]
      -- the call that starts is in progress now, or it was answered at once
      cases ha : (c.start th.strand.fresh r.system.memory.size).next.answer [] with
      | none =>
        refine Rests.settle (fun th' ht' => Or.inl ?_) n
        rw [hset] at ht'
        cases ht'
        have hne := (Next.answer_eq_none_iff _ _).1 ha
        simpa [Thread.isBusy, Strand.isIdle, Thread.onward, Strand.advance] using hne
      | some res =>
        refine ih fun th' ht' => ?_
        rw [hset] at ht'
        cases ht'
        rw [Thread.onward, ha]
        have hlt := hn th ht
        obtain ⟨rest, hstate⟩ : ∃ rest, th.state = c :: rest := List.head?_eq_some_iff.1 hc
        show th.state.tail.length < n
        rw [hstate] at hlt ⊢
        exact Nat.lt_of_succ_lt_succ hlt

theorem Reachable.rests_settle (h : r.Reachable .script values scripts) (t : Nat) :
    (r.settle .script t (scripts.flatten.length + 1)).Rests .script t :=
  Run.rests_settle fun th ht => Nat.lt_succ_of_le (h.calls_le th (List.mem_of_getElem? ht))

theorem Reachable.rests_access (h : r.Reachable .script values scripts)
    (hrest : r.Rests .script t) (t' : Nat) :
    (r.access .script (scripts.flatten.length + 1) t').Rests .script t := by
  by_cases he : t' = t
  · subst he
    unfold Run.access
    split
    · exact (h.step t').rests_settle t'
    · exact hrest
  · exact hrest.congr (threads_access_of_ne he _)

theorem Reachable.access (h : r.Reachable .script values scripts) (n t : Nat) :
    (r.access .script n t).Reachable .script values scripts := by
  obtain ⟨ts, hts⟩ := exists_steps_access .script n r t
  rw [hts]
  exact h.steps ts

theorem Reachable.finished_drain (h : r.Reachable .script values scripts)
    (hrest : r.Rests .script t) {fuel : Nat} (hfuel : r.system.rank List.length ≤ fuel) :
    (r.drain .script (scripts.flatten.length + 1) t fuel).Finished .script t := by
  induction fuel generalizing r with
  | zero =>
    refine hrest.finished ?_
    rw [← Bool.not_eq_true]
    intro hb
    have hlt := h.rank_step_lt ((h.busy_step hb).1)
    omega
  | succ fuel ih =>
    unfold drain
    split
    · next hb =>
      refine ih (h.access _ t) (h.rests_access hrest t) ?_
      have hlt := h.rank_step_lt ((h.busy_step hb).1)
      have hle := (h.step t).rank_settle_le t (scripts.flatten.length + 1)
      unfold Run.access
      rw [if_pos hb]
      omega
    · next hb => exact hrest.finished (by simpa using hb)

end

omit [BEq α] in
theorem foldl_each {f : Run σ α → Nat → Run σ α} {I : Run σ α → Prop} {P : Run σ α → Nat → Prop}
    (hI : ∀ r t, I r → I (f r t)) (hown : ∀ r t, I r → P (f r t) t)
    (hother : ∀ r t t', t ≠ t' → P r t' → P (f r t) t') (ts : List Nat) {r : Run σ α} (h : I r) :
    I (ts.foldl f r) ∧ ∀ t, t ∈ ts ∨ P r t → P (ts.foldl f r) t := by
  induction ts generalizing r with
  | nil => exact ⟨h, fun t ht => ht.resolve_left List.not_mem_nil⟩
  | cons t ts ih =>
    obtain ⟨hI', hP⟩ := ih (hI r t h)
    refine ⟨hI', fun t' ht' => hP t' ?_⟩
    by_cases he : t = t'
    · subst he
      exact Or.inr (hown r t h)
    · rcases ht' with hmem | hP'
      · exact Or.inl ((List.mem_cons.1 hmem).resolve_left (Ne.symm he))
      · exact Or.inr (hother r t t' he hP')

section

variable {values : Array α} {scripts : List (List (Call α))} {r : Run (List (Call α)) α}

theorem Reachable.of_lt_length (h : r.Reachable .script values scripts)
    {P : Thread (List (Call α)) α → Prop}
    (hP : ∀ t ∈ List.range scripts.length, ∀ th, r.system.threads[t]? = some th → P th) (t : Nat)
    (th : Thread (List (Call α)) α) (ht : r.system.threads[t]? = some th) : P th := by
  refine hP t (List.mem_range.2 ?_) th ht
  rw [← h.length_threads]
  exact (List.getElem?_eq_some_iff.1 ht).1

structure Ready (values : Array α) (scripts : List (List (Call α))) (r : Run (List (Call α)) α) :
    Prop where
  reachable : r.Reachable .script values scripts
  rests : ∀ t, r.Rests .script t

theorem Reachable.ready (h : r.Reachable .script values scripts) :
    Ready values scripts ((List.range scripts.length).foldl
      (fun r t => r.settle .script t (scripts.flatten.length + 1)) r) := by
  have hkeep (r : Run (List (Call α)) α) (t : Nat) (h : r.Reachable .script values scripts) :
      (r.settle .script t (scripts.flatten.length + 1)).Reachable .script values scripts := by
    obtain ⟨ts, hts⟩ := exists_steps_settle .script t (scripts.flatten.length + 1) r
    rw [hts]
    exact h.steps ts
  obtain ⟨hreach, hrests⟩ := foldl_each hkeep (fun r t h => h.rests_settle t)
    (fun r t t' he hrest => Rests.congr hrest (threads_settle_of_ne he _))
    (List.range scripts.length) h
  exact ⟨hreach, hreach.of_lt_length fun t ht => hrests t (Or.inl ht)⟩

theorem Ready.access (h : Ready values scripts r) (t : Nat) :
    Ready values scripts (r.access .script (scripts.flatten.length + 1) t) :=
  ⟨h.reachable.access _ t, fun t' => h.reachable.rests_access (h.rests t') t⟩

theorem Ready.finished (h : Ready values scripts r) (t : Nat) :
    (r.finish (scripts.flatten.length + 1) t).Finished .script t :=
  h.reachable.finished_drain (h.rests t) (Nat.le_refl _)

theorem Ready.finish (h : Ready values scripts r) (t : Nat) :
    Ready values scripts (r.finish (scripts.flatten.length + 1) t) := by
  refine ⟨?_, fun t' => ?_⟩
  · obtain ⟨ts, hts⟩ :=
      exists_steps_drain .script (scripts.flatten.length + 1) t (r.system.rank List.length) r
    rw [Run.finish, hts]
    exact h.reachable.steps ts
  · by_cases he : t = t'
    · subst he
      exact (h.finished t).rests
    · exact (h.rests t').congr (threads_drain_of_ne he _ _)

/-- Whatever the schedule, all calls are made and answered in the end. -/
theorem isFinished_interleave (values : Array α) (scripts : List (List (Call α)))
    (schedule : List Nat) :
    (interleave (.ofValues values) scripts schedule).system.isFinished .script = true := by
  have hnew : (Run.new (.ofValues values) scripts).Reachable .script values scripts := ⟨[], rfl⟩
  have hscheduled := List.foldlRecOn schedule (Run.access .script (scripts.flatten.length + 1))
    hnew.ready fun r h t _ => Ready.access h t
  obtain ⟨hready, hfinished⟩ := foldl_each (fun r t h => Ready.finish h t)
    (fun r t h => Ready.finished h t)
    (fun r t t' he hfin => Finished.congr hfin (threads_drain_of_ne he _ _))
    (List.range scripts.length) hscheduled
  have hall := hready.reachable.of_lt_length fun t ht => hfinished t (Or.inl ht)
  refine List.all_eq_true.2 fun th hth => ?_
  obtain ⟨t, ht⟩ := List.getElem?_of_mem hth
  exact hall t th ht

end

end Run

end MultiSwap
