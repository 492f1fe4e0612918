import MultiSwap.Proofs.Apart
import MultiSwap.Proofs.Growth

/-! Threads that name different slots do not interfere. Whatever the schedule, each of them makes the
accesses that it makes when it is alone, with the same answers, and leaves the same cells in its
slots. Two systems are run side by side: that of all threads, and that of one thread, which takes a
step whenever the thread takes one among the others. -/

namespace MultiSwap

variable {σ α : Type}

def Names (n : Nat) (calls : List (Call α)) (k : Nat) : Prop := k < n ∧ ∃ c ∈ calls, k ∈ c.slots

/-- The calls are about single slots, and those of different threads name different slots of `n`. -/
structure Separate (n : Nat) (scripts : List (List (Call α))) : Prop where
  single : ∀ calls ∈ scripts, ∀ c ∈ calls, ∀ announced, c ≠ .contents announced
  apart : ∀ (t u : Nat) calls calls' k, scripts[t]? = some calls → scripts[u]? = some calls' →
    Names n calls k → Names n calls' k → t = u

def NamedBy (n : Nat) (scripts : List (List (Call α))) (t k : Nat) : Prop :=
  ∃ calls, scripts[t]? = some calls ∧ Names n calls k

def onlyOf (t : Nat) (scripts : List (List (Call α))) : List (List (Call α)) :=
  scripts.mapIdx fun u calls => if u = t then calls else []

/-- What thread `t` did in a run is what it does in the run `alone`. It left the same cells in the
slots of `K`, and the same verdicts on what it made. -/
structure Run.Mirrors (r alone : Run σ α) (t : Nat) (K : Nat → Prop) : Prop where
  events : alone.history = r.history.filter fun x => x.1 == t
  thread : alone.system.threads[t]? = r.system.threads[t]?
  memory : r.system.memory.Agrees K (t + 1) alone.system.memory

section

variable {n t u k : Nat} {scripts : List (List (Call α))} {calls : List (Call α)}

theorem namedBy_eq (ht : scripts[t]? = some calls) : NamedBy n scripts t = Names n calls := by
  funext k
  simp [NamedBy, ht]

theorem Separate.thread_eq (h : Separate n scripts) (ht : NamedBy n scripts t k)
    (hu : NamedBy n scripts u k) : t = u := by
  obtain ⟨calls, ht, hn⟩ := ht
  obtain ⟨calls', hu, hn'⟩ := hu
  exact h.apart t u calls calls' k ht hu hn hn'

theorem Separate.keeps (h : Separate n scripts) (ht : scripts[t]? = some calls) {c : Call α}
    (hc : c ∈ calls) : c.Keeps (NamedBy n scripts t) n :=
  ⟨h.single calls (List.mem_of_getElem? ht) c hc, fun _ hk hn => ⟨calls, ht, hn, c, hc, hk⟩⟩

end

theorem Log.filter_ofStep_self (t : Nat) (events : List (Event α)) :
    (Log.ofStep t events).filter (fun x => x.1 == t) = Log.ofStep t events := by
  simp [ofStep, List.filter_eq_self]

theorem Log.filter_ofStep_of_ne {t u : Nat} (h : u ≠ t) (events : List (Event α)) :
    (Log.ofStep u events).filter (fun x => x.1 == t) = [] := by
  simp [ofStep, List.filter_eq_nil_iff, h]

theorem Run.threads_onlyOf (m : Memory α) (scripts : List (List (Call α))) (t : Nat) :
    (Run.new m (onlyOf t scripts)).system.threads[t]? = (Run.new m scripts).system.threads[t]? := by
  simp only [new, System.new, onlyOf, List.getElem?_mapIdx, if_true, Option.map_map]
  rfl

variable [BEq α]

namespace Course

variable {values : Array α} {scripts : List (List (Call α))} {r : Run (List (Call α)) α}
  {L : Ledger α}

theorem undisturbed (h : Course .script values scripts r L)
    (hsep : Separate values.size scripts) :
    r.system.Undisturbed (NamedBy values.size scripts) := by
  induction h with
  | new =>
    intro t th ht
    obtain ⟨calls, hcalls, rfl⟩ := System.thread_of_new ht
    have hsize : (Run.new (.ofValues values) scripts).system.memory.size = values.size :=
      Memory.size_ofValues values
    refine ⟨fun c hc => ?_, fun f hf => ?_, fun f hf => ?_, .idle⟩
    · rw [hsize]
      exact hsep.keeps hcalls hc
    · exact absurd hf List.not_mem_nil
    · exact absurd hf List.not_mem_nil
  | start h hs ht hi hc ho ih => exact ih.start hs ht hc ho
  | access h hs ht hf hc hd ih => exact ih.access hs h.upkept (fun _ _ _ => hsep.thread_eq) ht hf hd

theorem not_disturbed (h : Course .script values scripts r L)
    (hsep : Separate values.size scripts) {t : Nat} {e : Event α}
    (he : e ∈ (r.system.step .script t).2) : e.disturbed = false := by
  have hs := h.sound
  have hu := h.undisturbed hsep
  cases hs.origin he with
  | start ht hi hc he =>
    rcases List.mem_cons.1 he with rfl | he
    · rfl
    · rcases Move.mem_prelude.1 he with ⟨n, hn, rfl⟩ | ⟨res, -, rfl⟩
      · obtain ⟨i, rfl | rfl | rfl | rfl⟩ := Call.announces hn <;> rfl
      · rfl
  | access ht hf hd hm hl he =>
    have hfree := hu.unimpeded hs.accords h.upkept (fun _ _ _ => hsep.thread_eq) ht hf
    obtain ⟨haccess, hnotes⟩ := hd.undisturbed hfree ((hu t _ ht).aims _ (by simp [hf]))
    rcases List.mem_cons.1 he with rfl | he
    · exact haccess
    · rcases Move.mem_sequel.1 he with ⟨n, hn, rfl⟩ | ⟨res, -, rfl⟩ | ⟨res, -, rfl⟩
      · exact hnotes n hn
      · rfl
      · rfl

end Course

namespace Run

variable {values : Array α} {scripts : List (List (Call α))}

theorem undisturbed (hsep : Separate values.size scripts) (ts : List Nat) :
    ∀ x ∈ ((Run.new (.ofValues values) scripts).steps .script ts).history,
      x.2.disturbed = false := by
  induction ts using List.reverseRecOn with
  | nil => simp [steps, history, Run.new]
  | append_singleton ts t ih =>
    intro x hx
    obtain ⟨L, h⟩ := exists_course .script values scripts ts
    rw [history_steps_snoc, List.mem_append] at hx
    rcases hx with hx | hx
    · exact ih x hx
    · obtain ⟨e, he, rfl⟩ := List.mem_map.1 hx
      exact h.not_disturbed hsep he

/-- Step by step, a thread does in the run of all what it does alone. -/
theorem mirrors (hsep : Separate values.size scripts) (t : Nat) (ts : List Nat) :
    let r := (Run.new (.ofValues values) scripts).steps .script ts
    r.Mirrors ((Run.new (.ofValues values) (onlyOf t scripts)).steps .script
      (List.replicate (ts.count t) t)) t (NamedBy values.size scripts t) := by
  induction ts using List.reverseRecOn with
  | nil => exact ⟨rfl, threads_onlyOf _ _ t, .refl _⟩
  | append_singleton ts u ih =>
    intro r
    obtain ⟨L, h⟩ := exists_course .script values scripts ts
    have hprivate th hth := (h.undisturbed hsep u th hth).frames
    by_cases hut : u = t
    · -- the thread takes the step in both runs
      subst hut
      obtain ⟨hevents, hthread, hmemory⟩ :=
        System.step_agrees .script ih.thread ih.memory hprivate
      rw [List.count_append, List.count_singleton_self, List.replicate_succ']
      constructor
      · rw [history_steps_snoc, history_steps_snoc, List.filter_append, Log.filter_ofStep_self,
          ih.events, hevents]
      · simp only [r, steps_append]
        exact hthread
      · simp only [r, steps_append]
        exact hmemory
    · -- another thread takes it, and the run `alone` stands still
      have hmemory : Memory.Agrees (NamedBy values.size scripts t) (t + 1) _ _ :=
        System.step_apart .script hprivate (fun k hk hk' => hut (hsep.thread_eq hk hk')) (by omega)
      rw [List.count_append, List.count_singleton, beq_false_of_ne hut, if_neg Bool.false_ne_true,
        Nat.add_zero]
      constructor
      · rw [history_steps_snoc, List.filter_append, Log.filter_ofStep_of_ne hut, List.append_nil,
          ih.events]
      · simp only [r, steps_append]
        exact ih.thread.trans (threads_step_of_ne hut).symm
      · simp only [r, steps_append]
        exact hmemory.symm.trans ih.memory

end Run

/-- Threads whose calls name different slots do not interfere. At any time, and so at the end, each has
done what it does when it takes as many steps alone, and nobody has helped anybody or lost a swap. -/
theorem Run.as_if_alone (values : Array α) (scripts : List (List (Call α)))
    (hsep : Separate values.size scripts) (ts : List Nat) :
    let r := (Run.new (.ofValues values) scripts).steps .script ts
    (∀ t calls, scripts[t]? = some calls →
      r.Mirrors ((Run.new (.ofValues values) (onlyOf t scripts)).steps .script
        (List.replicate (ts.count t) t)) t (Names values.size calls)) ∧
      ∀ x ∈ r.history, x.2.disturbed = false := by
  intro r
  refine ⟨fun t calls ht => ?_, undisturbed hsep ts⟩
  rw [← namedBy_eq ht]
  exact mirrors hsep t ts

/-- Two threads are about to read their second slots, each with its first one claimed. Both are going
to ask for a slot that is not there. -/
theorem Run.as_if_alone_dcas :
    let scripts := [[.dcas 0 0 1 2 1 7, .get 9], [.dcas 1 0 5 3 0 6, .get 9]]
    let r := (Run.new (.ofValues #[0, 0, 1, 0]) scripts).steps .script [0, 1, 1, 0, 1, 0]
    let d : Descriptor Nat := ⟨⟨2, 0⟩, ⟨1, 0, 5⟩, [⟨3, 0, 6⟩]⟩
    Separate 4 scripts ∧
      r.Mirrors ((Run.new (.ofValues #[0, 0, 1, 0]) (onlyOf 1 scripts)).steps .script
        (List.replicate 3 1)) 1 (Names 4 [.dcas 1 0 5 3 0 6, .get 9]) ∧
      r.system.memory.slots[1]? = some ⟨⟨2, 2⟩, .claimed d⟩ ∧
        ∀ x ∈ r.history, x.2.disturbed = false := by
  intro scripts r d
  have hsep : Separate 4 scripts := by
    constructor
    · simp [scripts, Call.dcas]
    · rintro t u calls calls' k ht hu ⟨hk, hc⟩ ⟨-, hc'⟩
      match t, u with
      | 0, 0 | 1, 1 => rfl
      | 0, 1 | 1, 0 =>
        cases ht
        cases hu
        simp only [List.mem_cons, List.not_mem_nil, or_false, exists_eq_or_imp, exists_eq_left,
          Call.slots, Call.dcas, List.map_cons, List.map_nil] at hc hc'
        omega
      | t + 2, _ => simp [scripts] at ht
      | _, u + 2 => simp [scripts] at hu
  have hslot : r.system.memory.slots[1]? = some ⟨⟨2, 2⟩, .claimed d⟩ := by
    unfold r d scripts
    cbv
  obtain ⟨hmirrors, hquiet⟩ : _ ∧ _ := Run.as_if_alone #[0, 0, 1, 0] scripts hsep
    [0, 1, 1, 0, 1, 0]
  exact ⟨hsep, hmirrors 1 _ rfl, hslot, hquiet⟩

end MultiSwap
