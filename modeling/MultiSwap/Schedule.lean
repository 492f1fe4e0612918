import MultiSwap.Rank

/-! Runs by a schedule of accesses. A thread always stands just before an access or at its end, so
each number in a schedule is one access and all that the thread does up to its next one. -/

namespace MultiSwap

variable {σ α : Type}

/-- A system with everything that has happened so far, and in which thread. -/
structure Run (σ α : Type) where
  system : System σ α
  log : Array (Nat × Event α)

namespace Run

def new (memory : Memory α) (states : List σ) : Run σ α := ⟨.new memory states, #[]⟩

variable [BEq α] (client : Client σ α)

def step (r : Run σ α) (t : Nat) : Run σ α :=
  match r with
  | ⟨system, log⟩ =>
    match system.step client t with
    | (system', events) => ⟨system', log ++ events.map fun e => (t, e)⟩

def steps (r : Run σ α) (ts : List Nat) : Run σ α := ts.foldl (step client) r

/-- Starts calls of thread `t`, `n` at most, until it stands before an access. -/
def settle (t : Nat) : Nat → Run σ α → Run σ α
  | 0, r => r
  | n + 1, r => if r.system.isBusy t then r else settle t n (r.step client t)

/-- Lets thread `t` make the access it stands before. `n` bounds the calls it starts after that. -/
def access (n : Nat) (r : Run σ α) (t : Nat) : Run σ α :=
  if r.system.isBusy t then settle client t n (r.step client t) else r

def drain (n t : Nat) : Nat → Run σ α → Run σ α
  | 0, r => r
  | fuel + 1, r => if r.system.isBusy t then drain n t fuel (r.access client n t) else r

/-- Lets thread `t` make all the calls of its list. Every access brings the rank down. -/
def finish (n : Nat) (r : Run (List (Call α)) α) (t : Nat) : Run (List (Call α)) α :=
  r.drain .script n t (r.system.rank List.length)

end Run

/-- A run of the calls in `scripts`, a list for each thread. All threads first come to stand before
an access, then the schedule is carried out, then the threads run to their ends in turn. -/
def Run.interleave [BEq α] (memory : Memory α) (scripts : List (List (Call α)))
    (schedule : List Nat) : Run (List (Call α)) α :=
  let client : Client (List (Call α)) α := .script
  let threads := List.range scripts.length
  let calls := scripts.flatten.length + 1
  let ready := threads.foldl (fun r t => r.settle client t calls) (.new memory scripts)
  let scheduled := schedule.foldl (Run.access client calls) ready
  threads.foldl (Run.finish calls) scheduled

namespace Run

variable [BEq α] (client : Client σ α)

theorem steps_append (r : Run σ α) (ts us : List Nat) :
    r.steps client (ts ++ us) = (r.steps client ts).steps client us := List.foldl_append

theorem exists_steps_settle (t n : Nat) (r : Run σ α) :
    ∃ ts, r.settle client t n = r.steps client ts := by
  induction n generalizing r with
  | zero => exact ⟨[], rfl⟩
  | succ n ih =>
    unfold settle
    split
    · exact ⟨[], rfl⟩
    · obtain ⟨ts, h⟩ := ih (r.step client t)
      exact ⟨t :: ts, h⟩

theorem exists_steps_access (n : Nat) (r : Run σ α) (t : Nat) :
    ∃ ts, r.access client n t = r.steps client ts := by
  unfold access
  split
  · obtain ⟨ts, h⟩ := exists_steps_settle client t n (r.step client t)
    exact ⟨t :: ts, h⟩
  · exact ⟨[], rfl⟩

theorem exists_steps_drain (n t fuel : Nat) (r : Run σ α) :
    ∃ ts, r.drain client n t fuel = r.steps client ts := by
  induction fuel generalizing r with
  | zero => exact ⟨[], rfl⟩
  | succ fuel ih =>
    unfold drain
    split
    · obtain ⟨ts, h⟩ := exists_steps_access client n r t
      obtain ⟨us, h'⟩ := ih (r.access client n t)
      exact ⟨ts ++ us, by rw [h', h, steps_append]⟩
    · exact ⟨[], rfl⟩

theorem exists_steps_foldl (f : Run σ α → Nat → Run σ α)
    (hf : ∀ r t, ∃ ts, f r t = r.steps client ts) (ts : List Nat) (r : Run σ α) :
    ∃ us, ts.foldl f r = r.steps client us := by
  induction ts generalizing r with
  | nil => exact ⟨[], rfl⟩
  | cons t ts ih =>
    obtain ⟨us, h⟩ := hf r t
    obtain ⟨vs, h'⟩ := ih (f r t)
    exact ⟨us ++ vs, by rw [List.foldl_cons, h', h, steps_append]⟩

/-- Whatever the schedule of accesses, the run is one by a list of single steps. -/
theorem exists_steps_interleave (memory : Memory α) (scripts : List (List (Call α)))
    (schedule : List Nat) :
    ∃ ts, interleave memory scripts schedule = (Run.new memory scripts).steps .script ts := by
  unfold interleave
  obtain ⟨ts, h⟩ := exists_steps_foldl .script _
    (fun r t => exists_steps_settle .script t _ r) (List.range scripts.length)
    (Run.new memory scripts)
  obtain ⟨us, h'⟩ := exists_steps_foldl .script _
    (fun r t => exists_steps_access .script _ r t) schedule
    ((Run.new memory scripts).steps .script ts)
  obtain ⟨vs, h''⟩ := exists_steps_foldl .script (finish (scripts.flatten.length + 1))
    (fun r t => exists_steps_drain .script _ t _ r) (List.range scripts.length)
    (((Run.new memory scripts).steps .script ts).steps .script us)
  refine ⟨ts ++ us ++ vs, ?_⟩
  rw [steps_append, steps_append, ← h'', ← h', ← h]

end Run

end MultiSwap
