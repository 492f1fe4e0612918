import MultiSwap.Proofs.Answers
import MultiSwap.Proofs.Justified
import MultiSwap.Proofs.Linearizes

/-! What a step passes on to the rest of the run. Whether it starts a call or makes an access, it
answers one call at most, every other operation is at work for the same call as before, and no
thread comes to give up a pending operation without having found another value than it asks for. -/

namespace MultiSwap

variable {σ α : Type}

/-- The call that thread `t` is at work for, or else its next one. -/
def Run.current (r : Run σ α) (t : Nat) : Op := ⟨t, (r.history.answers t).length⟩

def System.Doubts (s : System σ α) (d : Descriptor α) : Prop :=
  ∃ (t : Nat) (th : Thread σ α), s.threads[t]? = some th ∧ .conclude d .abort ∈ th.strand.stack

variable [BEq α]

/-- A word of `d` asks for another value than the plain one in its slot. -/
def Memory.Refutes (m : Memory α) (d : Descriptor α) : Prop :=
  ∃ w ∈ d.words, ∃ c u, m.slots[w.index]? = some c ∧ c.content = .plain u ∧
    (u == w.expected) = false

/-- The run `r'` comes after a step of thread `t` that is about its call `c`. -/
structure Run.Passes (r r' : Run σ α) (L : Ledger α) (t : Nat) (c : Call α)
    (answer : Option (Result α)) : Prop where
  history : r.history <+: r'.history
  called : r'.history.call? (r.current t) = some c
  answers : ∀ t', r'.history.answers t' =
    r.history.answers t' ++ if t = t' then answer.toList else []
  settled : ∀ s, r.system.memory.verdict s ≠ .pending →
    r'.system.memory.verdict s = r.system.memory.verdict s
  attends : ∀ t' d, r.system.Attends t' d →
    (r'.system.Attends t' d ∧ (t' = t → answer = none)) ∨
      t' = t ∧ r'.system.memory.verdict d.stamp ≠ .pending ∧
        answer = some (.flag (r'.system.memory.verdict d.stamp == .commit))
  attended : ∀ t' d, r'.system.Attends t' d → (t' = t → answer = none) ∧
    (r.system.Attends t' d ∨ ¬ L.Opened d ∧ r'.system.memory.verdict d.stamp = .pending)
  doubts : ∀ d, r'.system.Doubts d → r'.system.memory.verdict d.stamp = .pending →
    L.Opened d ∧ (r.system.Doubts d ∨ r.system.memory.Refutes d)

namespace Run.Passes

variable {r r' : Run σ α} {L : Ledger α} {t : Nat} {c : Call α} {answer : Option (Result α)}

theorem answer? (h : r.Passes r' L t c answer) {o : Op} {res : Result α}
    (ho : r'.history.answer? o = some res) :
    r.history.answer? o = some res ∨ o = r.current t ∧ answer = some res := by
  unfold Log.answer? at ho ⊢
  rw [h.answers, List.getElem?_append] at ho
  split at ho
  · exact Or.inl ho
  · by_cases he : t = o.thread
    · cases answer with
      | none => simp at ho
      | some res' =>
        simp only [he, if_true, Option.toList_some, List.getElem?_singleton] at ho
        split at ho
        · right
          refine ⟨?_, ho⟩
          rw [Run.current, he, Op.mk.injEq]
          omega
        · simp at ho
    · simp [he] at ho

theorem current_eq (h : r.Passes r' L t c answer) {t' : Nat} (ha : t' = t → answer = none) :
    r'.current t' = r.current t' := by
  unfold Run.current
  rw [h.answers]
  by_cases he : t = t'
  · rw [if_pos he, ha he.symm, Option.toList_none, List.append_nil]
  · rw [if_neg he, List.append_nil]

theorem answer?_current (h : r.Passes r' L t c answer) :
    r'.history.answer? (r.current t) = answer := by
  unfold Log.answer? Run.current
  rw [h.answers, if_pos rfl, List.getElem?_append_right (Nat.le_refl _), Nat.sub_self]
  cases answer <;> rfl

end Run.Passes

omit [BEq α] in
theorem Run.open_current (r : Run σ α) (t : Nat) : r.history.answer? (r.current t) = none :=
  List.getElem?_eq_none (Nat.le_refl _)

/-- A call of the thread's own comes to drive no operation but one that it has just opened. -/
theorem Deed.onward_own {L : Ledger α} {m m' : Memory α} {fresh : Stamp} {f : Frame α}
    {e : Event α} {move : Move α} (h : Deed m fresh f e m' move) (hm : m.Accords L)
    (hf : f.Sound L m fresh.owner) (hr : f.role = .own) :
    move.next.Onward fun g =>
      ∀ d, g.role = .driving d → ¬ L.Opened d ∧ m'.verdict d.stamp = .pending := by
  cases h with
  | helps hw hc hg hd =>
    refine ⟨role_assistance hg, fun d hdrive => ?_⟩
    rw [role_waits hw, hr] at hdrive
    cases hdrive
  | opened hc hs =>
    obtain ⟨-, hi, -⟩ := hf
    cases hi with
    | claim hd ho hown =>
      intro d' hd'
      cases hd'
      exact ⟨ho, hm.unopened _ hd ho⟩
  | _ => first | (cases hr; done) | trivial | (intro d hd; cases hd)

section

variable {client : Client σ α} {s : System σ α} {L : Ledger α} {t t' : Nat} {th : Thread σ α}
  {d : Descriptor α}

theorem System.Attends.of_start {c : Call α} {next : Next α} {fresh : Stamp}
    (ho : Outset fresh s.memory.size c next) (ht : s.threads[t]? = some th)
    (h : System.Attends ⟨s.memory, s.threads.set t (th.onward client [] next)⟩ t' d) :
    t' ≠ t ∧ s.Attends t' d := by
  by_cases he : t = t'
  · subst he
    obtain ⟨g, hlast, hrole⟩ := h.getLast (Thread.getElem?_set_self ht _)
    have hg : g ∈ next.frames := by
      simpa [Thread.onward, Strand.advance] using List.mem_of_getLast? hlast
    rw [ho.role_frames g hg] at hrole
    cases hrole
  · exact ⟨Ne.symm he, (of_ne he).1 h⟩

theorem System.Attends.of_access {f : Frame α} {below : List (Frame α)} {m' : Memory α}
    {e : Event α} {move : Move α} (hs : s.Sound client L) (ht : s.threads[t]? = some th)
    (hf : th.strand.stack = f :: below) (hd : Deed s.memory th.strand.fresh f e m' move)
    (h : System.Attends ⟨m', s.threads.set t (th.onward client below move.next)⟩ t' d) :
    (t' = t → move.next.answer below = none) ∧
      (s.Attends t' d ∨ ¬ L.Opened d ∧ m'.verdict d.stamp = .pending) := by
  by_cases he : t = t'
  · subst he
    obtain ⟨g, hlast, hrole⟩ := h.getLast (Thread.getElem?_set_self ht _)
    have hlast' : (move.next.frames ++ below).getLast? = some g := hlast
    refine ⟨fun _ => (Next.answer_eq_none_iff _ _).2 ?_, ?_⟩
    · exact List.ne_nil_of_mem (List.mem_of_getLast? hlast')
    by_cases hb : below = []
    · subst hb
      rw [List.append_nil] at hlast'
      have hne : move.next.frames ≠ [] := List.ne_nil_of_mem (List.mem_of_getLast? hlast')
      by_cases hr : f.role = .own
      · have hown := hd.onward_own hs.accords ((hs.threads t th ht).sound_top hf) hr
        obtain ⟨g', hg', hpend⟩ := hown.getLast hne
        rw [hlast'] at hg'
        cases hg'
        exact Or.inr (hpend d hrole)
      · obtain ⟨g', hg', hsame⟩ := (hd.onward_role hr).getLast hne
        rw [hlast'] at hg'
        cases hg'
        exact Or.inl ⟨th, f, ht, by rw [hf]; rfl, hsame.symm.trans hrole⟩
    · rw [List.getLast?_append_of_ne_nil _ hb] at hlast'
      exact Or.inl ⟨th, g, ht, by rwa [hf, List.getLast?_cons_of_ne_nil hb], hrole⟩
  · exact ⟨fun h => absurd h.symm he, Or.inl ((of_ne he).1 h)⟩

end

namespace Course

variable {client : Client σ α} {values : Array α} {states : List σ} {r : Run σ α} {L : Ledger α}
  {t : Nat} {th : Thread σ α} {c : Call α} {move : Move α}

theorem passes_start (h : Course client values states r L) (ht : r.system.threads[t]? = some th)
    (hi : th.strand.stack = []) (ho : Outset th.strand.fresh r.system.memory.size c move.next) :
    r.Passes (r.onward t
      (⟨r.system.memory, r.system.threads.set t (th.onward client [] move.next)⟩,
        .invoked c :: move.prelude c)) L t c (move.next.answer []) := by
  have hlen := h.length_calls_of_idle ht hi
  constructor
  · rw [Run.history_step]
    exact List.prefix_append _ _
  · rw [Run.history_step]
    unfold Log.call? Run.current
    rw [Log.calls_append, Log.calls_start, if_pos rfl, ← hlen, List.getElem?_concat_length]
  · intro t'
    rw [Run.history_step, Log.answers_append, Log.answers_start]
  · exact fun _ _ => rfl
  · intro t' d hatt
    have he : t ≠ t' := by
      rintro rfl
      obtain ⟨g, hlast, -⟩ := hatt.getLast ht
      simp [hi] at hlast
    exact Or.inl ⟨(System.Attends.of_ne he).2 hatt, fun h => absurd h.symm he⟩
  · intro t' d hatt
    obtain ⟨hne, hatt⟩ := System.Attends.of_start ho ht hatt
    exact ⟨fun he => absurd he hne, Or.inl hatt⟩
  · intro d hdoubts _
    obtain ⟨t', th', ht', hmem⟩ := hdoubts
    rcases Thread.mem_onward ht (List.nil_subset _) ht' hmem with ⟨-, hmem⟩ | ⟨th'', ht'', hmem⟩
    · have hrole := ho.role_frames _ hmem
      cases hrole
    · exact ⟨((h.sound.threads t' th'' ht'').frames _ hmem).1, Or.inl ⟨t', th'', ht'', hmem⟩⟩

theorem passes_access (h : Course client values states r L) (ht : r.system.threads[t]? = some th)
    {f : Frame α} {below : List (Frame α)} (hf : th.strand.stack = f :: below)
    (hc : client.next th.state = some c) {m' : Memory α} {e : Event α}
    (hd : Deed r.system.memory th.strand.fresh f e m' move) :
    r.Passes (r.onward t
      (⟨m', r.system.threads.set t (th.onward client below move.next)⟩,
        e :: move.sequel f c below)) L t c (move.next.answer below) := by
  have hs := h.sound
  have hsound := (hs.threads t th ht).sound_top hf
  have heff := hd.effect hs.accords hsound
  constructor
  · rw [Run.history_step]
    exact List.prefix_append _ _
  · rw [Run.history_step]
    refine Log.call?_mono (List.prefix_append _ _) ?_
    exact (h.current_call ht (by simp [hf])).trans hc
  · intro t'
    rw [Run.history_step, Log.answers_append, Log.answers_access hd.isAccess]
  · exact fun _ => heff.settled_of_settled
  · exact fun t' d hatt => hatt.access hs ht hf hd
  · exact fun t' d hatt => System.Attends.of_access hs ht hf hd hatt
  · intro d hdoubts hv
    obtain ⟨t', th', ht', hmem⟩ := hdoubts
    have hpend : r.system.memory.verdict d.stamp = .pending := by
      by_contra hn
      exact hn ((heff.settled_of_settled hn).symm.trans hv)
    have hb : below ⊆ th.strand.stack := by simp [hf]
    rcases Thread.mem_onward ht hb ht' hmem with ⟨rfl, hmem⟩ | ⟨th'', ht'', hmem⟩
    · obtain ⟨w, rest, x, u, rfl, hx, -, hu, hne⟩ := hd.refused hmem hpend
      have hreached : L.Reached d (w :: rest) := hsound
      exact ⟨hreached.1, Or.inr ⟨w, Descriptor.mem_of_others hreached.mem, x, u, hx, hu, hne⟩⟩
    · exact ⟨((hs.threads t' th'' ht'').frames _ hmem).1, Or.inl ⟨t', th'', ht'', hmem⟩⟩

end Course

end MultiSwap
