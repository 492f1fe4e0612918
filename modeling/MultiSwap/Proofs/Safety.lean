import MultiSwap.Proofs.Operations

/-! Indices are checked once, when a call starts. A call that names a slot the array does not have is
refused there and touches nothing, and no other call is refused or ends in a breach, whatever it
helps with on its way. -/

namespace MultiSwap

variable {σ α : Type}

def Call.Misses (c : Call α) (n : Nat) (e : OutOfBounds) : Prop :=
  e.len = n ∧ ∃ before after, c.slots = before ++ e.index :: after ∧ (∀ k ∈ before, k < n) ∧
    n ≤ e.index

theorem Call.firstBeyond_eq_some_iff {c : Call α} {n : Nat} {e : OutOfBounds} :
    c.firstBeyond n = some e ↔ c.Misses n e := by
  simp only [firstBeyond, Option.map_eq_some_iff, List.find?_eq_some_iff_append, Misses]
  constructor
  · rintro ⟨k, ⟨hk, before, after, hs, hb⟩, rfl⟩
    exact ⟨rfl, before, after, hs, by simpa using hb, by simpa using hk⟩
  · rintro ⟨rfl, before, after, hs, hb, hk⟩
    exact ⟨e.index, ⟨by simpa using hk, before, after, hs, by simpa using hb⟩, rfl⟩

theorem Call.exists_misses_iff {c : Call α} {n : Nat} :
    (∃ e, c.Misses n e) ↔ ∃ k ∈ c.slots, n ≤ k := by
  simp only [← firstBeyond_eq_some_iff, ← Option.isSome_iff_exists, Option.isSome_iff_ne_none, Ne,
    firstBeyond_eq_none_iff, not_forall, Nat.not_lt, exists_prop]

variable [BEq α]

/-- In every slot and on every stack, operations and handoffs are as they may be. -/
structure System.Safe (n : Nat) (s : System σ α) : Prop where
  size : s.memory.size = n
  cells : ∀ (k : Nat) c, s.memory.slots[k]? = some c → c.content.Safe n k
  frames : ∀ (t : Nat) th, s.threads[t]? = some th → ∀ f ∈ th.strand.stack, f.Safe n

/-- A result of a call that is carried out. -/
def Result.IsOrdinary : Result α → Prop
  | .refused _ | .broken _ => False
  | _ => True

/-- A call is refused if it names a slot that the array does not have, and carried out if not. -/
def Call.Answered (c : Call α) (n : Nat) (res : Result α) : Prop :=
  (∃ e, c.Misses n e ∧ res = .refused e) ∨ (∀ k ∈ c.slots, k < n) ∧ res.IsOrdinary

omit [BEq α] in
theorem Call.Answered.refused_iff {c : Call α} {n : Nat} {res : Result α} (h : c.Answered n res)
    (e : OutOfBounds) : res = .refused e ↔ c.Misses n e := by
  rcases h with ⟨e', he', rfl⟩ | ⟨hlt, hres⟩
  · rw [← Call.firstBeyond_eq_some_iff] at he' ⊢
    rw [he', Result.refused.injEq, Option.some.injEq]
  · rw [← Call.firstBeyond_eq_some_iff, Call.firstBeyond_eq_none_iff.2 hlt]
    constructor
    · rintro rfl
      exact absurd hres not_false
    · simp

omit [BEq α] in
theorem Call.Answered.not_broken {c : Call α} {n : Nat} {res : Result α} (h : c.Answered n res)
    (b : Breach) : res ≠ .broken b := by
  rcases h with ⟨e, -, rfl⟩ | ⟨-, hres⟩
  · simp
  · rintro rfl
    exact absurd hres not_false

theorem Outset.answered {fresh : Stamp} {n : Nat} {c : Call α} {res : Result α}
    (h : Outset fresh n c (.done res)) : c.Answered n res := by
  cases h with
  | refused hb => exact Or.inl ⟨_, Call.firstBeyond_eq_some_iff.1 hb, rfl⟩
  | len h | isEmpty h | noContents h =>
    subst h
    exact Or.inr ⟨by simp [Call.slots], trivial⟩
  | contradicted hb | nothing hb => exact Or.inr ⟨Call.firstBeyond_eq_none_iff.1 hb, trivial⟩

theorem Deed.ordinary {m m' : Memory α} {fresh : Stamp} {f : Frame α} {e : Event α} {move : Move α}
    (h : Deed m fresh f e m' move) {res : Result α} (hr : move.next = .done res) :
    res.IsOrdinary := by
  have hclear {d : Descriptor α} {b : Bool} (ws : List (Word α))
      (hr : Frame.clearFrom d b ws = .done res) : res.IsOrdinary := by
    cases ws with
    | nil =>
      cases hr
      trivial
    | cons w rest => simp [Frame.clearFrom] at hr
  have hclearing {d : Descriptor α} {v : Verdict}
      (hr : (Frame.clearing d v).next = .done res) : res.IsOrdinary := by
    cases v with
    | commit => exact hclear d.words hr
    | pending | abort => exact hclear d.words.reverse hr
  cases h with
  | got | gotLast | setWon | casRefused | casWon | releaseGone | releaseWon | releaseLost =>
    cases hr
    trivial
  | driveSettled | concludeWon | concludeLost => exact hclearing hr
  | clearGone | clearWon | clearLost => exact hclear _ hr
  | _ => simp [Move.goto] at hr

namespace Course

variable {client : Client σ α} {values : Array α} {states : List σ} {r : Run σ α} {L : Ledger α}

theorem safe (h : Course client values states r L) : r.system.Safe values.size := by
  have hs := h.sound
  refine ⟨h.size_eq, fun k c hc => ?_, fun t th ht f hf => ?_⟩
  · exact h.size_eq ▸ hs.accords.safe_cell hc
  · exact h.size_eq ▸ ((hs.threads t th ht).frames f hf).safe hs.accords

theorem exists_stride (h : Course client values states r L) {t : Nat} {e : Event α}
    (he : (t, e) ∈ r.history) : ∃ r₀ L₀ step, Course client values states r₀ L₀ ∧
      Stride client r₀.system t step ∧ e ∈ step.2 := by
  induction h with
  | new => simp [Run.history, Run.new] at he
  | @start r L t₀ th c move h hs ht hi hc ho ih =>
    rw [Run.history_step, List.mem_append] at he
    rcases he with he | he
    · exact ih he
    · obtain ⟨e', he', heq⟩ := List.mem_map.1 he
      cases heq
      exact ⟨r, L, _, h, .start ht hi hc ho, he'⟩
  | @access r L t₀ th c f below m' e₀ move h hs ht hf hc hd ih =>
    rw [Run.history_step, List.mem_append] at he
    rcases he with he | he
    · exact ih he
    · obtain ⟨e', he', heq⟩ := List.mem_map.1 he
      cases heq
      exact ⟨r, L, _, h, .access ht hf hc hd, he'⟩

theorem answered (h : Course client values states r L) {t : Nat} {c : Call α} {res : Result α}
    (hx : (t, .returned c res) ∈ r.history) : c.Answered values.size res := by
  obtain ⟨r₀, L₀, step, h₀, hstride, he⟩ := h.exists_stride hx
  cases hstride with
  | rest hn => simp at he
  | start ht hi hc ho =>
    rcases List.mem_cons.1 he with he | he
    · cases he
    rcases Move.mem_prelude.1 he with ⟨n, -, he⟩ | ⟨res', hres, he⟩ <;> cases he
    rw [((Next.answer_eq_some_iff _ _ _).1 hres).1, h₀.size_eq] at ho
    exact ho.answered
  | access ht hf hc hd =>
    rcases List.mem_cons.1 he with rfl | he
    · exact absurd hd.isAccess (by simp [Event.isAccess])
    rcases Move.mem_sequel.1 he with ⟨n, -, he⟩ | ⟨res', -, he⟩ | ⟨res', hres, he⟩ <;> cases he
    obtain ⟨c', hc', hb, -⟩ := (h₀.sound.threads _ _ ht).serving (by simp [hf])
    cases hc'.symm.trans hc
    rw [h₀.size_eq] at hb
    exact Or.inr ⟨Call.firstBeyond_eq_none_iff.1 hb,
      hd.ordinary ((Next.answer_eq_some_iff _ _ _).1 hres).1⟩

theorem closes_ordinary (h : Course client values states r L) {t : Nat} {f : Frame α}
    {res : Result α} (hx : (t, .closed f res) ∈ r.history) : res.IsOrdinary := by
  obtain ⟨r₀, L₀, step, h₀, hstride, he⟩ := h.exists_stride hx
  cases hstride with
  | rest hn => simp at he
  | start ht hi hc ho =>
    rcases List.mem_cons.1 he with he | he
    · cases he
    rcases Move.mem_prelude.1 he with ⟨n, -, he⟩ | ⟨res', hres, he⟩ <;> cases he
  | access ht hf hc hd =>
    rcases List.mem_cons.1 he with rfl | he
    · exact absurd hd.isAccess (by simp [Event.isAccess])
    rcases Move.mem_sequel.1 he with ⟨n, -, he⟩ | ⟨res', hres, he⟩ | ⟨res', -, he⟩ <;> cases he
    exact hd.ordinary hres

end Course

theorem Run.step_of_misses {client : Client σ α} {r : Run σ α} {t : Nat} {th : Thread σ α}
    (ht : r.system.threads[t]? = some th) (hi : th.strand.stack = []) {c : Call α}
    (hc : client.next th.state = some c) {e : OutOfBounds} (he : c.Misses r.system.memory.size e) :
    (r.step client t).system.memory = r.system.memory ∧
      (r.step client t).history = r.history ++
        Log.ofStep t (.invoked c :: (c.enterNotes.map .noted ++ [.returned c (.refused e)])) := by
  have hm : c.start th.strand.fresh r.system.memory.size = ⟨c.enterNotes, .done (.refused e)⟩ := by
    simp [Call.start, Call.firstBeyond_eq_some_iff.2 he, Move.done]
  rw [show r.step client t = r.onward t (r.system.step client t) from rfl,
    System.step_start ht hi hc hm, Run.history_step, Run.system_step]
  exact ⟨rfl, rfl⟩

/-- In every run, a call is refused exactly if it names a slot that the array does not have. It is
told the first such slot, and touches nothing. No call and no frame ends in a breach, every access is
of a slot that exists, and what there is of operations and handoffs is as it may be. -/
theorem Run.never_breached (client : Client σ α) (values : Array α) (states : List σ)
    (ts : List Nat) :
    let r := (Run.new (.ofValues values) states).steps client ts
    (∀ t c res, (t, .returned c res) ∈ r.history →
      ((∃ e, res = .refused e) ↔ ∃ k ∈ c.slots, values.size ≤ k) ∧
        (∀ e, res = .refused e → c.Misses values.size e) ∧ ∀ b, res ≠ .broken b) ∧
    (∀ (t : Nat) th c e, r.system.threads[t]? = some th → th.strand.stack = [] →
      client.next th.state = some c → c.Misses values.size e →
        (r.step client t).system.memory = r.system.memory ∧
          (r.step client t).history = r.history ++
            Log.ofStep t (.invoked c :: (c.enterNotes.map .noted ++ [.returned c (.refused e)]))) ∧
    (∀ t f res, (t, .closed f res) ∈ r.history → ∀ b, res ≠ .broken b) ∧
    (∀ (t : Nat) th f below, r.system.threads[t]? = some th → th.strand.stack = f :: below →
      ∃ m e move, (f.request th.strand.fresh).perform r.system.memory = (m, .ok (e, move))) ∧
    r.system.Safe values.size := by
  intro r
  obtain ⟨L, h⟩ : ∃ L, Course client values states r L := exists_course client values states ts
  refine ⟨fun t c res hx => ?_, fun t th c e ht hi hc he => ?_, fun t f res hx b => ?_,
    fun t th f below ht hf => ?_, h.safe⟩
  · have ha := h.answered hx
    refine ⟨?_, fun e => (ha.refused_iff e).1, ha.not_broken⟩
    rw [← Call.exists_misses_iff]
    exact exists_congr fun e => ha.refused_iff e
  · rw [← h.size_eq] at he
    exact Run.step_of_misses ht hi hc he
  · rintro rfl
    exact absurd (h.closes_ordinary hx) not_false
  · have hsafe := h.safe.frames t th ht f (by simp [hf])
    obtain ⟨e, m, move, hp, -⟩ : ∃ e m move,
        (f.request th.strand.fresh).perform r.system.memory = (m, .ok (e, move)) ∧
          Deed r.system.memory th.strand.fresh f e m move :=
      f.exists_deed fun k hk => h.size_eq.symm ▸ hsafe.touches_lt hk
    exact ⟨m, e, move, hp⟩

end MultiSwap
