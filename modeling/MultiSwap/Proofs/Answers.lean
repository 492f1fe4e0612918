import MultiSwap.Proofs.Upkeep

/-! What the call that opened an operation answers. It stays at work on the operation until that is
decided, and its answer is whether it takes effect. -/

namespace MultiSwap

variable {σ α : Type}

theorem Log.split_append {log more before after : Log α} {x : Nat × Event α}
    (h : log ++ more = before ++ x :: after) :
    (∃ rest, log = before ++ x :: rest ∧ after = rest ++ more) ∨
      ∃ pre, before = log ++ pre ∧ more = pre ++ x :: after := by
  rcases List.append_eq_append_iff.1 h with ⟨pre, hb, hm⟩ | ⟨rest, hl, hr⟩
  · exact Or.inr ⟨pre, hb, hm⟩
  · cases rest with
    | nil =>
      rw [List.append_nil] at hl
      exact Or.inr ⟨[], by simp [hl], hr.symm⟩
    | cons y rest =>
      cases hr
      exact Or.inl ⟨rest, hl, rfl⟩

theorem Log.split_access {log trail before after : Log α} {t : Nat} {e : Event α}
    {p : Nat × Event α → Bool} {x : Nat × Event α} (hq : ∀ y ∈ trail, p y = false)
    (hx : p x = true) (h : log ++ (t, e) :: trail = before ++ x :: after) :
    (∃ rest, log = before ++ x :: rest ∧ after = rest ++ (t, e) :: trail) ∨
      before = log ∧ x = (t, e) ∧ after = trail := by
  rcases split_append h with h | ⟨pre, hb, hm⟩
  · exact Or.inl h
  · cases pre with
    | nil =>
      obtain ⟨hx, ha⟩ := List.cons.inj hm
      exact Or.inr ⟨by simpa using hb, hx.symm, ha.symm⟩
    | cons y pre =>
      have hmem : x ∈ trail := by
        rw [(List.cons.inj hm).2]
        simp
      rw [hq x hmem] at hx
      simp at hx

theorem Log.split_quiet {log trail before after : Log α} {p : Nat × Event α → Bool}
    {x : Nat × Event α} (hq : ∀ y ∈ trail, p y = false) (hx : p x = true)
    (h : log ++ trail = before ++ x :: after) :
    ∃ rest, log = before ++ x :: rest ∧ after = rest ++ trail := by
  apply (split_append h).resolve_right
  intro hlate
  obtain ⟨pre, -, hm⟩ := hlate
  rw [hq x (by simp [hm])] at hx
  simp at hx

/-- The event puts `d` into its first slot, over a plain value. -/
def Event.Opens (d : Descriptor α) (e : Event α) : Prop :=
  ∃ r u s, e = .swapped d.first.index ⟨r, .plain u⟩ true ⟨s, .claimed d⟩

theorem Event.Opens.wins {d : Descriptor α} {e : Event α} (h : e.Opens d) : e.wins = true := by
  obtain ⟨r, u, s, rfl⟩ := h
  rfl

variable [BEq α]

omit [BEq α] in
theorem Next.Onward.getLast {P : Frame α → Prop} {next : Next α} (h : next.Onward P)
    (hn : next.frames ≠ []) : ∃ g, next.frames.getLast? = some g ∧ P g := by
  cases next with
  | goto g => exact ⟨g, rfl, h⟩
  | call g after => exact ⟨after, rfl, h.2⟩
  | done r => exact absurd rfl hn

section

variable {client : Client σ α} {s : System σ α} {L : Ledger α} {t : Nat} {th : Thread σ α}
  {f : Frame α} {below : List (Frame α)} {m' : Memory α} {e : Event α} {move : Move α}

theorem System.Attends.access {t' : Nat} {d : Descriptor α} (h : s.Attends t' d)
    (hs : s.Sound client L) (ht : s.threads[t]? = some th) (hf : th.strand.stack = f :: below)
    (hd : Deed s.memory th.strand.fresh f e m' move) :
    (System.Attends ⟨m', s.threads.set t (th.onward client below move.next)⟩ t' d ∧
      (t' = t → move.next.answer below = none)) ∨
      t' = t ∧ m'.verdict d.stamp ≠ .pending ∧
        move.next.answer below = some (.flag (m'.verdict d.stamp == .commit)) := by
  by_cases he : t = t'
  · subst he
    obtain ⟨g, hlast, hrole⟩ := h.getLast ht
    have hset := Thread.getElem?_set_self ht (th.onward client below move.next)
    rw [hf] at hlast
    by_cases hb : below = []
    · subst hb
      obtain rfl : f = g := by simpa using hlast
      by_cases hn : move.next.frames = []
      · have hth := hs.threads t th ht
        have hnext := hd.sound_next hs.accords (hth.sound_top hf) hth.fresh_unused
        cases hr : move.next with
        | goto g => simp [hr, Next.frames] at hn
        | call g after => simp [hr, Next.frames] at hn
        | done r =>
          rw [hr] at hnext
          obtain ⟨b, rfl, -, hv, -⟩ := hnext d hrole
          refine Or.inr ⟨rfl, ?_, ?_⟩
          · rw [hv]
            cases b <;> simp
          · rw [hv]
            cases b <;> rfl
      · obtain ⟨g, hg, hrole'⟩ := (hd.onward_role (by simp [hrole])).getLast hn
        refine Or.inl ⟨⟨_, g, hset, ?_, hrole'.trans hrole⟩, fun _ => ?_⟩
        · simpa [Thread.onward, Strand.advance] using hg
        · exact (Next.answer_eq_none_iff _ _).2 (by simpa using hn)
    · refine Or.inl ⟨⟨_, g, hset, ?_, hrole⟩, fun _ => ?_⟩
      · have hlast' : below.getLast? = some g := by
          rwa [List.getLast?_cons_of_ne_nil hb] at hlast
        show (move.next.frames ++ below).getLast? = some g
        rw [List.getLast?_append, hlast']
        rfl
      · exact (Next.answer_eq_none_iff _ _).2 (by simp [hb])
  · exact Or.inl ⟨(of_ne he).2 h, fun h => absurd h.symm he⟩

end

variable {client : Client σ α} {values : Array α} {states : List σ} {r : Run σ α} {L : Ledger α}

/-- The call of thread `t` that opened `d` as its call number `n` is at work on it, or its answer is
whether that takes effect. -/
def Run.Fulfils (r : Run σ α) (t n : Nat) (d : Descriptor α) : Prop :=
  (r.history.answers t).length = n ∧ r.system.Attends t d ∨
    r.system.memory.verdict d.stamp ≠ .pending ∧
      (r.history.answers t)[n]? = some (.flag (r.system.memory.verdict d.stamp == .commit))

omit [BEq α] in
theorem Run.Fulfils.start {t n : Nat} {d : Descriptor α} (h : r.Fulfils t n d) {t₀ : Nat}
    {th : Thread σ α} (ht : r.system.threads[t₀]? = some th) (hi : th.strand.stack = [])
    {c : Call α} {move : Move α} :
    Run.Fulfils (r.onward t₀
      (⟨r.system.memory, r.system.threads.set t₀ (th.onward client [] move.next)⟩,
        .invoked c :: move.prelude c)) t n d := by
  unfold Fulfils
  rw [history_step, Log.answers_append, Log.answers_start, system_step]
  rcases h with ⟨hn, hatt⟩ | ⟨hv, hans⟩
  · have he : t₀ ≠ t := by
      rintro rfl
      obtain ⟨g, hlast, -⟩ := hatt.getLast ht
      simp [hi] at hlast
    rw [if_neg he, List.append_nil]
    exact Or.inl ⟨hn, (System.Attends.of_ne he).2 hatt⟩
  · refine Or.inr ⟨hv, ?_⟩
    rw [List.getElem?_append_left (List.getElem?_eq_some_iff.1 hans).1, hans]

theorem Run.Fulfils.access {t n : Nat} {d : Descriptor α} (h : r.Fulfils t n d)
    (hs : r.system.Sound client L) {t₀ : Nat} {th : Thread σ α}
    (ht : r.system.threads[t₀]? = some th) {f : Frame α} {below : List (Frame α)}
    (hf : th.strand.stack = f :: below) {m' : Memory α} {e : Event α} {move : Move α}
    (hd : Deed r.system.memory th.strand.fresh f e m' move) {c : Call α} :
    Run.Fulfils (r.onward t₀
      (⟨m', r.system.threads.set t₀ (th.onward client below move.next)⟩,
        e :: move.sequel f c below)) t n d := by
  have heff := hd.effect hs.accords ((hs.threads t₀ th ht).sound_top hf)
  unfold Fulfils
  rw [history_step, Log.answers_append, Log.answers_access hd.isAccess, system_step]
  rcases h with ⟨hn, hatt⟩ | ⟨hv, hans⟩
  · rcases hatt.access hs ht hf hd with ⟨hatt, hnone⟩ | ⟨rfl, hv, hans⟩
    · refine Or.inl ⟨?_, hatt⟩
      by_cases he : t₀ = t
      · rw [if_pos he, hnone he.symm, Option.toList_none, List.append_nil, hn]
      · rw [if_neg he, List.append_nil, hn]
    · refine Or.inr ⟨hv, ?_⟩
      rw [if_pos rfl, hans, Option.toList_some, ← hn, List.getElem?_concat_length]
  · apply Or.inr
    have hkeep : m'.verdict d.stamp = r.system.memory.verdict d.stamp := heff.settled_of_settled hv
    rw [hkeep, List.getElem?_append_left (List.getElem?_eq_some_iff.1 hans).1]
    exact ⟨hv, hans⟩

/-- Whoever opens an operation makes it in a call of its own, and fulfils that. -/
theorem Course.fulfils (h : Course client values states r L) {before after : Log α} {t : Nat}
    {e₀ : Event α} {d : Descriptor α} (ho : e₀.Opens d)
    (hl : r.history = before ++ (t, e₀) :: after) :
    d.stamp.owner = t + 1 ∧ r.Fulfils t (before.answers t).length d := by
  induction h generalizing after with
  | new => simp [Run.history, Run.new] at hl
  | @start r L t₀ th c move h hs ht hi hc hout ih =>
    rw [Run.history_step] at hl
    obtain ⟨rest, hl, -⟩ := Log.split_quiet (move.quiet_ofStart c t₀) ho.wins hl
    obtain ⟨hown, hfulfils⟩ := ih hl
    exact ⟨hown, hfulfils.start ht hi⟩
  | @access r L t₀ th c f below m' e move h hs ht hf hc hd ih =>
    rw [Run.history_step] at hl
    rcases Log.split_access (move.quiet_ofSequel f c below t₀) ho.wins hl with
      ⟨rest, hl, -⟩ | ⟨rfl, hx, -⟩
    · obtain ⟨hown, hfulfils⟩ := ih hl
      exact ⟨hown, hfulfils.access hs ht hf hd⟩
    · cases hx
      have hth := hs.threads t th ht
      obtain ⟨u, v, s, rfl⟩ := ho
      obtain ⟨c', hc', -, hserved⟩ := hth.serving (by simp [hf])
      rcases hd.brings hs.accords (hth.sound_top hf) rfl with ⟨-, hown, hrole, hnext⟩ | ⟨_, _, he, -⟩
      · rw [hf] at hserved
        obtain ⟨rfl, -⟩ := hserved.bottom hrole
        have hset := Thread.getElem?_set_self ht (th.onward client [] move.next)
        refine ⟨hown.trans hth.owner, Or.inl ⟨?_, _, .drive d, hset, ?_, rfl⟩⟩
        · rw [Run.history_step, Log.answers_append, Log.answers_access rfl, hnext]
          simp [Next.answer]
        · simp [Thread.onward, Strand.advance, hnext, Next.frames]
      · simp at he

/-- A pending operation is met by others only while the call that made it is at work on it. -/
theorem Course.attended (h : Course client values states r L) {d : Descriptor α}
    (ho : L.Opened d) (hv : r.system.memory.verdict d.stamp = .pending) :
    ∃ t, r.system.Attends t d := by
  have hacc := h.sound.accords
  have hd := hacc.formed.descriptor_of_opened ho
  obtain ⟨s, hs⟩ := ho
  rcases (h.chronicle.origin s _ _ hs).claimed with ⟨-, t, r, u, -, he⟩ | ⟨t, r, g, rfl, he⟩
  · obtain ⟨before, after, hl⟩ := List.append_of_mem he
    rcases (h.fulfils ⟨r, u, s, rfl⟩ hl).2 with ⟨-, hatt⟩ | ⟨hn, -⟩
    · exact ⟨t, hatt⟩
    · exact absurd hv hn
  · -- no handoff is for a first slot
    obtain ⟨-, -, w, hw, hk, -⟩ := hacc.formed.reserved (h.chronicle.swapped t _ _ _ he).1
    have hlt := hd.first_lt hw
    omega

theorem Course.maker (h : Course client values states r L) {t : Nat} {d : Descriptor α}
    (hatt : r.system.Attends t d) : L.Opened d ∧ ∃ c,
      (r.history.calls t)[(r.history.answers t).length]? = some c ∧
        c.firstBeyond r.system.memory.size = none ∧ c.Makes (t + 1) d := by
  obtain ⟨th, f, ht, hlast, hrole⟩ := hatt
  have hth := h.sound.threads t th ht
  have hne : th.strand.stack ≠ [] := List.ne_nil_of_mem (List.mem_of_getLast? hlast)
  obtain ⟨c, hc, hb, hserved⟩ := hth.serving hne
  refine ⟨(hth.frames f (List.mem_of_getLast? hlast)).opened hrole, c, ?_, hb, ?_⟩
  · rw [h.current_call ht hne, hc]
  · exact (Frame.serves_of_driving hrole _ c).1 (hserved.getLast hlast)

end MultiSwap
