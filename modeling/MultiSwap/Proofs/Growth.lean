import MultiSwap.Proofs.Chronicle

/-! What is known of a run stays known as it goes on. A run that goes on keeps its log, its ledger
and the verdicts that are settled, and every change that a log tells of is looked up in the access
that made it, whose outcome is still true of the run now. -/

namespace MultiSwap

variable {σ α : Type}

theorem Ledger.Within.trans {L L' L'' : Ledger α} (h : L.Within L') (h' : L'.Within L'') :
    L.Within L'' :=
  fun s e hs => h' s e (h s e hs)

theorem Grows.trans {L L' L'' : Ledger α} {m m' m'' : Memory α} (h : Grows L L' m m')
    (h' : Grows L' L'' m' m'') : Grows L L'' m m'' := by
  have hverdict {s : Stamp} (hs : m.verdict s ≠ .pending) : m'.verdict s ≠ .pending := by
    rwa [h.settled s hs]
  refine ⟨h.within.trans h'.within, h'.size.trans h.size, fun s hs => ?_, fun d k hv hh => ?_, ?_⟩
  · rw [h'.settled s (hverdict hs), h.settled s hs]
  · have hv' : m'.verdict d.stamp = .commit := by rw [h.settled _ (by simp [hv]), hv]
    exact h.cleared d k hv (h'.cleared d k hv' hh)
  · exact fun r g hr ht => h'.timely r g (h.within _ _ hr) (h.timely r g hr ht)

variable [BEq α]

theorem Run.history_steps_snoc (client : Client σ α) (r : Run σ α) (us : List Nat) (t : Nat) :
    (r.steps client (us ++ [t])).history =
      (r.steps client us).history ++ Log.ofStep t ((r.steps client us).system.step client t).2 := by
  rw [steps_append]
  exact history_step _ t (System.step _ _ _).1 (System.step _ _ _).2

theorem Run.history_prefix_steps (client : Client σ α) (r : Run σ α) (us : List Nat) :
    r.history <+: (r.steps client us).history := by
  induction us using List.reverseRecOn with
  | nil => exact List.prefix_refl _
  | append_singleton us t ih =>
    rw [history_steps_snoc]
    exact ih.trans (List.prefix_append _ _)

/-- Where event `e` of the next step of thread `t` comes from: the start of a call, or an access. -/
inductive System.Origin (client : Client σ α) (s : System σ α) (t : Nat) (e : Event α) : Prop where
  | start {th : Thread σ α} {c : Call α} (ht : s.threads[t]? = some th)
      (hi : th.strand.stack = []) (hc : client.next th.state = some c)
      (he : e ∈ .invoked c :: (c.start th.strand.fresh s.memory.size).prelude c) :
    Origin client s t e
  | access {th : Thread σ α} {c : Call α} {f : Frame α} {below : List (Frame α)}
      {m' : Memory α} {e₀ : Event α} {move : Move α} (ht : s.threads[t]? = some th)
      (hf : th.strand.stack = f :: below) (hd : Deed s.memory th.strand.fresh f e₀ m' move)
      (hm : (s.step client t).1.memory = m')
      (hl : (s.step client t).2 = e₀ :: move.sequel f c below)
      (he : e ∈ e₀ :: move.sequel f c below) : Origin client s t e

theorem System.Sound.origin {client : Client σ α} {s : System σ α} {L : Ledger α}
    (h : s.Sound client L) {t : Nat} {e : Event α} (he : e ∈ (s.step client t).2) :
    s.Origin client t e := by
  cases ht : s.threads[t]? with
  | none =>
    rw [step_rest (by simp [ht])] at he
    exact absurd he List.not_mem_nil
  | some th =>
    cases hc : client.next th.state with
    | none =>
      rw [step_rest (by simp [ht, hc])] at he
      exact absurd he List.not_mem_nil
    | some c =>
      cases hf : th.strand.stack with
      | nil =>
        rw [step_start ht hf hc rfl] at he
        exact .start ht hf hc he
      | cons f below =>
        have hsound := (h.threads t th ht).frames f (by simp [hf])
        obtain ⟨e₀, m', move, hp, hd⟩ : ∃ e₀ m' move,
            (f.request th.strand.fresh).perform s.memory = (m', .ok (e₀, move)) ∧
              Deed s.memory th.strand.fresh f e₀ m' move :=
          f.exists_deed fun k hk => hsound.touches_lt h.accords hk
        have hstep := step_access ht hf hc hp
        rw [hstep] at he
        exact .access ht hf hd (by rw [hstep]) (by rw [hstep]) he

namespace Course

variable {client : Client σ α} {values : Array α} {states : List σ} {r : Run σ α} {L : Ledger α}

theorem step_grows (h : Course client values states r L) (t : Nat) :
    ∃ L', Course client values states (r.step client t) L' ∧
      Grows L L' r.system.memory (r.step client t).system.memory := by
  have hs := h.sound
  have hstride := hs.stride t
  rw [show r.step client t = r.onward t (r.system.step client t) from rfl]
  generalize r.system.step client t = step at hstride ⊢
  cases hstride with
  | rest hn =>
    refine ⟨L, ?_, .refl L _⟩
    rwa [Run.onward, List.map_nil, Array.appendList_nil]
  | start ht hi hc ho =>
    exact ⟨_, h.start hs ht hi hc ho, ho.grows (hs.threads t _ ht).fresh_unused⟩
  | access ht hf hc hd =>
    have hth := hs.threads t _ ht
    exact ⟨_, h.access hs ht hf hc hd,
      (hd.effect hs.accords (hth.sound_top hf)).grows hs.accords hth.fresh_unused⟩

theorem steps_grows (h : Course client values states r L) (us : List Nat) :
    ∃ L', Course client values states (r.steps client us) L' ∧
      Grows L L' r.system.memory (r.steps client us).system.memory := by
  induction us using List.reverseRecOn with
  | nil => exact ⟨L, h, .refl L _⟩
  | append_singleton us t ih =>
    obtain ⟨L', h', hg⟩ := ih
    obtain ⟨L'', h'', hg'⟩ := h'.step_grows t
    rw [Run.steps_append]
    exact ⟨L'', h'', hg.trans hg'⟩

/-- Every change of the memory is the effect of an access, and what is known of the run since then
has grown. -/
theorem exists_effect (h : Course client values states r L) {t : Nat} {e : Event α}
    (he : (t, e) ∈ r.history) (hwins : e.wins = true) :
    ∃ (r₀ : Run σ α) (L₀ : Ledger α) (fresh : Stamp) (m' : Memory α),
      Course client values states r₀ L₀ ∧ Effect L₀ r₀.system.memory fresh e m' ∧
        Grows (L₀.after e) L m' r.system.memory := by
  induction h with
  | new => simp [Run.history, Run.new] at he
  | @start r L t₀ th c move h hs ht hi hc ho ih =>
    rw [Run.history_step, List.mem_append] at he
    have hold : (t, e) ∈ r.history := by
      refine he.resolve_right fun he => ?_
      rw [move.quiet_ofStart c t₀ _ he] at hwins
      simp at hwins
    obtain ⟨r₀, L₀, fresh, m', h₀, heff, hg⟩ := ih hold
    exact ⟨r₀, L₀, fresh, m', h₀, heff, hg.trans (ho.grows (hs.threads t₀ th ht).fresh_unused)⟩
  | @access r L t₀ th c f below m' e₀ move h hs ht hf hc hd ih =>
    have hth := hs.threads t₀ th ht
    have heff := hd.effect hs.accords (hth.sound_top hf)
    rw [Run.history_step] at he
    rcases Log.mem_of_wins (move.quiet_ofSequel f c below t₀) he hwins with he | he
    · obtain ⟨r₀, L₀, fresh, m₀, h₀, heff₀, hg⟩ := ih he
      exact ⟨r₀, L₀, fresh, m₀, h₀, heff₀, hg.trans (heff.grows hs.accords hth.fresh_unused)⟩
    · cases he
      exact ⟨r, L, _, m', h, heff, .refl _ _⟩

end Course

end MultiSwap
