import MultiSwap.Proofs.Recurrence

/-! Help removes what it helped. The frames that help with a cell found in a slot do not end before the
cell has left the slot, whoever took it out, and nobody meets it again after that. So a frame that
looks once more at the slot when the help is over finds another cell. -/

namespace MultiSwap

variable {σ α : Type}

/-- The frame is at work on the cell `c` of slot `k`. -/
def Frame.Tackles (k : Nat) (c : Cell α) (f : Frame α) : Prop :=
  match c.content with
  | .plain _ => False
  | .reserved h => f.role = .settling c.stamp h
  | .claimed d => f.Minds d k

namespace System

def depth (s : System σ α) (t : Nat) : Nat :=
  s.threads[t]?.elim 0 fun th => th.strand.stack.length

def Tackles (s : System σ α) (t n k : Nat) (c : Cell α) : Prop :=
  ∃ th above f below, s.threads[t]? = some th ∧ th.strand.stack = above ++ f :: below ∧
    n ≤ below.length ∧ f.Tackles k c

theorem depth_eq {s : System σ α} {t : Nat} {th : Thread σ α} (ht : s.threads[t]? = some th) :
    s.depth t = th.strand.stack.length := by
  simp [depth, ht]

theorem Tackles.lt_depth {s : System σ α} {t n k : Nat} {c : Cell α} (h : s.Tackles t n k c) :
    n < s.depth t := by
  obtain ⟨th, above, f, below, ht, hf, hn, -⟩ := h
  rw [depth_eq ht, hf, List.length_append, List.length_cons]
  omega

end System

variable [BEq α]

/-- The next step of thread `t` finds the cell `c` in slot `k` and calls for more before it goes on:
it turns to help with the cell. -/
def System.Helps (client : Client σ α) (s : System σ α) (t k : Nat) (c : Cell α) : Prop :=
  (s.step client t).2.head? = some (.loaded k c) ∧ s.depth t < (s.step client t).1.depth t

/-- However the run goes on, no slot holds the cell with the stamp `s`, and nobody finds it in one. -/
structure Run.Rid (client : Client σ α) (r : Run σ α) (s : Stamp) : Prop where
  lacks : ∀ us, (r.steps client us).system.memory.Lacks s
  unmet : ∀ us, ∀ x ∈ (r.steps client us).history.drop r.history.length, ∀ k c,
    x.2 = .loaded k c → c.stamp ≠ s

section

variable {L : Ledger α} {m m' : Memory α} {fresh : Stamp} {f : Frame α} {e : Event α}
  {move : Move α} {k : Nat} {c : Cell α}

theorem Deed.helped (h : Deed m fresh f e m' move) (he : e = .loaded k c)
    (hn : 1 < move.next.frames.length) :
    ∃ note g after, c.assistance = some (note, g) ∧ move.next = .call g after := by
  cases h with
  | helps hw hc hg hd =>
    cases he
    exact ⟨_, _, _, hg, rfl⟩
  | @claimHeld d word rest _ hc hd | @clearGone d takesEffect word rest _ hc hd =>
    cases rest <;> exact absurd hn (by simp [Frame.claimFrom, Frame.clearFrom, Next.frames])
  | got | gotLast | gotNext | setReady | casReady | casRefused | claimReady | claimRefused
  | clearHeld | releaseHeld | releaseGone => exact absurd hn (by simp [Move.goto, Move.done, Next.frames])
  | _ => cases he

theorem Memory.Accords.tackles_assistance (hm : m.Accords L) (hc : m.slots[k]? = some c)
    {note : Note} {g : Frame α} (hg : c.assistance = some (note, g)) : g.Tackles k c := by
  obtain ⟨s, x⟩ := c
  cases x with
  | plain v => cases hg
  | reserved h =>
    cases hg
    rfl
  | claimed d =>
    cases hg
    exact ⟨rfl, hm.formed.word_of_took ⟨s, hm.cells k _ hc⟩⟩

/-- Whoever is at work on a cell stays so as long as the cell is in its slot. -/
theorem Deed.tackles (h : Deed m fresh f e m' move) (hm : m.Accords L)
    (hf : f.Sound L m fresh.owner) (hs : L fresh = none)
    (hl : L c.stamp = some (.cell k c.content)) (hc : m'.slots[k]? = some c)
    (ht : f.Tackles k c) : ∃ g ∈ move.next.frames, g.Tackles k c := by
  obtain ⟨s, x⟩ := c
  cases x with
  | plain v => exact absurd ht not_false
  | reserved g => exact h.tends hs hf ht (by rwa [(hm.formed.reserved hl).1])
  | claimed d => exact h.minds hm hf ht ⟨s, hc⟩

end

section

variable {client : Client σ α} {s : System σ α} {L : Ledger α} {t t' n k : Nat} {th : Thread σ α}
  {c : Cell α}

omit [BEq α] in
theorem System.Tackles.start (h : s.Tackles t' n k c) (ht : s.threads[t]? = some th)
    (hi : th.strand.stack = []) (th₁ : Thread σ α) :
    System.Tackles ⟨s.memory, s.threads.set t th₁⟩ t' n k c := by
  obtain ⟨th', above, f, below, ht', hf, hn, htackles⟩ := h
  have hmem : f ∈ th'.strand.stack := by simp [hf]
  exact ⟨th', above, f, below, thread_of_start ht hi ht' hmem, hf, hn, htackles⟩

theorem System.Tackles.access (h : s.Tackles t' n k c) (hs : s.Sound client L)
    (ht : s.threads[t]? = some th) {f : Frame α} {below : List (Frame α)}
    (hf : th.strand.stack = f :: below) {m' : Memory α} {e : Event α} {move : Move α}
    (hd : Deed s.memory th.strand.fresh f e m' move) (hl : L c.stamp = some (.cell k c.content))
    (hc : m'.slots[k]? = some c) :
    System.Tackles ⟨m', s.threads.set t (th.onward client below move.next)⟩ t' n k c := by
  obtain ⟨th', above, g, rest, ht', hg, hn, htackles⟩ := h
  by_cases he : t = t'
  · subst he
    rw [ht] at ht'
    cases ht'
    have hth := hs.threads t th ht
    have hset := Thread.getElem?_set_self ht (th.onward client below move.next)
    rw [hf] at hg
    cases above with
    | nil =>
      -- the frame at work on the cell is the top one
      obtain ⟨rfl, rfl⟩ := List.cons.inj hg
      obtain ⟨g', hg', htackles'⟩ :=
        hd.tackles hs.accords (hth.sound_top hf) hth.fresh_unused hl hc htackles
      obtain ⟨pre, post, hframes⟩ := List.append_of_mem hg'
      refine ⟨_, pre, g', post ++ below, hset, ?_, ?_, htackles'⟩
      · show move.next.frames ++ below = _
        rw [hframes, List.append_assoc, List.cons_append]
      · rw [List.length_append]
        omega
    | cons a above =>
      obtain ⟨rfl, rfl⟩ := List.cons.inj hg
      exact ⟨_, move.next.frames ++ above, g, rest, hset, (List.append_assoc _ _ _).symm, hn,
        htackles⟩
  · exact ⟨th', above, g, rest, by rwa [List.getElem?_set_ne he], hg, hn, htackles⟩

theorem System.Sound.helps (h : s.Sound client L) (hh : s.Helps client t k c) :
    (∃ note g, c.assistance = some (note, g)) ∧ L c.stamp = some (.cell k c.content) ∧
      (s.step client t).1.depth t = s.depth t + 1 ∧
        (s.step client t).1.Tackles t (s.depth t) k c := by
  obtain ⟨hevents, hdeeper⟩ := hh
  have hstride := h.stride t
  generalize s.step client t = step at hstride hevents hdeeper ⊢
  cases hstride with
  | rest => cases hevents
  | start => cases hevents
  | @access th c' f below m' e move ht hf hc hd =>
    have hset := Thread.getElem?_set_self ht (th.onward client below move.next)
    have hafter : depth ⟨m', s.threads.set t (th.onward client below move.next)⟩ t =
        (move.next.frames ++ below).length := depth_eq (s := ⟨m', _⟩) hset
    have hbefore : s.depth t = below.length + 1 := by
      rw [depth_eq ht, hf, List.length_cons]
    rw [hafter, hbefore, List.length_append] at hdeeper
    obtain ⟨note, g, after, hg, hnext⟩ := hd.helped (Option.some.inj hevents) (by omega)
    obtain ⟨-, hslot⟩ := hd.slot_of_loaded (Option.some.inj hevents)
    have hframes : move.next.frames = [g, after] := by
      rw [hnext]
      rfl
    refine ⟨⟨note, g, hg⟩, h.accords.cells k c hslot, ?_, _, [], g, after :: below, hset, ?_, ?_,
      h.accords.tackles_assistance hslot hg⟩
    · rw [hafter, hbefore, hframes]
      rfl
    · show move.next.frames ++ below = _
      rw [hframes]
      rfl
    · exact Nat.le_of_eq hbefore

end

namespace Course

variable {client : Client σ α} {values : Array α} {states : List σ} {r : Run σ α} {L : Ledger α}
  {t n k : Nat} {c : Cell α}

theorem tackles (h : Course client values states r L) (hl : L c.stamp = some (.cell k c.content))
    (ht : r.system.Tackles t n k c) (us : List Nat) :
    ∃ L', Course client values states (r.steps client us) L' ∧
      L' c.stamp = some (.cell k c.content) ∧
        ((r.steps client us).system.memory.slots[k]? = some c →
          (r.steps client us).system.Tackles t n k c) := by
  induction us using List.reverseRecOn with
  | nil => exact ⟨L, h, hl, fun _ => ht⟩
  | append_singleton us t₀ ih =>
    obtain ⟨L', h', hl', hstays⟩ := ih
    rw [Run.steps_append]
    generalize r.steps client us = r' at h' hstays ⊢
    have hs := h'.sound
    have hstride := hs.stride t₀
    rw [show r'.steps client [t₀] = r'.onward t₀ (r'.system.step client t₀) from rfl]
    generalize r'.system.step client t₀ = step at hstride ⊢
    cases hstride with
    | rest hn =>
      refine ⟨L', ?_, hl', hstays⟩
      rwa [Run.onward, List.map_nil, Array.appendList_nil]
    | start ht hi hc ho =>
      have hw := (ho.grows (hs.threads t₀ _ ht).fresh_unused).within
      exact ⟨_, h'.start hs ht hi hc ho, hw _ _ hl', fun hslot => (hstays hslot).start ht hi _⟩
    | @access th call f below m' e move ht hf hc hd =>
      have hth := hs.threads t₀ th ht
      have heff := hd.effect hs.accords (hth.sound_top hf)
      refine ⟨_, h'.access hs ht hf hc hd, heff.within hth.fresh_unused _ _ hl', fun hslot => ?_⟩
      rcases heff.slot_cases hslot with hold | ⟨hfresh, -⟩
      · exact (hstays hold).access hs ht hf hd hl' hslot
      · rw [hfresh, hth.fresh_unused] at hl'
        cases hl'

theorem rid (h : Course client values states r L) {s : Stamp} {y : Nat × Event α}
    (hy : y ∈ r.history) (hw : y.2.withdraws s = true) : r.Rid client s := by
  constructor
  · intro us
    obtain ⟨L', h', -⟩ := h.steps_grows us
    exact h'.lacks ((Run.history_prefix_steps client r us).subset hy) hw
  · intro us x hx j b hb hs
    obtain ⟨L', h', -⟩ := h.steps_grows us
    obtain ⟨more, hmore⟩ := Run.history_prefix_steps client r us
    rw [← hmore, List.drop_left] at hx
    obtain ⟨pre, post, rfl⟩ := List.append_of_mem hx
    obtain ⟨t', e⟩ := x
    obtain rfl : e = .loaded j b := hb
    rw [← List.append_assoc] at hmore
    obtain ⟨r₀, L₀, h₀, -, hhist, th, f, below, m', move, ht, hf, hd⟩ :=
      h'.exists_access hmore.symm rfl
    have hlacks := h₀.lacks (hhist ▸ List.mem_append_left pre hy) hw
    exact hlacks j b (hd.slot_of_loaded rfl).2 hs

end Course

/-- In every run, help with a cell is over only when the cell is in no slot any more, and nobody meets
it again. -/
theorem Run.help_removes (client : Client σ α) (values : Array α) (states : List σ)
    (ts : List Nat) (t k : Nat) (c : Cell α) :
    let r := (Run.new (.ofValues values) states).steps client ts
    r.system.Helps client t k c →
      (∃ note g, c.assistance = some (note, g)) ∧
        (r.step client t).system.depth t = r.system.depth t + 1 ∧
          ∀ us, ((r.step client t).steps client us).system.depth t ≤ r.system.depth t →
            ((r.step client t).steps client us).Rid client c.stamp := by
  intro r hhelps
  obtain ⟨L, h⟩ : ∃ L, Course client values states r L := exists_course client values states ts
  obtain ⟨hassist, hl, hdepth, htackles⟩ := h.sound.helps hhelps
  refine ⟨hassist, hdepth, fun us hover => ?_⟩
  obtain ⟨L₁, h₁, hg⟩ := h.step_grows t
  obtain ⟨L', h', hl', hstays⟩ := h₁.tackles (hg.within _ _ hl) htackles us
  obtain ⟨y, hy, hw⟩ := (h'.tenure hl').resolve_left fun hslot =>
    Nat.not_lt_of_le hover (hstays hslot).lt_depth
  exact h'.rid hy hw

/-- A reader helps with an exchange that its own thread decides in the meantime. The reader's proposal
comes too late then, and it takes the cell out of the slot all the same. -/
theorem Run.help_removes_overtaken :
    let r := (Run.new (.ofValues #[0, 0]) [[.dcas 0 0 1 1 0 1], [.get 0]]).steps .script
      [0, 0, 0, 1]
    let c : Cell Nat := ⟨⟨1, 2⟩, .claimed ⟨⟨1, 0⟩, ⟨0, 0, 1⟩, [⟨1, 0, 1⟩]⟩⟩
    let r' := (r.step .script 1).steps .script
      ([1, 1] ++ List.replicate 13 0 ++ List.replicate 6 1)
    r.system.Helps .script 1 0 c ∧ r'.system.depth 1 ≤ r.system.depth 1 ∧
      r'.Rid .script c.stamp := by
  intro r c r'
  have hhelps : r.system.Helps .script 1 0 c := ⟨rfl, by decide +kernel⟩
  have hover : r'.system.depth 1 ≤ r.system.depth 1 := by decide +kernel
  obtain ⟨-, -, hrid⟩ := Run.help_removes .script #[0, 0] [[.dcas 0 0 1 1 0 1], [.get 0]]
    [0, 0, 0, 1] 1 0 c hhelps
  exact ⟨hhelps, hover, hrid _ hover⟩

end MultiSwap
