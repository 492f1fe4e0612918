import MultiSwap.Proofs.Changes
import MultiSwap.Proofs.Effort

/-! Every step brings the rank of a system down, except that a client may ask for more when it is
answered. A change lowers the bound on the changes to come, which outweighs that all threads may
have to look around anew. Any other step lowers the toil of its thread. -/

namespace MultiSwap

variable {σ α : Type}

section

variable {s s' : System σ α} {todo : σ → Nat}

/-- A digit that goes down outweighs all that come after it. -/
theorem digits_lt {a a' b b' n : Nat} (hb : b' ≤ n) (h : a' < a ∨ a' ≤ a ∧ b' < b) :
    a' * (n + 1) + b' < a * (n + 1) + b := by
  rcases h with h | ⟨h, hlt⟩
  · have hle : (a' + 1) * (n + 1) ≤ a * (n + 1) := Nat.mul_le_mul_right _ h
    rw [Nat.succ_mul] at hle
    omega
  · have hle : a' * (n + 1) ≤ a * (n + 1) := Nat.mul_le_mul_right _ h
    omega

/-- The steps of calls that are left come first, then the handoffs, then the cells. -/
theorem System.changes_lt (hsize : s'.memory.size = s.memory.size)
    (hlen : s'.threads.length = s.threads.length)
    (hoffers : s'.offers ≤ s'.threads.length * (s'.memory.size + 1))
    (h : s'.stages todo < s.stages todo ∨ s'.stages todo ≤ s.stages todo ∧
      (s'.offers < s.offers ∨ s'.offers ≤ s.offers ∧ s'.memory.load < s.memory.load)) :
    s'.changes todo < s.changes todo := by
  have hload := s'.memory.load_le
  unfold changes
  rw [hlen, hsize] at hoffers ⊢
  rw [hsize] at hload
  refine digits_lt hload ?_
  rcases h with h | ⟨h, hlt | ⟨hle, hlt⟩⟩
  · exact Or.inl (digits_lt hoffers (Or.inl h))
  · exact Or.inl (digits_lt hoffers (Or.inr ⟨h, hlt⟩))
  · exact Or.inr ⟨Nat.add_le_add (Nat.mul_le_mul_right _ h) hle, hlt⟩

theorem System.changes_le (hsize : s'.memory.size = s.memory.size)
    (hlen : s'.threads.length = s.threads.length) (hstages : s'.stages todo ≤ s.stages todo)
    (hoffers : s'.offers ≤ s.offers) (hload : s'.memory.load ≤ s.memory.load) :
    s'.changes todo ≤ s.changes todo := by
  unfold changes
  rw [hlen, hsize]
  exact Nat.add_le_add (Nat.mul_le_mul_right _
    (Nat.add_le_add (Nat.mul_le_mul_right _ hstages) hoffers)) hload

theorem Memory.toll_congr {m m' : Memory α} (h : m'.size = m.size) : m'.toll = m.toll := by
  unfold toll summit lap
  rw [h]

/-- A change outweighs that every stack may grow anew, one by a frame more. -/
theorem System.rank_lt_of_changes (hsize : s'.memory.size = s.memory.size)
    (hlen : s'.threads.length = s.threads.length)
    (hchanges : s'.changes todo < s.changes todo)
    (hgirth : (s'.sum fun th => s'.memory.girth th.strand.stack) ≤
      (s.sum fun th => s.memory.girth th.strand.stack) + s.threads.length * (s.memory.toll + 1) + 1)
    (htoil : (s'.sum fun th => s'.memory.toil th.strand.stack) ≤
      ((s'.sum fun th => s'.memory.girth th.strand.stack) + s.threads.length) *
        (s.memory.toll + 1)) :
    s'.rank todo < s.rank todo := by
  have htoll := Memory.toll_congr hsize
  have hheight : s'.height todo ≤ s.height todo := by
    have hmul : (s.threads.length * (s.memory.toll + 1) + 1) * (s'.changes todo + 1) ≤
        (s.threads.length * (s.memory.toll + 1) + 1) * s.changes todo :=
      Nat.mul_le_mul_left _ hchanges
    unfold height
    rw [hlen, htoll]
    rw [Nat.mul_succ] at hmul
    omega
  -- the toil that is left afterwards is less than what one change stands for
  have hless : (s'.sum fun th => s'.memory.toil th.strand.stack) <
      (s'.height todo + s.threads.length + 1) * (s.memory.toll + 1) := by
    refine Nat.lt_of_le_of_lt htoil (Nat.mul_lt_mul_of_pos_right ?_ (Nat.succ_pos _))
    unfold height
    omega
  have hone : (s'.changes todo + 1) *
      ((s'.height todo + s.threads.length + 1) * (s.memory.toll + 1)) ≤
        s.changes todo * ((s.height todo + s.threads.length + 1) * (s.memory.toll + 1)) :=
    Nat.mul_le_mul hchanges (Nat.mul_le_mul_right _ (by omega))
  unfold rank
  rw [hlen, htoll]
  rw [Nat.succ_mul] at hone
  omega

theorem System.rank_lt_of_toil (hsize : s'.memory.size = s.memory.size)
    (hlen : s'.threads.length = s.threads.length)
    (hchanges : s'.changes todo ≤ s.changes todo)
    (hgirth : (s'.sum fun th => s'.memory.girth th.strand.stack) ≤
      s.sum fun th => s.memory.girth th.strand.stack)
    (htoil : (s'.sum fun th => s'.memory.toil th.strand.stack) <
      s.sum fun th => s.memory.toil th.strand.stack) :
    s'.rank todo < s.rank todo := by
  have htoll := Memory.toll_congr hsize
  have hheight : s'.height todo ≤ s.height todo := by
    unfold height
    rw [hlen, htoll]
    exact Nat.add_le_add hgirth (Nat.mul_le_mul_left _ hchanges)
  unfold rank
  rw [hlen, htoll]
  refine Nat.add_lt_add_of_le_of_lt (Nat.mul_le_mul hchanges (Nat.mul_le_mul_right _ ?_)) htoil
  omega

end

theorem Next.length_frames_le (next : Next α) : next.frames.length ≤ 2 := by
  cases next <;> simp [frames]

namespace Thread

variable {client : Client σ α} {th : Thread σ α} {todo : σ → Nat} {below : List (Frame α)}
  {next : Next α}

theorem stages_onward (hn : next.answer below = none) (m : Memory α) :
    (th.onward client below next).stages todo m =
      4 * todo th.state + m.stage (Frame.errand (next.frames ++ below)) := by
  have hstate : (th.onward client below next).state = th.state :=
    onward_busy ((next.answer_eq_none_iff below).1 hn)
  rw [stages, hstate]
  rfl

theorem stages_onward_lt {res : Result α} (hn : next.answer below = some res)
    (hret : todo (client.absorb th.state res) < todo th.state) (m m' : Memory α) :
    (th.onward client below next).stages todo m' < th.stages todo m := by
  obtain ⟨rfl, rfl⟩ := (next.answer_eq_some_iff below res).1 hn
  show 4 * todo (client.absorb th.state res) + 3 < _
  unfold stages
  omega

end Thread

variable [BEq α]

/-- A change is made by a call itself, decides an operation, offers a handoff, or takes from a cell one
of the changes that it was yet to go through. -/
theorem Deed.pays {s : System σ α} {L : Ledger α} {fresh : Stamp} {m' : Memory α} {f : Frame α}
    {e : Event α} {move : Move α} (h : Deed s.memory fresh f e m' move)
    (hm : s.memory.Accords L) (ha : s.Ascends L) (hf : f.Sound L s.memory fresh.owner)
    (hw : e.wins = true) :
    (f.role = .own ∧ ((∃ res, move.next = .done res) ∨ ∃ d, move.next = .goto (.drive d))) ∨
      (∃ d, f.role = .driving d ∧ s.memory.verdict d.stamp = .pending ∧
        m'.verdict d.stamp ≠ .pending) ∨
      (∃ d word rest seen kept, f = .offer d word rest seen kept ∧
        e = .swapped word.index ⟨seen, .plain kept⟩ true ⟨fresh, .reserved ⟨d, word.index, kept⟩⟩) ∨
      (∀ d p, f ≠ .conclude d p) ∧ m'.load < s.memory.load := by
  have heff := h.effect hm hf
  cases h with
  | setWon | casWon => exact Or.inl ⟨rfl, Or.inl ⟨_, rfl⟩⟩
  | opened => exact Or.inl ⟨rfl, Or.inr ⟨_, rfl⟩⟩
  | concludeWon hv =>
    refine Or.inr (Or.inl ⟨_, rfl, hv, ?_⟩)
    rw [Memory.verdict_propose_self hv]
    exact hf.2.1
  | offerWon hc hs =>
    obtain rfl := (hm.cell_eq hc hf.2.1 hs).2
    exact Or.inr (Or.inr (Or.inl ⟨_, _, _, _, _, rfl, rfl⟩))
  | clearWon hc hs =>
    obtain rfl := (hm.cell_eq hc hf.2 hs).2
    refine Or.inr (Or.inr (Or.inr ⟨by simp, ?_⟩))
    exact Memory.load_place_lt (heff.slot_of_swapped rfl).1 (by simp [Memory.weight])
  | ruleWon hv =>
    refine Or.inr (Or.inr (Or.inr ⟨by simp, ?_⟩))
    exact Memory.load_propose_lt (ha.waiting _ _ _ hf.1 hv) hv hf.2.1
  | @releaseWon r g v c hc hs =>
    obtain rfl := (hm.cell_eq hc hf.1 hs).2
    refine Or.inr (Or.inr (Or.inr ⟨by simp, ?_⟩))
    obtain ⟨hold, -, hx⟩ := heff.slot_of_swapped rfl
    refine Memory.load_place_lt hold ?_
    have hv : s.memory.verdict r ≠ .pending := hx.ruled
    cases v <;> simp [Memory.weight, Frame.released, hv]
  | _ => simp [Event.wins] at hw

section

variable {client : Client σ α} {s : System σ α} {L : Ledger α}

omit [BEq α] in
theorem Frame.mem_of_errand {stack : List (Frame α)} {r : Role α}
    (h : Frame.errand stack = some r) : ∃ f ∈ stack, f.role = r := by
  obtain ⟨f, hf, hr⟩ := Option.map_eq_some_iff.1 h
  exact ⟨f, List.mem_of_getLast? hf, hr⟩

theorem System.Sound.effort_le (hs : s.Sound client L) {t : Nat} {th : Thread σ α}
    (ht : s.threads[t]? = some th) : ∀ f ∈ th.strand.stack, f.effort s.memory ≤ s.memory.toll :=
  fun f hf => ((hs.threads t th ht).frames f hf).effort_le hs.accords

theorem System.Sound.offers_le (hs : s.Sound client L) :
    s.offers ≤ s.threads.length * (s.memory.size + 1) := by
  refine sum_map_le fun th hth => ?_
  obtain ⟨t, ht⟩ := List.getElem?_of_mem hth
  refine Nat.add_le_add ?_ (Memory.haste_le_one _ _)
  unfold Memory.dues
  split
  · next d he =>
    obtain ⟨f, hf, hr⟩ := Frame.mem_of_errand he
    have ho := ((hs.threads t th ht).frames f hf).opened hr
    split
    · exact Nat.le_trans (s.memory.missing_le d) (hs.accords.length_le ho)
    · exact Nat.zero_le _
  · exact Nat.zero_le _

omit [BEq α] in
theorem System.Attends.sum_lt {t t' : Nat} {d : Descriptor α} (hatt : s.Attends t' d)
    {th th' : Thread σ α} (ht : s.threads[t]? = some th) {m' : Memory α}
    {F F' : Thread σ α → Nat} (hown : F' th' ≤ F th)
    (hrest : ∀ (j : Nat) th'', t ≠ j → s.threads[j]? = some th'' → F' th'' ≤ F th'')
    (hown' : Frame.errand th.strand.stack = some (.driving d) → F' th' < F th)
    (hrest' : ∀ (j : Nat) th'', t ≠ j → s.threads[j]? = some th'' →
      Frame.errand th''.strand.stack = some (.driving d) → F' th'' < F th'') :
    (System.mk m' (s.threads.set t th')).sum F' < s.sum F := by
  obtain ⟨th'', f, ht', hlast, hrole⟩ := hatt
  have herrand : Frame.errand th''.strand.stack = some (.driving d) := by
    rw [Frame.errand, hlast, Option.map_some, hrole]
  refine sum_map_set_lt ht hown hrest ?_
  by_cases he : t = t'
  · subst he
    rw [ht] at ht'
    cases ht'
    exact Or.inl (hown' herrand)
  · exact Or.inr ⟨t', th'', he, ht', hrest' t' th'' he ht' herrand⟩

end

section

variable {client : Client σ α} {values : Array α} {states : List σ} {r : Run σ α} {L : Ledger α}
  {t : Nat} {th : Thread σ α} {f : Frame α} {below : List (Frame α)} {m' : Memory α} {e : Event α}
  {move : Move α} {todo : σ → Nat}

omit [BEq α] in
theorem Thread.stages_eq {th' : Thread σ α} (hstate : th'.state = th.state)
    (he : Frame.errand th'.strand.stack = Frame.errand th.strand.stack) (m : Memory α) :
    th'.stages todo m = th.stages todo m := by
  rw [stages, stages, hstate, he]

theorem Effect.stages_le {fresh : Stamp} (h : Effect L r.system.memory fresh e m')
    (th : Thread σ α) : th.stages todo m' ≤ th.stages todo r.system.memory :=
  Nat.add_le_add_left (h.stage_le _) _

theorem Deed.stages_access (hf : th.strand.stack = f :: below)
    (hd : Deed r.system.memory th.strand.fresh f e m' move)
    (hret : ∀ res, move.next.answer below = some res →
      todo (client.absorb th.state res) < todo th.state) :
    (th.onward client below move.next).stages todo m' < th.stages todo r.system.memory ∨
      move.next.answer below = none ∧
        Frame.errand (move.next.frames ++ below) = Frame.errand (f :: below) ∧
          (th.onward client below move.next).stages todo m' = th.stages todo m' := by
  cases hn : move.next.answer below with
  | some res => exact Or.inl (Thread.stages_onward_lt hn (hret res hn) _ _)
  | none =>
    have hne := (move.next.answer_eq_none_iff below).1 hn
    rcases hd.errand hne with he | ⟨-, hown, d, hdriving⟩
    · exact Or.inr ⟨rfl, he, Thread.stages_eq (Thread.onward_busy hne) (hf ▸ he) m'⟩
    · left
      rw [Thread.stages_onward hn, Thread.stages, hf, hown, hdriving]
      refine Nat.add_lt_add_left ?_ _
      simp only [Memory.stage]
      split <;> omega

theorem Course.errand_ne_of_own (h : Course client values states r L)
    (ht : r.system.threads[t]? = some th) (hf : th.strand.stack = f :: below)
    (hrole : f.role = .own) (hnone : move.next.answer below = none)
    (hnext : (∃ res, move.next = .done res) ∨ ∃ d, move.next = .goto (.drive d)) :
    Frame.errand (move.next.frames ++ below) ≠ Frame.errand (f :: below) := by
  obtain ⟨c, -, -, hserved⟩ := (h.sound.threads t th ht).serving (by simp [hf])
  rw [hf] at hserved
  obtain ⟨rfl, -⟩ := hserved.bottom hrole
  rcases hnext with ⟨res, hnext⟩ | ⟨d, hnext⟩
  · rw [hnext] at hnone
    simp [Next.answer] at hnone
  · rw [hnext]
    show some (Role.driving d) ≠ some f.role
    simp [hrole]

theorem Course.offers_own (h : Course client values states r L)
    (ht : r.system.threads[t]? = some th) (hf : th.strand.stack = f :: below)
    (hd : Deed r.system.memory th.strand.fresh f e m' move) (hw : e.wins = true)
    (he : Frame.errand (move.next.frames ++ below) = Frame.errand (f :: below)) :
    m'.offers (move.next.frames ++ below) = m'.dues (Frame.errand (f :: below)) := by
  have hhaste := hd.haste_le (hf ▸ h.nested ht)
  rw [hw, if_pos rfl, Nat.le_zero] at hhaste
  rw [Memory.offers, hhaste, he, Nat.add_zero]

theorem Course.haste_rest (h : Course client values states r L)
    (ht : r.system.threads[t]? = some th) (hf : th.strand.stack = f :: below)
    (hd : Deed r.system.memory th.strand.fresh f e m' move) (hne : ∀ d p, f ≠ .conclude d p)
    {t' : Nat} {th' : Thread σ α} (ht' : r.system.threads[t']? = some th') :
    m'.haste th'.strand.stack ≤ r.system.memory.haste th'.strand.stack := by
  have hs := h.sound
  have hsound := (hs.threads t th ht).sound_top hf
  exact Memory.haste_le_of_kept (fun d ho => hd.verdict_kept hs.accords hsound hne ho)
    (hs.threads t' th' ht').frames

theorem Course.offers_le (h : Course client values states r L)
    (ht : r.system.threads[t]? = some th) (hf : th.strand.stack = f :: below)
    (hd : Deed r.system.memory th.strand.fresh f e m' move) (hne : ∀ d p, f ≠ .conclude d p)
    (hw : e.wins = true)
    (he : Frame.errand (move.next.frames ++ below) = Frame.errand (f :: below)) :
    System.offers ⟨m', r.system.threads.set t (th.onward client below move.next)⟩ ≤
      r.system.offers := by
  have heff := hd.effect h.sound.accords ((h.sound.threads t th ht).sound_top hf)
  have hdues := heff.dues_le h.sound.accords h.ascends
  refine sum_map_set_le ht ?_ fun j th' _ hj =>
    Nat.add_le_add (hdues _) (h.haste_rest ht hf hd hne hj)
  show m'.offers (move.next.frames ++ below) ≤ _
  rw [h.offers_own ht hf hd hw he, hf]
  exact Nat.le_trans (hdues _) (Nat.le_add_right _ _)

/-- A handoff that is offered was due to the call that made the operation, unless the operation is
decided already and the thread was hasty. -/
theorem Course.offers_lt (h : Course client values states r L)
    (ht : r.system.threads[t]? = some th) {d : Descriptor α} {word : Word α}
    {rest : List (Word α)} {seen : Stamp} {kept : α}
    (hf : th.strand.stack = .offer d word rest seen kept :: below)
    (hd : Deed r.system.memory th.strand.fresh (.offer d word rest seen kept)
      (.swapped word.index ⟨seen, .plain kept⟩ true
        ⟨th.strand.fresh, .reserved ⟨d, word.index, kept⟩⟩) m' move)
    (he : Frame.errand (move.next.frames ++ below) =
      Frame.errand (.offer d word rest seen kept :: below)) :
    System.offers ⟨m', r.system.threads.set t (th.onward client below move.next)⟩ <
      r.system.offers := by
  have hm := h.sound.accords
  have ha := h.ascends
  have hsound := (h.sound.threads t th ht).sound_top hf
  have heff := hd.effect hm hsound
  have hown : m'.offers (move.next.frames ++ below) = m'.dues (Frame.errand th.strand.stack) := by
    rw [h.offers_own ht hf hd rfl he, hf]
  have hdues := heff.dues_le hm ha
  have hhaste {j : Nat} {th' : Thread σ α} (hj : r.system.threads[j]? = some th') :=
    h.haste_rest ht hf hd (by simp) hj
  have hrest (j : Nat) (th' : Thread σ α) (_ : t ≠ j) (hj : r.system.threads[j]? = some th') :
      m'.offers th'.strand.stack ≤ r.system.memory.offers th'.strand.stack :=
    Nat.add_le_add (hdues _) (hhaste hj)
  have hle : m'.offers (move.next.frames ++ below) ≤ r.system.memory.offers th.strand.stack := by
    rw [hown]
    exact Nat.le_trans (hdues _) (Nat.le_add_right _ _)
  by_cases hv : r.system.memory.verdict d.stamp = .pending
  · have hlt := heff.dues_lt hm ha rfl hv
    obtain ⟨t', hatt⟩ := h.attended (hsound.opened rfl) hv
    refine hatt.sum_lt ht hle hrest (fun hdriving => ?_) fun j th' _ hj hdriving => ?_
    · show m'.offers (move.next.frames ++ below) < _
      rw [hown, hdriving, Memory.offers, hdriving]
      exact Nat.lt_of_lt_of_le hlt (Nat.le_add_right _ _)
    · rw [Memory.offers, Memory.offers, hdriving]
      exact Nat.add_lt_add_of_lt_of_le hlt (hhaste hj)
  · have hhasty : r.system.memory.haste th.strand.stack = 1 := by
      rw [hf]
      simp [Memory.haste, Frame.isHasty, hv]
    refine sum_map_set_lt ht hle hrest (Or.inl ?_)
    show m'.offers (move.next.frames ++ below) < _
    rw [hown, Memory.offers, hhasty]
    exact Nat.lt_succ_of_le (hdues _)

/-- A decision takes a stage from the call that made the operation, whoever makes it. -/
theorem Course.stages_lt (h : Course client values states r L)
    (ht : r.system.threads[t]? = some th) {th' : Thread σ α} {fresh : Stamp}
    (heff : Effect L r.system.memory fresh e m') {d : Descriptor α} (ho : L.Opened d)
    (hv : r.system.memory.verdict d.stamp = .pending) (hv' : m'.verdict d.stamp ≠ .pending)
    (he : th'.stages todo m' = th.stages todo m') :
    System.stages todo ⟨m', r.system.threads.set t th'⟩ < r.system.stages todo := by
  have hdrop {th'' : Thread σ α} (hd : Frame.errand th''.strand.stack = some (.driving d)) :
      th''.stages todo m' < th''.stages todo r.system.memory := by
    rw [Thread.stages, Thread.stages, hd]
    simp [Memory.stage, hv, hv']
  obtain ⟨t', hatt⟩ := h.attended ho hv
  refine hatt.sum_lt ht (he ▸ heff.stages_le th) (fun j th'' _ _ => heff.stages_le th'')
    (fun hd => ?_) fun j th'' _ _ hd => hdrop hd
  rw [he]
  exact hdrop hd

theorem Course.changes_lt (h : Course client values states r L)
    (ht : r.system.threads[t]? = some th) (hf : th.strand.stack = f :: below)
    (hd : Deed r.system.memory th.strand.fresh f e m' move)
    (hret : ∀ res, move.next.answer below = some res →
      todo (client.absorb th.state res) < todo th.state)
    (hw : e.wins = true ∨ move.next.answer below ≠ none) :
    System.changes todo ⟨m', r.system.threads.set t (th.onward client below move.next)⟩ <
      r.system.changes todo := by
  have hs := h.sound
  have hsound := (hs.threads t th ht).sound_top hf
  have heff := hd.effect hs.accords hsound
  refine System.changes_lt heff.size_eq List.length_set (hs.access ht hf hd).offers_le ?_
  rcases hd.stages_access hf hret with hlt | ⟨hnone, herrand, heq⟩
  · exact Or.inl (sum_map_set_lt ht (Nat.le_of_lt hlt) (fun _ th' _ _ => heff.stages_le th')
      (Or.inl hlt))
  · have hwins : e.wins = true := hw.resolve_right (by simp [hnone])
    have hle : System.stages todo
        ⟨m', r.system.threads.set t (th.onward client below move.next)⟩ ≤
          r.system.stages todo :=
      sum_map_set_le ht (heq ▸ heff.stages_le th) fun _ th' _ _ => heff.stages_le th'
    rcases hd.pays hs.accords h.ascends hsound hwins with ⟨hrole, hnext⟩ | ⟨d, hr, hv, hv'⟩ |
      ⟨d, word, rest, seen, kept, rfl, rfl⟩ | ⟨hne, hload⟩
    · exact absurd herrand (h.errand_ne_of_own ht hf hrole hnone hnext)
    · exact Or.inl (h.stages_lt ht heff (hsound.opened hr) hv hv' heq)
    · exact Or.inr ⟨hle, Or.inl (h.offers_lt ht hf hd herrand)⟩
    · exact Or.inr ⟨hle, Or.inr ⟨h.offers_le ht hf hd hne hwins herrand, hload⟩⟩

theorem Course.changes_le (h : Course client values states r L)
    (ht : r.system.threads[t]? = some th) (hf : th.strand.stack = f :: below)
    (hd : Deed r.system.memory th.strand.fresh f e r.system.memory move) (hq : e.wins = false)
    (hnone : move.next.answer below = none) :
    System.changes todo
        ⟨r.system.memory, r.system.threads.set t (th.onward client below move.next)⟩ ≤
      r.system.changes todo := by
  have hne := (move.next.answer_eq_none_iff below).1 hnone
  have he : Frame.errand (move.next.frames ++ below) = Frame.errand th.strand.stack := by
    rw [hf]
    exact (hd.errand hne).resolve_right (by simp [hq])
  refine System.changes_le rfl List.length_set ?_ ?_ (Nat.le_refl _)
  · refine sum_map_set_le ht (Nat.le_of_eq ?_) fun _ _ _ _ => Nat.le_refl _
    exact Thread.stages_eq (Thread.onward_busy hne) he r.system.memory
  · have hhaste := hd.haste_le (hf ▸ h.nested ht)
    rw [hq, if_neg Bool.false_ne_true, ← hf] at hhaste
    refine sum_map_set_le ht (Nat.add_le_add (Nat.le_of_eq ?_) hhaste) fun _ _ _ _ => Nat.le_refl _
    exact congrArg r.system.memory.dues he

theorem Course.rank_lt_of_quiet (h : Course client values states r L)
    (ht : r.system.threads[t]? = some th) (hf : th.strand.stack = f :: below)
    (hd : Deed r.system.memory th.strand.fresh f e r.system.memory move) (hq : e.wins = false)
    (hnone : move.next.answer below = none) :
    System.rank todo
        ⟨r.system.memory, r.system.threads.set t (th.onward client below move.next)⟩ <
      r.system.rank todo := by
  have hs := h.sound
  have heffort : ∀ g ∈ f :: below, g.effort r.system.memory ≤ r.system.memory.toll :=
    hf ▸ hs.effort_le ht
  have hnearer := hd.nearer hs.accords h.ascends ((hs.threads t th ht).sound_top hf) hq
  have hgirth := hnearer.girth_le heffort
  have htoil := hnearer.toil_lt fun g hg => heffort g (List.mem_cons_of_mem f hg)
  rw [← hf] at hgirth htoil
  refine System.rank_lt_of_toil rfl List.length_set (h.changes_le ht hf hd hq hnone) ?_ ?_
  · exact sum_map_set_le ht hgirth fun _ _ _ _ => Nat.le_refl _
  · exact sum_map_set_lt ht (Nat.le_of_lt htoil) (fun _ _ _ _ => Nat.le_refl _) (Or.inl htoil)

theorem System.Sound.rank_lt_of_changes {s : System σ α} {th' : Thread σ α}
    (hs : System.Sound client L ⟨m', s.threads.set t th'⟩) (hsize : m'.size = s.memory.size)
    (ht : s.threads[t]? = some th) (hlen : th'.strand.stack.length ≤ th.strand.stack.length + 1)
    (hchanges : System.changes todo ⟨m', s.threads.set t th'⟩ < s.changes todo) :
    System.rank todo ⟨m', s.threads.set t th'⟩ < s.rank todo := by
  have htoll := Memory.toll_congr hsize
  have hthreads : (s.threads.set t th').length = s.threads.length := List.length_set
  have heffort {th : Thread σ α} (hmem : th ∈ s.threads.set t th') :
      ∀ g ∈ th.strand.stack, g.effort m' ≤ m'.toll := by
    obtain ⟨j, hj⟩ := List.getElem?_of_mem hmem
    exact hs.effort_le hj
  refine System.rank_lt_of_changes hsize hthreads hchanges ?_ ?_
  · have hgrown : ((s.threads.set t th').map fun th => m'.girth th.strand.stack).sum ≤
        ((s.threads.set t th').map fun th => th.strand.stack.length).sum +
          s.threads.length * (s.memory.toll + 1) := by
      rw [← htoll, ← hthreads]
      exact sum_map_le_add fun th hth => Memory.girth_le (heffort hth)
    have hset := sum_map_set ht th' fun th => th.strand.stack.length
    have hheld : (s.threads.map fun th => th.strand.stack.length).sum ≤
        (s.threads.map fun th => s.memory.girth th.strand.stack).sum :=
      List.sum_le_sum fun th _ => s.memory.length_le_girth th.strand.stack
    refine Nat.le_trans hgrown ?_
    rw [System.sum_eq_sum]
    omega
  · rw [← htoll, ← hthreads]
    refine sum_map_le_mul fun th hth => ?_
    refine Nat.le_trans (Nat.le_of_lt (Memory.toil_lt (heffort hth))) ?_
    exact Nat.mul_le_mul_right _ (Nat.succ_le_succ (m'.length_le_girth th.strand.stack))

/-- Every access lowers the rank, if an answer lowers what its thread has to do. -/
theorem Course.rank_lt_of_access (h : Course client values states r L)
    (ht : r.system.threads[t]? = some th) (hf : th.strand.stack = f :: below)
    (hd : Deed r.system.memory th.strand.fresh f e m' move)
    (hret : ∀ res, move.next.answer below = some res →
      todo (client.absorb th.state res) < todo th.state) :
    System.rank todo ⟨m', r.system.threads.set t (th.onward client below move.next)⟩ <
      r.system.rank todo := by
  have hs := h.sound
  have heff := hd.effect hs.accords ((hs.threads t th ht).sound_top hf)
  by_cases hw : e.wins = true ∨ move.next.answer below ≠ none
  · refine (hs.access ht hf hd).rank_lt_of_changes heff.size_eq ht ?_ (h.changes_lt ht hf hd hret hw)
    show (move.next.frames ++ below).length ≤ _
    rw [hf, List.length_append, List.length_cons]
    have := move.next.length_frames_le
    omega
  · push Not at hw
    have hq : e.wins = false := by simpa using hw.1
    obtain rfl := heff.eq_of_quiet hq
    exact h.rank_lt_of_quiet ht hf hd hq hw.2

theorem Course.rank_lt_of_start (h : Course client values states r L)
    (ht : r.system.threads[t]? = some th) (hi : th.strand.stack = []) {c : Call α}
    {next : Next α} (hc : client.next th.state = some c)
    (ho : Outset th.strand.fresh r.system.memory.size c next)
    (hret : ∀ res, next.answer [] = some res →
      todo (client.absorb th.state res) < todo th.state) :
    System.rank todo ⟨r.system.memory, r.system.threads.set t (th.onward client [] next)⟩ <
      r.system.rank todo := by
  have hs' := h.sound.start ht hc ho
  have hown : (th.onward client [] next).stages todo r.system.memory <
      th.stages todo r.system.memory := by
    cases hn : next.answer [] with
    | some res => exact Thread.stages_onward_lt hn (hret res hn) _ _
    | none =>
      have hown : Frame.errand (next.frames ++ []) = some .own := by
        cases ho with
        | get | set | contents | single | many => rfl
        | _ => simp [Next.answer] at hn
      rw [Thread.stages_onward hn, Thread.stages, hi, hown]
      exact Nat.add_lt_add_left (Nat.lt_succ_self 2) _
  refine hs'.rank_lt_of_changes rfl ht ?_ ?_
  · show (next.frames ++ []).length ≤ _
    rw [hi]
    cases ho <;> simp [Next.frames]
  · refine System.changes_lt rfl List.length_set hs'.offers_le (Or.inl ?_)
    exact sum_map_set_lt ht (Nat.le_of_lt hown) (fun _ _ _ _ => Nat.le_refl _) (Or.inl hown)

/-- Does a call of thread `t` return with its next step? -/
def Run.Returns (client : Client σ α) (r : Run σ α) (t : Nat) : Prop :=
  ∃ c res, .returned c res ∈ (r.system.step client t).2

/-- Every step in which something happens lowers the rank, if what a thread has to do gets less whenever
a call of it returns. -/
theorem Course.rank_step_lt (h : Course client values states r L)
    (hne : (r.system.step client t).2 ≠ [])
    (hret : r.Returns client t → ∀ th c res, r.system.threads[t]? = some th →
      client.next th.state = some c → todo (client.absorb th.state res) < todo th.state) :
    (r.step client t).system.rank todo < r.system.rank todo := by
  rw [show (r.step client t).system = (r.system.step client t).1 from rfl]
  have hstride := h.sound.stride t
  unfold Run.Returns at hret
  generalize r.system.step client t = step at hstride hne hret ⊢
  cases hstride with
  | rest => exact absurd rfl hne
  | @start th c move ht hi hc ho =>
    refine h.rank_lt_of_start ht hi hc ho fun res ha => hret ⟨c, res, ?_⟩ th c res ht hc
    exact List.mem_cons_of_mem _ (Move.mem_prelude.2 (Or.inr ⟨res, ha, rfl⟩))
  | @access th c f below m' e move ht hf hc hd =>
    refine h.rank_lt_of_access ht hf hd fun res ha => hret ⟨c, res, ?_⟩ th c res ht hc
    exact List.mem_cons_of_mem _ (Move.mem_sequel.2 (Or.inr (Or.inr ⟨res, ha, rfl⟩)))

end

end MultiSwap
