import MultiSwap.Proofs.Tenure

/-! No cell recurs. Each is put into one slot, once, also if it was made when its call started and
carried over lost swaps. So its stamp tells more than the value in it: a swap wins exactly if nobody
has changed the slot since its thread looked there, even if the slot holds an equal value again. -/

namespace MultiSwap

variable {σ α : Type}

namespace Event

def places (s : Stamp) : Event α → Bool
  | swapped _ _ true now => now.stamp = s
  | _ => false

def alters (k : Nat) : Event α → Bool
  | swapped j _ true _ => j = k
  | _ => false

/-- Is a cell put into a slot that was made when its call started? All others are made for a single
swap: a handoff, or what takes the place of a handoff or of a claim. -/
def publishes : Event α → Bool
  | swapped _ old true now =>
    match old.content, now.content with
    | .plain _, .reserved _ => false
    | .plain _, _ => true
    | _, _ => false
  | _ => false

theorem places_of_quiet {e : Event α} (h : e.wins = false) (s : Stamp) : e.places s = false := by
  unfold places
  split
  · simp [wins] at h
  · rfl

theorem alters_of_quiet {e : Event α} (h : e.wins = false) (k : Nat) : e.alters k = false := by
  unfold alters
  split
  · simp [wins] at h
  · rfl

theorem places_iff {e : Event α} {s : Stamp} :
    e.places s = true ↔ ∃ k old now, e = .swapped k old true now ∧ now.stamp = s := by
  constructor
  · intro h
    unfold places at h
    split at h
    · exact ⟨_, _, _, rfl, of_decide_eq_true h⟩
    · cases h
  · rintro ⟨k, old, now, rfl, hs⟩
    exact decide_eq_true hs

theorem alters_iff {e : Event α} {k : Nat} :
    e.alters k = true ↔ ∃ old now, e = .swapped k old true now := by
  constructor
  · intro h
    unfold alters at h
    split at h
    · obtain rfl := of_decide_eq_true h
      exact ⟨_, _, rfl⟩
    · cases h
  · rintro ⟨old, now, rfl⟩
    exact decide_eq_true rfl

theorem isAccess_of_publishes {e : Event α} (h : e.publishes = true) : e.isAccess = true := by
  cases e with
  | swapped => rfl
  | _ => cases h

end Event

theorem Memory.countP_ofValues_le (values : Array α) (s : Stamp) :
    (Memory.ofValues values).slots.toList.countP (fun c => c.stamp = s) ≤ 1 := by
  have hnodup : ((Memory.ofValues values).slots.toList.map Cell.stamp).Nodup := by
    rw [List.Nodup, List.pairwise_map, List.pairwise_iff_getElem]
    intro i j hi hj hlt
    simp only [ofValues, Array.toList_mapIdx, List.getElem_mapIdx, initialCell, ne_eq,
      Stamp.mk.injEq, true_and]
    exact Nat.ne_of_lt hlt
  have hcount := List.nodup_iff_count_le_one.1 hnodup s
  rw [List.count, List.countP_map] at hcount
  refine le_of_eq_of_le (List.countP_congr fun c _ => ?_) hcount
  simp

theorem Memory.countP_ofValues_eq_zero (values : Array α) {s : Stamp} (h : s.owner ≠ 0) :
    (Memory.ofValues values).slots.toList.countP (fun c => c.stamp = s) = 0 := by
  rw [List.countP_eq_zero]
  intro c hc hs
  obtain ⟨i, hi⟩ := List.mem_iff_getElem?.1 hc
  obtain ⟨v, -, rfl⟩ := cell_of_ofValues (by simpa using hi)
  obtain rfl := of_decide_eq_true hs
  exact h rfl

variable [BEq α]

/-- What the log of a run that started with `values` tells of cells. -/
structure Log.Unrepeated (log : Log α) (values : Array α) : Prop where
  /-- A cell is there from the start or is put into a slot, and that once. -/
  once : ∀ s, (Memory.ofValues values).slots.toList.countP (fun c => c.stamp = s) +
    log.countP (fun x => x.2.places s) ≤ 1
  /-- What a call made when it started it puts into a slot once. -/
  spent : ∀ (before between after : Log α) t e e',
    log = before ++ (t, e) :: (between ++ (t, e') :: after) → e.publishes = true →
      e'.publishes = true → between.answers t ≠ []
  fixed : ∀ t t' j k c c', (t, .loaded j c) ∈ log → (t', .loaded k c') ∈ log →
    c.stamp = c'.stamp → j = k ∧ c = c'
  /-- The last access of a thread before a swap is the load of the cell that it compares with. -/
  looked : ∀ (before after : Log α) t k old won now,
    log = before ++ (t, .swapped k old won now) :: after →
      ∃ pre post, before = pre ++ (t, .loaded k old) :: post ∧
        ∀ x ∈ post, x.1 = t → x.2.isAccess = false
  /-- From whichever load of that cell on, the slot has not been changed just if the swap wins. -/
  wins_iff : ∀ (before between after : Log α) t t' k c old won now,
    log = before ++ (t', .loaded k c) :: (between ++ (t, .swapped k old won now) :: after) →
      c.stamp = old.stamp → (won = true ↔ ∀ x ∈ between, x.2.alters k = false)

/-- The call of thread `t` is in progress, with nothing left to do but to help. -/
def System.Spent (s : System σ α) (t : Nat) : Prop :=
  ∃ th, s.threads[t]? = some th ∧ th.strand.stack ≠ [] ∧ ∀ f ∈ th.strand.stack, f.role ≠ .own

def System.Makes (s : System σ α) (t : Nat) (e : Event α) : Prop :=
  ∃ th f below m' move, s.threads[t]? = some th ∧ th.strand.stack = f :: below ∧
    Deed s.memory th.strand.fresh f e m' move

section

variable {L : Ledger α} {m m' : Memory α} {fresh : Stamp} {f : Frame α} {e : Event α}
  {move : Move α}

theorem Effect.slot_of_unaltered (h : Effect L m fresh e m') {k : Nat} (he : e.alters k = false) :
    m'.slots[k]? = m.slots[k]? := by
  cases h with
  | quiet => rfl
  | @placed j old new hc hx =>
    exact Memory.slot_place_of_ne (fun hk => of_decide_eq_false he hk.symm) _
  | decided => rw [Memory.slots_propose]
  | ruled => rw [Memory.slots_propose]

theorem Deed.known_of_swapped (h : Deed m fresh f e m' move) (hm : m.Accords L) {owner : Nat}
    (hf : f.Sound L m owner) {k : Nat} {old now : Cell α} {won : Bool}
    (he : e = .swapped k old won now) : L old.stamp = some (.cell k old.content) := by
  cases h with
  | setWon hc | casWon hc | opened hc | offerWon hc | clearWon hc | releaseWon hc =>
    cases he
    exact hm.cells _ _ hc
  | setLost =>
    cases he
    obtain ⟨s, u, rfl, hl⟩ := hf
    exact hl
  | casLost =>
    cases he
    obtain ⟨-, -, s, u, rfl, hl, -⟩ := hf
    exact hl
  | offerLost =>
    cases he
    exact hf.2.1
  | clearLost =>
    cases he
    exact hf.2
  | releaseLost =>
    cases he
    exact hf.1
  | _ => cases he

/-- A call is done with its own part of the work when it puts its cell into a slot. -/
theorem Deed.publishes (h : Deed m fresh f e m' move) (hm : m.Accords L)
    (hf : f.Sound L m fresh.owner) (he : e.publishes = true) :
    f.role = .own ∧ ∀ g ∈ move.next.frames, g.role ≠ .own := by
  cases h with
  | offerWon hc hs =>
    obtain rfl := (hm.cell_eq hc hf.2.1 hs).2
    cases he
  | clearWon hc hs =>
    obtain rfl := (hm.cell_eq hc hf.2 hs).2
    cases he
  | releaseWon hc hs =>
    obtain rfl := (hm.cell_eq hc hf.1 hs).2
    cases he
  | setWon | casWon => exact ⟨rfl, fun g hg => absurd hg List.not_mem_nil⟩
  | opened =>
    refine ⟨rfl, fun g hg => ?_⟩
    cases List.mem_singleton.1 hg
    simp [Frame.role]
  | _ => cases he

theorem Deed.not_own_frames (h : Deed m fresh f e m' move) (hf : f.role ≠ .own) :
    ∀ g ∈ move.next.frames, g.role ≠ .own := by
  have honward := h.onward_role hf
  intro g hg
  cases hn : move.next with
  | goto g' =>
    rw [hn] at honward hg
    rw [List.mem_singleton.1 hg, show g'.role = f.role from honward]
    exact hf
  | call callee g' =>
    rw [hn] at honward hg
    rcases List.mem_cons.1 hg with rfl | hg
    · exact honward.1
    · rw [List.mem_singleton.1 hg, honward.2]
      exact hf
  | done res =>
    rw [hn] at hg
    exact absurd hg List.not_mem_nil

end

section

variable {client : Client σ α} {s : System σ α} {t t' : Nat} {th : Thread σ α} {f : Frame α}
  {below : List (Frame α)} {m' : Memory α} {e : Event α} {move : Move α}

theorem Log.answer_eq_none {c : Call α} (hd : Deed s.memory th.strand.fresh f e m' move)
    (ha : Log.answers (Log.ofStep t (e :: move.sequel f c below)) t = []) :
    move.next.answer below = none := by
  rwa [answers_access hd.isAccess, if_pos rfl, Option.toList_eq_nil_iff] at ha

omit [BEq α] in
theorem System.Spent.of_frames (ht : s.threads[t]? = some th) (ha : move.next.answer below = none)
    (hframes : ∀ g ∈ move.next.frames, g.role ≠ .own) (hbelow : ∀ g ∈ below, g.role ≠ .own) :
    System.Spent ⟨m', s.threads.set t (th.onward client below move.next)⟩ t := by
  refine ⟨_, Thread.getElem?_set_self ht _, (move.next.answer_eq_none_iff below).1 ha, fun g hg => ?_⟩
  rcases List.mem_append.1 hg with hg | hg
  · exact hframes g hg
  · exact hbelow g hg

omit [BEq α] in
theorem System.Spent.start (h : s.Spent t') (ht : s.threads[t]? = some th)
    (hi : th.strand.stack = []) (th₁ : Thread σ α) :
    System.Spent ⟨s.memory, s.threads.set t th₁⟩ t' := by
  obtain ⟨th', ht', hne, hroles⟩ := h
  obtain ⟨f, hf⟩ := List.exists_mem_of_ne_nil _ hne
  exact ⟨th', thread_of_start ht hi ht' hf, hne, hroles⟩

theorem System.Spent.access (h : s.Spent t') (ht : s.threads[t]? = some th)
    (hf : th.strand.stack = f :: below) (hd : Deed s.memory th.strand.fresh f e m' move)
    (ha : t = t' → move.next.answer below = none) :
    System.Spent ⟨m', s.threads.set t (th.onward client below move.next)⟩ t' := by
  obtain ⟨th', ht', hne, hroles⟩ := h
  by_cases he : t = t'
  · subst he
    rw [ht] at ht'
    cases ht'
    rw [hf] at hroles
    refine .of_frames ht (ha rfl) (hd.not_own_frames (hroles f List.mem_cons_self)) fun g hg => ?_
    exact hroles g (List.mem_cons_of_mem _ hg)
  · exact ⟨th', by rwa [List.getElem?_set_ne he], hne, hroles⟩

end

namespace Course

variable {client : Client σ α} {values : Array α} {states : List σ} {r : Run σ α} {L : Ledger α}
  {before between after : Log α} {t k : Nat}

theorem exists_access (h : Course client values states r L) {e : Event α}
    (hl : r.history = before ++ (t, e) :: after) (he : e.isAccess = true) :
    ∃ (r₀ : Run σ α) (L₀ : Ledger α), Course client values states r₀ L₀ ∧ L₀.Within L ∧
      r₀.history = before ∧ r₀.system.Makes t e := by
  induction h generalizing after with
  | new => simp [Run.history, Run.new] at hl
  | @start r L t₀ th c move h hs ht hi hc ho ih =>
    rw [Run.history_step] at hl
    obtain ⟨rest, hold, -⟩ := Log.split_quiet (move.idle_ofStart c t₀) he hl
    obtain ⟨r₀, L₀, h₀, hw, hhist, hmakes⟩ := ih hold
    have hw' := (ho.grows (hs.threads t₀ th ht).fresh_unused).within
    exact ⟨r₀, L₀, h₀, hw.trans hw', hhist, hmakes⟩
  | @access r L t₀ th c f below m' e' move h hs ht hf hc hd ih =>
    have hth := hs.threads t₀ th ht
    have hw' := (hd.effect hs.accords (hth.sound_top hf)).within hth.fresh_unused
    rw [Run.history_step] at hl
    rcases Log.split_access (move.idle_ofSequel f c below t₀) he hl with
      ⟨rest, hold, -⟩ | ⟨rfl, hx, -⟩
    · obtain ⟨r₀, L₀, h₀, hw, hhist, hmakes⟩ := ih hold
      exact ⟨r₀, L₀, h₀, hw.trans hw', hhist, hmakes⟩
    · cases hx
      exact ⟨r, L, h, hw', rfl, th, f, below, m', move, ht, hf, hd⟩

theorem known_of_loaded (h : Course client values states r L) {c : Cell α}
    (he : (t, .loaded k c) ∈ r.history) : L c.stamp = some (.cell k c.content) := by
  obtain ⟨before, after, hl⟩ := List.append_of_mem he
  obtain ⟨r₀, L₀, h₀, hw, -, th, f, below, m', move, ht, hf, hd⟩ := h.exists_access hl rfl
  exact hw _ _ (h₀.sound.accords.cells k c (hd.slot_of_loaded rfl).2)

/-- A cell that was found in a slot is there as long as the slot is not changed, and not again. -/
theorem slot_iff_unaltered (h : Course client values states r L) {c : Cell α}
    (hl : r.history = before ++ (t, .loaded k c) :: after) :
    r.system.memory.slots[k]? = some c ↔ ∀ x ∈ after, x.2.alters k = false := by
  induction h generalizing after with
  | new => simp [Run.history, Run.new] at hl
  | @start r L t₀ th call move h hs ht hi hc ho ih =>
    rw [Run.history_step] at hl
    obtain ⟨rest, hold, rfl⟩ := Log.split_quiet (move.idle_ofStart call t₀) rfl hl
    have hquiet := fun x hx => Event.alters_of_quiet (move.quiet_ofStart call t₀ x hx) k
    rw [List.forall_mem_append]
    exact (ih hold).trans (and_iff_left hquiet).symm
  | @access r L t₀ th call f below m' e move h hs ht hf hc hd ih =>
    have hth := hs.threads t₀ th ht
    have heff := hd.effect hs.accords (hth.sound_top hf)
    have hquiet := fun x hx => Event.alters_of_quiet (move.quiet_ofSequel f call below t₀ x hx) k
    rw [Run.history_step] at hl
    rcases Log.split_access (move.idle_ofSequel f call below t₀) rfl hl with
      ⟨rest, hold, rfl⟩ | ⟨rfl, hx, rfl⟩
    · rw [List.forall_mem_append, List.forall_mem_cons, and_iff_left hquiet, ← ih hold]
      by_cases halters : e.alters k = true
      · -- the cell that is put into the slot now was never seen before
        obtain ⟨old, now, rfl⟩ := Event.alters_iff.1 halters
        have hknown := h.known_of_loaded (t := t) (k := k) (c := c) (by simp [hold])
        refine iff_of_false (fun hslot => ?_) (fun hall => ?_)
        · have hnow := (heff.slot_of_swapped rfl).2.1.symm.trans hslot
          cases hnow
          rw [heff.stamp_of_swapped rfl, hth.fresh_unused] at hknown
          cases hknown
        · rw [hall.2] at halters
          cases halters
      · rw [Bool.not_eq_true] at halters
        rw [Run.system_step, heff.slot_of_unaltered halters, and_iff_left halters]
    · cases hx
      obtain ⟨rfl, hslot⟩ := hd.slot_of_loaded rfl
      exact iff_of_true hslot hquiet

theorem wins_iff_unaltered (h : Course client values states r L) {t' : Nat} {c old now : Cell α}
    {won : Bool}
    (hl : r.history = before ++ (t', .loaded k c) :: (between ++ (t, .swapped k old won now) :: after))
    (hs : c.stamp = old.stamp) : won = true ↔ ∀ x ∈ between, x.2.alters k = false := by
  rw [← List.cons_append, ← List.append_assoc] at hl
  obtain ⟨r₀, L₀, h₀, -, hhist, th, f, below, m', move, ht, hf, hd⟩ := h.exists_access hl rfl
  obtain ⟨-, c', hc', hwon⟩ := hd.aims rfl
  rw [hwon, ← h₀.slot_iff_unaltered hhist, ← hs]
  constructor
  · intro he
    have hknown := h₀.known_of_loaded (t := t') (k := k) (c := c) (by simp [hhist])
    rw [(h₀.sound.accords.cell_eq hc' hknown he).2] at hc'
    exact hc'
  · intro hc
    rw [hc'] at hc
    exact congrArg Cell.stamp (Option.some.inj hc)

theorem aim_tail (h : Course client values states r L) {th : Thread σ α}
    (ht : r.system.threads[t]? = some th) : ∀ g ∈ th.strand.stack.tail, g.aim = none := by
  induction h generalizing th with
  | new =>
    obtain ⟨state, -, rfl⟩ := System.thread_of_new ht
    exact fun g hg => absurd hg List.not_mem_nil
  | start h hs ht₀ hi hc ho ih =>
    rcases Thread.of_getElem?_set ht₀ ht with ⟨rfl, rfl⟩ | ⟨-, ht⟩
    · intro g hg
      refine ho.aim_frames g (List.mem_of_mem_tail ?_)
      simpa [Thread.onward, Strand.advance] using hg
    · exact ih ht
  | @access r L t₀ th₀ c f below m' e move h hs ht₀ hf hc hd ih =>
    rcases Thread.of_getElem?_set ht₀ ht with ⟨rfl, rfl⟩ | ⟨-, ht⟩
    · have hbelow : ∀ g ∈ below, g.aim = none := by
        have htail := ih ht₀
        rwa [hf] at htail
      intro g hg
      replace hg : g ∈ (move.next.frames ++ below).tail := hg
      cases hn : move.next with
      | goto g' =>
        rw [hn] at hg
        exact hbelow g hg
      | call callee g' =>
        rw [hn] at hg
        rcases List.mem_cons.1 hg with rfl | hg
        · by_contra ha
          obtain ⟨⟨j, s⟩, hs⟩ := Option.ne_none_iff_exists'.1 ha
          have hgoto := (hd.looks (by simp [hn, Next.frames]) hs).1
          rw [hn] at hgoto
          cases hgoto
        · exact hbelow g hg
      | done res =>
        rw [hn] at hg
        exact hbelow g (List.mem_of_mem_tail hg)
    · exact ih ht

/-- What a frame aims at is what its thread has loaded last. -/
theorem looked (h : Course client values states r L) {th : Thread σ α} {f : Frame α}
    {below : List (Frame α)} {s : Stamp} (ht : r.system.threads[t]? = some th)
    (hf : th.strand.stack = f :: below) (ha : f.aim = some (k, s)) :
    ∃ pre c post, r.history = pre ++ (t, .loaded k c) :: post ∧ c.stamp = s ∧
      ∀ x ∈ post, x.1 = t → x.2.isAccess = false := by
  induction h generalizing th f below with
  | new =>
    obtain ⟨state, -, rfl⟩ := System.thread_of_new ht
    cases hf
  | @start r L t₀ th₀ c move h hs ht₀ hi hc ho ih =>
    rcases Thread.of_getElem?_set ht₀ ht with ⟨rfl, rfl⟩ | ⟨-, ht⟩
    · have hnone := ho.aim_frames f
      rw [ha] at hnone
      replace hf : move.next.frames ++ [] = f :: below := hf
      rw [List.append_nil] at hf
      cases hnone (hf ▸ List.mem_cons_self)
    · obtain ⟨pre, c', post, hl, hstamp, hpost⟩ := ih ht hf ha
      refine ⟨pre, c', post ++ Log.ofStep t₀ (.invoked c :: move.prelude c), ?_, hstamp, ?_⟩
      · rw [Run.history_step, hl, List.append_assoc]
        rfl
      · intro x hx hxt
        rcases List.mem_append.1 hx with hx | hx
        · exact hpost x hx hxt
        · exact move.idle_ofStart c t₀ x hx
  | @access r L t₀ th₀ c f₀ below₀ m' e move h hs ht₀ hf₀ hc hd ih =>
    rcases Thread.of_getElem?_set ht₀ ht with ⟨rfl, rfl⟩ | ⟨hne, ht⟩
    · replace hf : move.next.frames ++ below₀ = f :: below := hf
      have hmem : f ∈ move.next.frames := by
        rcases List.mem_append.1 (hf ▸ List.mem_cons_self) with hmem | hmem
        · exact hmem
        · have hnone := h.aim_tail ht₀ f (by rwa [hf₀])
          rw [ha] at hnone
          cases hnone
      obtain ⟨-, c', rfl, hstamp⟩ := hd.looks hmem ha
      refine ⟨r.history, c', _, Run.history_step _ _ _ _, hstamp, fun x hx _ => ?_⟩
      exact move.idle_ofSequel f₀ c below₀ t₀ x hx
    · obtain ⟨pre, c', post, hl, hstamp, hpost⟩ := ih ht hf ha
      refine ⟨pre, c', post ++ Log.ofStep t₀ (e :: move.sequel f₀ c below₀), ?_, hstamp, ?_⟩
      · rw [Run.history_step, hl, List.append_assoc]
        rfl
      · intro x hx hxt
        rcases List.mem_append.1 hx with hx | hx
        · exact hpost x hx hxt
        · obtain ⟨e', -, rfl⟩ := List.mem_map.1 hx
          exact absurd hxt hne

theorem published (h : Course client values states r L) {e : Event α}
    (hl : r.history = before ++ (t, e) :: after) (he : e.publishes = true)
    (ha : after.answers t = []) : r.system.Spent t := by
  have hacc := Event.isAccess_of_publishes he
  induction h generalizing after with
  | new => simp [Run.history, Run.new] at hl
  | @start r L t₀ th c move h hs ht hi hc ho ih =>
    rw [Run.history_step] at hl
    obtain ⟨rest, hold, rfl⟩ := Log.split_quiet (move.idle_ofStart c t₀) hacc hl
    rw [Log.answers_append, List.append_eq_nil_iff] at ha
    exact (ih hold ha.1).start ht hi _
  | @access r L t₀ th c f below m' e₀ move h hs ht hf hc hd ih =>
    rw [Run.history_step] at hl
    rcases Log.split_access (move.idle_ofSequel f c below t₀) hacc hl with
      ⟨rest, hold, rfl⟩ | ⟨rfl, hx, rfl⟩
    · rw [Log.answers_append, List.append_eq_nil_iff] at ha
      exact (ih hold ha.1).access ht hf hd fun he => Log.answer_eq_none hd (he ▸ ha.2)
    · cases hx
      obtain ⟨hrole, hframes⟩ := hd.publishes hs.accords ((hs.threads _ _ ht).sound_top hf) he
      obtain ⟨c', -, -, hserved⟩ := (hs.threads _ _ ht).serving (by simp [hf])
      rw [hf] at hserved
      obtain ⟨rfl, -⟩ := hserved.bottom hrole
      have hans : Log.answers (Log.ofStep t (e :: move.sequel f c [])) t = [] :=
        (Log.answers_cons hd.isAccess t t _).trans ha
      exact .of_frames ht (Log.answer_eq_none hd hans) hframes fun g hg => absurd hg List.not_mem_nil

theorem owner_of_placed (h : Course client values states r L) {e : Event α} {s : Stamp}
    (he : (t, e) ∈ r.history) (hp : e.places s = true) : s.owner = t + 1 := by
  obtain ⟨k, old, now, rfl, rfl⟩ := Event.places_iff.1 hp
  obtain ⟨before, after, hl⟩ := List.append_of_mem he
  obtain ⟨r₀, L₀, h₀, -, -, th, f, below, m', move, ht, hf, hd⟩ := h.exists_access hl rfl
  have hth := h₀.sound.threads t th ht
  rw [(hd.effect h₀.sound.accords (hth.sound_top hf)).stamp_of_swapped rfl]
  exact hth.owner

theorem placed_once (h : Course client values states r L) (s : Stamp) :
    (Memory.ofValues values).slots.toList.countP (fun c => c.stamp = s) +
      r.history.countP (fun x => x.2.places s) ≤ 1 := by
  by_cases hplaced : ∃ x ∈ r.history, x.2.places s = true
  · obtain ⟨⟨t, e⟩, hx, hp⟩ := hplaced
    have howner : s.owner ≠ 0 := by
      rw [h.owner_of_placed hx hp]
      exact Nat.succ_ne_zero t
    rw [Memory.countP_ofValues_eq_zero values howner, Nat.zero_add]
    refine h.countP_le_one (fun e he => Event.places_of_quiet he s) ?_
    intro r L fresh e m' h hfresh heff he x hx hp
    obtain ⟨k, old, now, rfl, rfl⟩ := Event.places_iff.1 he
    obtain ⟨t', e'⟩ := x
    obtain ⟨k', old', now', rfl, hs⟩ := Event.places_iff.1 hp
    have hl := (h.chronicle.swapped t' k' old' now' hx).2
    rw [hs, heff.stamp_of_swapped rfl, hfresh] at hl
    cases hl
  · have hzero : r.history.countP (fun x => x.2.places s) = 0 :=
      List.countP_eq_zero.2 fun x hx hp => hplaced ⟨x, hx, hp⟩
    rw [hzero, Nat.add_zero]
    exact Memory.countP_ofValues_le values s

end Course

/-- In every run, no cell recurs, so a swap wins exactly if the slot was not changed since its thread
found there the cell that it compares with. -/
theorem Run.never_recurs (client : Client σ α) (values : Array α) (states : List σ)
    (ts : List Nat) :
    ((Run.new (.ofValues values) states).steps client ts).history.Unrepeated values := by
  obtain ⟨L, h⟩ := exists_course client values states ts
  constructor
  · exact h.placed_once
  · intro before between after t e e' hl he he' hans
    rw [← List.cons_append, ← List.append_assoc] at hl
    obtain ⟨r₀, L₀, h₀, -, hhist, th, f, below, m', move, ht, hf, hd⟩ :=
      h.exists_access hl (Event.isAccess_of_publishes he')
    obtain ⟨th', ht', -, hroles⟩ := h₀.published hhist he hans
    rw [ht] at ht'
    cases ht'
    exact hroles f (by simp [hf]) (hd.publishes h₀.sound.accords ((h₀.sound.threads t th ht).sound_top hf) he').1
  · intro t t' j k c c' he he' hs
    exact Ledger.cell_eq (h.known_of_loaded he) (h.known_of_loaded he') hs
  · intro before after t k old won now hl
    obtain ⟨r₀, L₀, h₀, -, rfl, th, f, below, m', move, ht, hf, hd⟩ := h.exists_access hl rfl
    obtain ⟨pre, c, post, hpre, hstamp, hpost⟩ := h₀.looked ht hf (hd.aims rfl).1
    have hknown := hd.known_of_swapped h₀.sound.accords ((h₀.sound.threads t th ht).sound_top hf) rfl
    have hloaded := h₀.known_of_loaded (t := t) (k := k) (c := c) (by simp [hpre])
    obtain rfl : c = old := (Ledger.cell_eq hloaded hknown hstamp).2
    exact ⟨pre, post, hpre, hpost⟩
  · exact fun before between after t t' k c old won now hl hs => h.wins_iff_unaltered hl hs

/-- While a thread is about to swap the value 0, another one writes 1 and then 0 again. The swap is
lost all the same. -/
theorem Run.never_recurs_revisited :
    let r := (Run.new (.ofValues #[0]) [[.cas 0 0 5], [.set 0 1, .set 0 0]]).steps .script
      [0, 0, 1, 1, 1, 1, 1, 1, 0]
    let old : Cell Nat := ⟨⟨0, 0⟩, .plain 0⟩
    let now : Cell Nat := ⟨⟨2, 5⟩, .plain 0⟩
    ∃ pre post, r.history = pre ++ (0, .loaded 0 old) :: (post ++ [(0, .swapped 0 old false now)]) ∧
      ∃ x ∈ post, x.2.alters 0 = true := by
  intro r old now
  have hlast : r.history.getLast? = some (0, .swapped 0 old false now) := rfl
  have h : r.history.Unrepeated #[0] := Run.never_recurs .script #[0]
    [[.cas 0 0 5], [.set 0 1, .set 0 0]] [0, 0, 1, 1, 1, 1, 1, 1, 0]
  clear_value r
  have hl : r.history = r.history.dropLast ++ (0, .swapped 0 old false now) :: [] :=
    (List.dropLast_append_getLast? _ hlast).symm
  obtain ⟨pre, post, hpre, -⟩ := h.looked _ _ _ _ _ _ _ hl
  rw [hpre, List.append_assoc, List.cons_append] at hl
  refine ⟨pre, post, hl, ?_⟩
  have hlost := h.wins_iff _ _ _ _ _ _ _ _ _ _ hl rfl
  simpa using hlost

end MultiSwap
