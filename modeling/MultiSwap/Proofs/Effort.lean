import MultiSwap.Rank
import MultiSwap.Proofs.Ascent

/-! How far a frame is from its next change. Every access that changes nothing brings its thread
nearer to one: a retry follows only when the slot has changed meanwhile, help goes to operations that
hold higher slots, and no help for what is still in a slot ends without a change. -/

namespace MultiSwap

variable {σ α : Type}

namespace Memory

variable {m : Memory α} {d : Descriptor α}

theorem lt_crest {n k : Nat} (hk : k < n) (hc : m.claims d k = true) : k < m.crest d n := by
  induction n with
  | zero => omega
  | succ n ih =>
    unfold crest
    split
    · exact hk
    · next hn =>
      have hne : k ≠ n := by
        rintro rfl
        exact hn hc
      exact ih (by omega)

theorem crest_le {n b : Nat} (h : ∀ k, m.claims d k = true → k < b) : m.crest d n ≤ b := by
  induction n with
  | zero => exact Nat.zero_le b
  | succ n ih =>
    unfold crest
    split
    · next hc => exact h n hc
    · exact ih

theorem claims_of_slot {k : Nat} {c : Cell α} (hc : m.slots[k]? = some c) :
    m.claims d k = c.isClaimedBy d := by simp [claims, hc]

theorem isAt_of_slot {k : Nat} {c : Cell α} (hc : m.slots[k]? = some c) (r : Stamp) :
    m.isAt k r = decide (c.stamp = r) := by simp [isAt, hc]

theorem climb_of_settled (hv : m.verdict d.stamp ≠ .pending) : m.climb d = 0 := if_neg hv

theorem climb_of_pending (hv : m.verdict d.stamp = .pending) :
    m.climb d = (m.size - m.crest d m.size) * m.lap := if_pos hv

theorem climb_add_lap_le (m : Memory α) (d : Descriptor α) : m.climb d + m.lap ≤ m.summit := by
  have hle : (m.size - m.crest d m.size) * m.lap ≤ m.size * m.lap :=
    Nat.mul_le_mul_right _ (Nat.sub_le _ _)
  have hsum : m.summit = m.size * m.lap + m.lap := Nat.succ_mul _ _
  unfold climb
  split <;> omega

/-- A pending operation that holds a higher slot than another has a lap less before it. -/
theorem climb_add_lap_le_of_claims {d' : Descriptor α} {k : Nat} (hv : m.verdict d.stamp = .pending)
    (hlow : ∀ j, m.claims d j = true → j < k) (hk : k < m.size) (hc : m.claims d' k = true) :
    m.climb d' + m.lap ≤ m.climb d := by
  have hd : m.crest d m.size ≤ k := crest_le hlow
  have hd' : k < m.crest d' m.size := lt_crest hk hc
  have hle : (m.size - m.crest d' m.size + 1) * m.lap ≤ (m.size - m.crest d m.size) * m.lap :=
    Nat.mul_le_mul_right _ (by omega)
  rw [Nat.succ_mul] at hle
  rw [climb_of_pending hv]
  by_cases hv' : m.verdict d'.stamp = .pending
  · rwa [climb_of_pending hv']
  · rw [climb_of_settled hv']
    omega

theorem Accords.claims_iff [BEq α] {L : Ledger α} (hm : m.Accords L) (ho : L.Opened d) {k : Nat} :
    m.claims d k = true ↔ m.Holds d k := by
  unfold claims Holds
  rw [Option.any_eq_true]
  constructor
  · intro h
    obtain ⟨c, hc, hd⟩ := h
    refine ⟨c.stamp, ?_⟩
    rw [hc, ← (hm.isClaimedBy_iff ho hc).1 hd]
  · intro h
    obtain ⟨s, hc⟩ := h
    exact ⟨_, hc, (hm.isClaimedBy_iff ho hc).2 rfl⟩

end Memory

/-- The access that comes next, if nothing has changed, is nearer to a change. -/
def Next.Nearer (m : Memory α) (f : Frame α) : Next α → Prop
  | .goto g => g.effort m < f.effort m ∧ (f.isPledged m = true → g.isPledged m = true)
  | .call g _ => g.effort m < f.effort m ∧ g.isPledged m = true
  | .done _ => f.isPledged m = false

section

variable {m : Memory α} {f : Frame α} {d : Descriptor α}

theorem Next.nearer_claimFrom {ws : List (Word α)}
    (he : m.climb d + 2 * d.words.length + 4 * ws.length + 1 < f.effort m)
    (hp : f.isPledged m = true → decide (m.verdict d.stamp = .pending) = true) :
    Next.Nearer m f (.goto (Frame.claimFrom d ws)) := by
  cases ws with
  | nil => exact ⟨he, hp⟩
  | cons w rest =>
    refine ⟨?_, hp⟩
    show m.climb d + 2 * d.words.length + 4 * rest.length + 5 < _
    rw [List.length_cons] at he
    omega

theorem Next.nearer_clearFrom {takesEffect : Bool} {ws : List (Word α)}
    (he : 2 * ws.length < f.effort m)
    (hp : f.isPledged m = true → (ws.any fun w => m.claims d w.index) = true) :
    (Frame.clearFrom d takesEffect ws).Nearer m f := by
  cases ws with
  | nil =>
    show f.isPledged m = false
    by_contra hn
    simpa using hp (by simpa using hn)
  | cons w rest => exact ⟨he, hp⟩

theorem Next.nearer_clearing {v : Verdict} (he : 2 * d.words.length < f.effort m)
    (hp : f.isPledged m = true → (d.words.any fun w => m.claims d w.index) = true) :
    (Frame.clearing d v).next.Nearer m f := by
  have hrev : (d.words.reverse.any fun w => m.claims d w.index) =
      d.words.any fun w => m.claims d w.index := List.any_reverse
  cases v with
  | commit => exact nearer_clearFrom he hp
  | pending => exact nearer_clearFrom (by rwa [List.length_reverse]) (by rwa [hrev])
  | abort => exact nearer_clearFrom (by rwa [List.length_reverse]) (by rwa [hrev])

end

variable [BEq α]

section

variable {L : Ledger α} {m : Memory α} {owner : Nat}

omit [BEq α] in
theorem Ledger.Reached.length_le {d : Descriptor α} {ws : List (Word α)} (h : L.Reached d ws) :
    ws.length ≤ d.others.length := by
  obtain ⟨-, done, he, -⟩ := h
  simp [he]

omit [BEq α] in
theorem Memory.Clears.length_le {d : Descriptor α} {takesEffect : Bool} {ws : List (Word α)}
    (h : m.Clears L d takesEffect ws) : ws.length ≤ d.words.length := by
  obtain ⟨-, -, done, he, -⟩ := h
  cases takesEffect with
  | true =>
    rw [show d.words = done ++ ws from he]
    simp
  | false =>
    rw [← d.words.length_reverse, show d.words.reverse = done ++ ws from he]
    simp

theorem Memory.Accords.length_le (hm : m.Accords L) {d : Descriptor α} (ho : L.Opened d) :
    d.words.length ≤ m.size :=
  (hm.formed.descriptor_of_opened ho).length_le

theorem Frame.Sound.effort_le {f : Frame α} (hf : f.Sound L m owner) (hm : m.Accords L) :
    f.effort m ≤ m.toll := by
  have htoll : m.toll = m.summit + m.lap := rfl
  have hlap : m.lap = 6 * m.size + 8 := rfl
  -- the words of an opened operation, and what is left of them, fit into a lap
  have hopened {d : Descriptor α} (ho : L.Opened d) :
      d.others.length + 1 ≤ m.size ∧ m.climb d + m.lap ≤ m.summit :=
    ⟨hm.length_le ho, m.climb_add_lap_le d⟩
  have hreached {d : Descriptor α} {word : Word α} {rest : List (Word α)}
      (hr : L.Reached d (word :: rest)) : rest.length + 1 ≤ d.others.length := hr.length_le
  cases f with
  | contents announced slot left seen =>
    have hlt : slot + left < m.size := hf
    simp only [effort]
    omega
  | setOver | casOver =>
    simp only [effort]
    split <;> omega
  | drive d =>
    have := hopened hf
    simp only [effort, Descriptor.length_words]
    omega
  | check d word rest =>
    have := hopened hf.1
    have := hreached hf
    simp only [effort, Descriptor.length_words]
    omega
  | claim d word rest =>
    have := hopened hf.1
    have := hreached hf
    simp only [effort, Descriptor.length_words]
    split <;> omega
  | offer d word rest seen kept =>
    have := hopened hf.1.1
    have := hreached hf.1
    simp only [effort, Descriptor.length_words]
    split <;> omega
  | conclude d p =>
    have := hopened hf.1
    simp only [effort, Descriptor.length_words]
    omega
  | clear d takesEffect word rest =>
    have hlen : rest.length + 1 ≤ d.words.length := hf.length_le
    have := hm.length_le hf.1
    simp only [effort]
    omega
  | clearOver d takesEffect word rest seen =>
    have hlen : rest.length + 1 ≤ d.words.length := hf.1.length_le
    have := hm.length_le hf.1.1
    simp only [effort]
    omega
  | _ =>
    simp only [effort]
    omega

end

section

variable {s : System σ α} {L : Ledger α} {fresh : Stamp} {m m' : Memory α} {f : Frame α}
  {e : Event α} {move : Move α}

/-- Help for what is found in a slot is bound to change something. It settles a handoff, or drives an
operation that holds the slot. -/
theorem Memory.Accords.assists (hm : m.Accords L) {k : Nat} {c : Cell α} {note : Note} {g : Frame α}
    (hc : m.slots[k]? = some c) (hg : c.assistance = some (note, g)) :
    g.isPledged m = true ∧
      (g.effort m = 5 ∨ ∃ d, m.claims d k = true ∧ g.effort m < m.climb d + m.lap) := by
  have hl := hm.cells k c hc
  rcases hx : c.content with v | h | d <;> simp only [Cell.assistance, hx] at hg
  · simp at hg
  · cases hg
    rw [hx] at hl
    refine ⟨?_, Or.inl rfl⟩
    simp [Frame.isPledged, (hm.formed.reserved hl).1, hc, Cell.isHandoff, hx]
  · cases hg
    rw [hx] at hl
    have ho := hm.formed.opened_of_took ⟨_, hl⟩
    have hd : c.isClaimedBy d = true := (hm.isClaimedBy_iff ho hc).2 hx
    have hclaims : m.claims d k = true := by rw [claims_of_slot hc, hd]
    refine ⟨?_, Or.inr ⟨d, hclaims, ?_⟩⟩
    · simp only [Frame.isPledged, Bool.or_eq_true, List.any_eq_true, List.mem_range]
      exact Or.inr ⟨k, lt_of_slot hc, hclaims⟩
    · have hlen := hm.length_le ho
      have hlap : m.lap = 6 * m.size + 8 := rfl
      simp only [Frame.effort, Descriptor.length_words] at hlen ⊢
      omega

theorem System.Ascends.claims_lt (ha : s.Ascends L) (hm : s.memory.Accords L) {d : Descriptor α}
    {word : Word α} {rest : List (Word α)} (hr : L.Reached d (word :: rest))
    (hv : s.memory.verdict d.stamp = .pending) {c : Cell α}
    (hc : s.memory.slots[word.index]? = some c) (hd : c.isClaimedBy d = false) {j : Nat}
    (hj : s.memory.claims d j = true) : j < word.index := by
  by_contra hle
  have htook := hm.took ((hm.claims_iff hr.1).1 hj)
  have hword := Descriptor.mem_of_others hr.mem
  exact hm.not_holds_of_gone hr.1 hc hd (ha.holds hm htook hv hword (by omega))

theorem Frame.Sound.help_nearer {owner : Nat} (hf : f.Sound L s.memory owner)
    (hm : s.memory.Accords L) (ha : s.Ascends L) {k : Nat} {after g : Frame α} {c : Cell α}
    {note : Note} (hw : f.waits = some (k, after)) (hc : s.memory.slots[k]? = some c)
    (hg : c.assistance = some (note, g))
    (hd : ∀ d word rest, f = .claim d word rest → c.isClaimedBy d = false) :
    g.effort s.memory < f.effort s.memory := by
  have hlap : s.memory.lap = 6 * s.memory.size + 8 := rfl
  -- any help is less than the summit
  have hsummit : g.effort s.memory < s.memory.summit := by
    rcases (hm.assists hc hg).2 with he | ⟨d, -, he⟩
    · have hsum : s.memory.summit = s.memory.size * s.memory.lap + s.memory.lap := Nat.succ_mul _ _
      omega
    · have := s.memory.climb_add_lap_le d
      omega
  cases f with
  | claim d word rest =>
    cases hw
    have heffort : (claim d word rest).effort s.memory =
      (if s.memory.verdict d.stamp = .pending then s.memory.climb d else s.memory.summit) +
        2 * d.words.length + 4 * rest.length + 4 := rfl
    rw [heffort, Descriptor.length_words]
    by_cases hv : s.memory.verdict d.stamp = .pending
    · rw [if_pos hv]
      rcases (hm.assists hc hg).2 with he | ⟨d', hclaims, he⟩
      · omega
      · have hlow (j : Nat) (hj : s.memory.claims d j = true) : j < word.index :=
          ha.claims_lt hm hf hv hc (hd d word rest rfl) hj
        have hlt := Memory.climb_add_lap_le_of_claims hv hlow (Memory.lt_of_slot hc) hclaims
        omega
    · rw [if_neg hv]
      omega
  | get | set | cas => exact Nat.lt_add_right _ hsummit
  | contents => exact Nat.lt_add_right _ (Nat.lt_add_right _ hsummit)
  | _ => simp [waits] at hw

/-- Every access that changes nothing brings its frame nearer to a change. -/
theorem Deed.nearer (h : Deed s.memory fresh f e m' move) (hm : s.memory.Accords L)
    (ha : s.Ascends L) (hf : f.Sound L s.memory fresh.owner) (hq : e.wins = false) :
    move.next.Nearer s.memory f := by
  cases h with
  | got | gotLast | casRefused => rfl
  | gotNext =>
    refine ⟨?_, id⟩
    simp only [Frame.effort]
    omega
  | helps hw hc hg hd => exact ⟨hf.help_nearer hm ha hw hc hg hd, (hm.assists hc hg).1⟩
  | setReady hc hv | casReady hc hv =>
    refine ⟨?_, id⟩
    simp only [Frame.effort, Memory.isAt_of_slot hc, decide_true, if_true]
    omega
  | setLost hc hs | casLost hc hs | offerLost hc hs =>
    refine ⟨?_, id⟩
    simp [Frame.effort, Memory.isAt_of_slot hc, hs]
  | driveOpen hv =>
    refine Next.nearer_claimFrom ?_ fun _ => by simp [hv]
    simp only [Frame.effort]
    omega
  | @driveSettled d v hv hp =>
    refine Next.nearer_clearing ?_ fun hpledged => ?_
    · simp only [Frame.effort]
      omega
    · simp only [Frame.isPledged, hv, hp, decide_false, Bool.false_or,
        List.any_eq_true] at hpledged ⊢
      obtain ⟨k, -, hk⟩ := hpledged
      obtain ⟨w, hw, rfl⟩ := hm.formed.word_of_took (hm.took ((hm.claims_iff hf).1 hk))
      exact ⟨w, hw, hk⟩
  | checkOpen hv =>
    refine ⟨?_, id⟩
    simp only [Frame.effort, hv, if_true]
    omega
  | @claimHeld d word rest c hc hd =>
    refine Next.nearer_claimFrom ?_ id
    have := s.memory.climb_add_lap_le d
    simp only [Frame.effort]
    split <;> omega
  | @claimReady d word rest c v hc hv he =>
    refine ⟨?_, id⟩
    have := s.memory.climb_add_lap_le d
    simp only [Frame.effort, Memory.isAt_of_slot hc, decide_true, if_true]
    split <;> omega
  | @claimRefused d word rest c v hc hv he =>
    refine ⟨?_, id⟩
    have := s.memory.climb_add_lap_le d
    simp only [Frame.effort]
    split <;> omega
  | concludeLost hv hp =>
    refine Next.nearer_clearing ?_ fun hpledged => ?_
    · simp only [Frame.effort]
      omega
    · simp [Frame.isPledged, hv, hp] at hpledged
  | clearGone hc hd =>
    refine Next.nearer_clearFrom ?_ fun hpledged => ?_
    · simp only [Frame.effort]
      omega
    · simpa [Frame.isPledged, Memory.claims_of_slot hc, hd] using hpledged
  | clearLost hc hs =>
    have hgone := mt (hm.claims_iff hf.1.1).1 (hm.not_holds_of_lost hc hf.2 hs)
    refine Next.nearer_clearFrom ?_ fun hpledged => ?_
    · simp only [Frame.effort]
      omega
    · simpa [Frame.isPledged, hgone] using hpledged
  | checkSettled | clearHeld | settleOpen | settleSettled | weighOpen | weighSettled | ruleLost |
      releaseHeld =>
    refine ⟨?_, id⟩
    simp only [Frame.effort]
    omega
  | releaseGone hc hd => simp [Next.Nearer, Move.done, Frame.isPledged, hc, hd]
  | releaseLost hc hs => simp [Next.Nearer, Move.done, Frame.isPledged, hc, Cell.isHandoff_of_ne hs]
  | _ => simp [Event.wins] at hq

end

section

variable {m : Memory α} {stack : List (Frame α)}

omit [BEq α] in
theorem Memory.toil_lt (h : ∀ g ∈ stack, g.effort m ≤ m.toll) :
    m.toil stack < (stack.length + 1) * (m.toll + 1) := by
  cases stack with
  | nil => exact Nat.mul_pos (Nat.succ_pos _) (Nat.succ_pos _)
  | cons f below =>
    have hf := h f List.mem_cons_self
    rw [List.length_cons, Nat.succ_mul (below.length + 1)]
    simp only [toil]
    split <;> omega

omit [BEq α] in
theorem Memory.length_le_girth (m : Memory α) (stack : List (Frame α)) :
    stack.length ≤ m.girth stack := by
  cases stack with
  | nil => exact Nat.zero_le _
  | cons f below =>
    simp only [girth, List.length_cons]
    omega

omit [BEq α] in
theorem Memory.girth_le (h : ∀ g ∈ stack, g.effort m ≤ m.toll) :
    m.girth stack ≤ stack.length + (m.toll + 1) := by
  cases stack with
  | nil => exact Nat.zero_le _
  | cons f below =>
    have hf := h f List.mem_cons_self
    simp only [girth, List.length_cons]
    split <;> omega

variable {f : Frame α} {below : List (Frame α)} {next : Next α}

omit [BEq α] in
theorem Next.Nearer.toil_lt (h : next.Nearer m f) (hb : ∀ g ∈ below, g.effort m ≤ m.toll) :
    m.toil (next.frames ++ below) < m.toil (f :: below) := by
  cases next with
  | goto g =>
    obtain ⟨hlt, hp⟩ := h
    simp only [frames, List.singleton_append, Memory.toil]
    by_cases hf : f.isPledged m = true
    · rw [if_pos hf, if_pos (hp hf)]
      omega
    · rw [if_neg hf]
      split <;> omega
  | call g after =>
    obtain ⟨hlt, hg⟩ := h
    simp only [frames, List.cons_append, Memory.toil, hg, if_true]
    omega
  | done r =>
    -- a frame that ends before anything has changed makes room for all that those below can do
    have hf : f.isPledged m = false := h
    refine Nat.lt_of_lt_of_le (Memory.toil_lt hb) ?_
    simp only [Memory.toil, hf, Bool.false_eq_true, if_false]
    exact Nat.le_add_right _ _

omit [BEq α] in
theorem Next.Nearer.girth_le (h : next.Nearer m f) (hb : ∀ g ∈ f :: below, g.effort m ≤ m.toll) :
    m.girth (next.frames ++ below) ≤ m.girth (f :: below) := by
  have hf := hb f List.mem_cons_self
  cases next with
  | goto g =>
    obtain ⟨hlt, hp⟩ := h
    simp only [frames, List.singleton_append, Memory.girth]
    by_cases hf' : f.isPledged m = true
    · rw [if_pos hf', if_pos (hp hf')]
      omega
    · rw [if_neg hf']
      split <;> omega
  | call g after =>
    obtain ⟨hlt, hg⟩ := h
    simp only [frames, List.cons_append, List.nil_append, Memory.girth, hg, if_true,
      List.length_cons]
    split <;> omega
  | done r =>
    have hf' : f.isPledged m = false := h
    refine Nat.le_trans (Memory.girth_le fun g hg => hb g (List.mem_cons_of_mem f hg)) ?_
    simp only [Memory.girth, hf', Bool.false_eq_true, if_false]
    exact Nat.add_le_add_right (Nat.le_succ _) _

end

end MultiSwap
