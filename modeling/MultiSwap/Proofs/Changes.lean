import MultiSwap.Rank
import MultiSwap.Proofs.Nesting
import Mathlib.Algebra.Order.BigOperators.Group.List
import Mathlib.Algebra.Order.Ring.Nat

/-! What every change is paid with. An access that changes the memory takes one of the changes that
were still to come: a call gets further, a handoff that could have been offered is there, or a cell
has gone through one of its own. Nobody else's share grows. -/

namespace MultiSwap

variable {σ α : Type}

section

variable {β : Type} {l : List β} {k : Nat} {a b : β} {F F' : β → Nat}

theorem sum_map_eq_range (l : List β) (F : β → Nat) :
    (l.map F).sum = ((List.range l.length).map fun i => l[i]?.elim 0 F).sum := by
  congr 1
  refine List.ext_getElem (by simp) fun i h _ => ?_
  have hi : i < l.length := by simpa using h
  simp [List.getElem?_eq_getElem hi]

theorem elim_set_le (hk : l[k]? = some a) (hown : F' b ≤ F a)
    (hrest : ∀ (j : Nat) c, k ≠ j → l[j]? = some c → F' c ≤ F c) (j : Nat) :
    (l.set k b)[j]?.elim 0 F' ≤ l[j]?.elim 0 F := by
  by_cases hj : k = j
  · subst hj
    rw [List.getElem?_set_self (List.getElem?_eq_some_iff.1 hk).1, hk]
    exact hown
  · rw [List.getElem?_set_ne hj]
    cases hc : l[j]? with
    | none => exact Nat.le_refl 0
    | some c => exact hrest j c hj hc

theorem sum_map_set_le (hk : l[k]? = some a) (hown : F' b ≤ F a)
    (hrest : ∀ (j : Nat) c, k ≠ j → l[j]? = some c → F' c ≤ F c) :
    ((l.set k b).map F').sum ≤ (l.map F).sum := by
  rw [sum_map_eq_range (l.set k b), sum_map_eq_range l F, List.length_set]
  exact List.sum_le_sum fun j _ => elim_set_le hk hown hrest j

theorem sum_map_set_lt (hk : l[k]? = some a) (hown : F' b ≤ F a)
    (hrest : ∀ (j : Nat) c, k ≠ j → l[j]? = some c → F' c ≤ F c)
    (hlt : F' b < F a ∨ ∃ j c, k ≠ j ∧ l[j]? = some c ∧ F' c < F c) :
    ((l.set k b).map F').sum < (l.map F).sum := by
  rw [sum_map_eq_range (l.set k b), sum_map_eq_range l F, List.length_set]
  refine List.sum_lt_sum _ _ (fun j _ => elim_set_le hk hown hrest j) ?_
  rcases hlt with hlt | ⟨j, c, hj, hc, hlt⟩
  · have hlen := (List.getElem?_eq_some_iff.1 hk).1
    refine ⟨k, List.mem_range.2 hlen, ?_⟩
    rw [List.getElem?_set_self hlen, hk]
    exact hlt
  · refine ⟨j, List.mem_range.2 (List.getElem?_eq_some_iff.1 hc).1, ?_⟩
    rw [List.getElem?_set_ne hj, hc]
    exact hlt

theorem sum_map_le (h : ∀ c ∈ l, F c ≤ k) : (l.map F).sum ≤ l.length * k := by
  have hle : (l.map F).sum ≤ (l.map F).length • k := by
    refine List.sum_le_card_nsmul _ _ fun x hx => ?_
    obtain ⟨c, hc, rfl⟩ := List.mem_map.1 hx
    exact h c hc
  rwa [List.length_map, Nat.nsmul_eq_mul] at hle

theorem sum_map_le_add {G : β → Nat} (h : ∀ c ∈ l, F c ≤ G c + k) :
    (l.map F).sum ≤ (l.map G).sum + l.length * k := by
  induction l with
  | nil => exact Nat.zero_le _
  | cons c l ih =>
    have hc := h c List.mem_cons_self
    have hl := ih fun c' hc' => h c' (List.mem_cons_of_mem c hc')
    rw [List.map_cons, List.map_cons, List.sum_cons, List.sum_cons, List.length_cons, Nat.succ_mul]
    omega

theorem sum_map_le_mul {G : β → Nat} (h : ∀ c ∈ l, F c ≤ (G c + 1) * k) :
    (l.map F).sum ≤ ((l.map G).sum + l.length) * k := by
  induction l with
  | nil => exact Nat.zero_le _
  | cons c l ih =>
    have hc := h c List.mem_cons_self
    have hl := ih fun c' hc' => h c' (List.mem_cons_of_mem c hc')
    rw [List.map_cons, List.map_cons, List.sum_cons, List.sum_cons, List.length_cons]
    calc F c + (l.map F).sum ≤ (G c + 1) * k + ((l.map G).sum + l.length) * k :=
          Nat.add_le_add hc hl
      _ = (G c + 1 + ((l.map G).sum + l.length)) * k := (Nat.add_mul _ _ _).symm
      _ = (G c + (l.map G).sum + (l.length + 1)) * k := by congr 1; omega

theorem sum_map_set (hk : l[k]? = some a) (b : β) (F : β → Nat) :
    ((l.set k b).map F).sum + F a = (l.map F).sum + F b := by
  induction l generalizing k with
  | nil => simp at hk
  | cons c l ih =>
    cases k with
    | zero =>
      obtain rfl : c = a := by simpa using hk
      simp only [List.set_cons_zero, List.map_cons, List.sum_cons]
      omega
    | succ k =>
      have hl := ih (by simpa using hk)
      simp only [List.set_cons_succ, List.map_cons, List.sum_cons]
      omega

theorem countP_lt_countP {p q : β → Bool} (h : ∀ c ∈ l, q c = true → p c = true) (ha : a ∈ l)
    (hp : p a = true) (hq : q a = false) : l.countP q < l.countP p := by
  obtain ⟨pre, post, rfl⟩ := List.append_of_mem ha
  have hpre : pre.countP q ≤ pre.countP p :=
    List.countP_mono_left fun c hc => h c (List.mem_append_left _ hc)
  have hpost : post.countP q ≤ post.countP p :=
    List.countP_mono_left fun c hc => h c (List.mem_append_right _ (List.mem_cons_of_mem _ hc))
  rw [List.countP_append, List.countP_append, List.countP_cons_of_pos hp,
    List.countP_cons_of_neg (by simp [hq])]
  omega

end

theorem System.sum_eq_sum (s : System σ α) (f : Thread σ α → Nat) :
    s.sum f = (s.threads.map f).sum := rfl

namespace Memory

variable {m : Memory α}

theorem weight_le (m : Memory α) (c : Cell α) : m.weight c ≤ 3 := by
  unfold weight
  split
  · omega
  · omega
  · split <;> omega

theorem load_eq_sum (m : Memory α) : m.load = (m.slots.toList.map m.weight).sum := rfl

theorem load_le (m : Memory α) : m.load ≤ 3 * m.size := by
  have hle := sum_map_le (l := m.slots.toList) fun c _ => m.weight_le c
  rw [Array.length_toList] at hle
  rw [load_eq_sum, size]
  omega

theorem load_place_lt {k : Nat} {old c : Cell α} (hk : m.slots[k]? = some old)
    (hlt : m.weight c < m.weight old) : (m.place k c).load < m.load := by
  have hset : (m.place k c).slots.toList = m.slots.toList.set k c := by simp [place]
  rw [load_eq_sum, hset, load_eq_sum]
  exact sum_map_set_lt (by simpa using hk) (Nat.le_of_lt hlt) (fun _ _ _ _ => Nat.le_refl _)
    (Or.inl hlt)

theorem load_propose_lt {k : Nat} {r : Stamp} {g : Handoff α} {p : Verdict}
    (hk : m.slots[k]? = some ⟨r, .reserved g⟩) (hv : m.verdict r = .pending)
    (hp : p ≠ .pending) : (m.propose r p).load < m.load := by
  rw [load_eq_sum, load_eq_sum, slots_propose]
  refine List.sum_lt_sum _ _ (fun c _ => ?_) ⟨⟨r, .reserved g⟩, ?_, ?_⟩
  · unfold weight
    split
    · exact Nat.le_refl _
    · exact Nat.le_refl _
    · by_cases he : c.stamp = r
      · rw [he, hv, if_pos rfl]
        split <;> omega
      · rw [verdict_propose_of_ne he]
  · rw [Array.mem_toList_iff]
    exact Array.mem_of_getElem? hk
  · simp [weight, verdict_propose_self hv, hv, hp]

theorem missing_le (m : Memory α) (d : Descriptor α) : m.missing d ≤ d.words.length :=
  List.countP_le_length

theorem missing_mono {m' : Memory α} {d : Descriptor α}
    (h : ∀ k, m.isTaken d k = true → m'.isTaken d k = true) : m'.missing d ≤ m.missing d := by
  refine List.countP_mono_left fun w _ hmiss => ?_
  rw [Bool.not_eq_true'] at hmiss ⊢
  exact Bool.eq_false_iff.2 (mt (h w.index) (Bool.eq_false_iff.1 hmiss))

theorem missing_lt {m' : Memory α} {d : Descriptor α}
    (h : ∀ k, m.isTaken d k = true → m'.isTaken d k = true) {w : Word α}
    (hw : w ∈ d.words) (hn : m.isTaken d w.index = false) (ht : m'.isTaken d w.index = true) :
    m'.missing d < m.missing d := by
  refine countP_lt_countP (fun v _ hmiss => ?_) hw (by simp [hn]) (by simp [ht])
  rw [Bool.not_eq_true'] at hmiss ⊢
  exact Bool.eq_false_iff.2 (mt (h v.index) (Bool.eq_false_iff.1 hmiss))

theorem haste_le_one (m : Memory α) (stack : List (Frame α)) : m.haste stack ≤ 1 :=
  Bool.toNat_le _

theorem haste_mono {m' : Memory α} {stack stack' : List (Frame α)}
    (h : ∀ g, stack'.head? = some g → g.isHasty m' = true →
      ∃ f, stack.head? = some f ∧ f.isHasty m = true) :
    m'.haste stack' ≤ m.haste stack := by
  unfold haste
  cases hany : stack'.head?.any (·.isHasty m') with
  | false => exact Nat.zero_le _
  | true =>
    obtain ⟨g, hg, hhasty⟩ := (Option.any_eq_true _ _).1 hany
    obtain ⟨f, hf, hhasty'⟩ := h g hg hhasty
    rw [hf, Option.any_some, hhasty']

end Memory

namespace Frame

theorem errand_append {below : List (Frame α)} (hb : below ≠ []) (fs : List (Frame α)) :
    errand (fs ++ below) = errand below := by
  rw [errand, List.getLast?_append_of_ne_nil _ hb, errand]

theorem isHasty_of_awaits {m : Memory α} {f : Frame α} {k : Nat} (h : f.awaits = some k) :
    f.isHasty m = false := by
  cases f with
  | claim | offer => simp [awaits] at h
  | _ => rfl

theorem isHasty_clearFrom {m : Memory α} {d : Descriptor α} (takesEffect : Bool)
    (ws : List (Word α)) {g : Frame α} (hg : (clearFrom d takesEffect ws).frames.head? = some g) :
    g.isHasty m = false := by
  cases ws with
  | nil => simp [clearFrom, Next.frames] at hg
  | cons w rest =>
    cases hg
    rfl

theorem isHasty_clearing {m : Memory α} {d : Descriptor α} {v : Verdict} {g : Frame α}
    (hg : (clearing d v).next.frames.head? = some g) : g.isHasty m = false := by
  cases v with
  | commit => exact isHasty_clearFrom true d.words hg
  | pending => exact isHasty_clearFrom false d.words.reverse hg
  | abort => exact isHasty_clearFrom false d.words.reverse hg

theorem isHasty_claimFrom (m : Memory α) (d : Descriptor α) (ws : List (Word α)) :
    (claimFrom d ws).isHasty m = false := by
  cases ws <;> rfl

end Frame

variable [BEq α]

namespace Deed

variable {L : Ledger α} {m m' : Memory α} {fresh : Stamp} {f : Frame α} {e : Event α}
  {move : Move α}

/-- Nobody hurries on without having been hasty before. -/
theorem isHasty (h : Deed m fresh f e m' move) {g : Frame α}
    (hg : move.next.frames.head? = some g) (hh : g.isHasty m' = true) :
    f.isHasty m = true ∧ e.wins = false := by
  have hno {P : Prop} (hn : g.isHasty m' = false) : P := by
    rw [hn] at hh
    cases hh
  cases h with
  | @helps f slot after c note g' hw hc ha =>
    cases hg
    rcases hx : c.content with v | r | d <;> simp only [Cell.assistance, hx] at ha
    · simp at ha
    all_goals
      cases ha
      cases hh
  | checkOpen hv =>
    cases hg
    simp [Frame.isHasty, hv] at hh
  | claimReady =>
    cases hg
    exact ⟨hh, rfl⟩
  | driveOpen | claimHeld =>
    cases hg
    exact hno (Frame.isHasty_claimFrom _ _ _)
  | driveSettled | concludeWon | concludeLost => exact hno (Frame.isHasty_clearing hg)
  | clearGone | clearWon | clearLost => exact hno (Frame.isHasty_clearFrom _ _ hg)
  | _ =>
    cases hg
    all_goals cases hh

theorem errand (h : Deed m fresh f e m' move) {below : List (Frame α)}
    (hn : move.next.frames ++ below ≠ []) :
    Frame.errand (move.next.frames ++ below) = Frame.errand (f :: below) ∨
      e.wins = true ∧ Frame.errand (f :: below) = some .own ∧
        ∃ d, Frame.errand (move.next.frames ++ below) = some (.driving d) := by
  by_cases hb : below = []
  · subst hb
    rw [List.append_nil] at hn ⊢
    have hgo (ho : move.next.Onward fun g => g.role = f.role) :
        Frame.errand move.next.frames = Frame.errand [f] := by
      obtain ⟨g, hg, hrole⟩ := ho.getLast hn
      rw [Frame.errand, hg, Option.map_some, hrole]
      rfl
    by_cases hr : f.role = .own
    · cases h with
      | opened => exact Or.inr ⟨rfl, rfl, _, rfl⟩
      | helps hw hc hg hd => exact Or.inl (hgo ⟨role_assistance hg, role_waits hw⟩)
      | gotNext | setReady | setLost | casReady | casLost => exact Or.inl rfl
      | got | gotLast | setWon | casRefused | casWon => exact absurd rfl hn
      | _ => cases hr
    · exact Or.inl (hgo (h.onward_role hr))
  · left
    rw [Frame.errand_append hb, ← List.singleton_append, Frame.errand_append hb]

end Deed

/-- Only the frame that concludes an operation changes the verdict on one. -/
theorem Deed.verdict_kept {L : Ledger α} {m m' : Memory α} {fresh : Stamp} {f : Frame α}
    {e : Event α} {move : Move α} (h : Deed m fresh f e m' move) (hm : m.Accords L)
    (hf : f.Sound L m fresh.owner) (hne : ∀ d p, f ≠ .conclude d p) {d : Descriptor α}
    (ho : L.Opened d) : m'.verdict d.stamp = m.verdict d.stamp := by
  apply ((h.effect hm hf).verdict_cases d.stamp).resolve_right
  intro hdecided
  rcases h.proposes hdecided.2 with ⟨d', rfl, -⟩ | ⟨g, rfl⟩
  · exact hne _ _ rfl
  · -- a ticket is no operation
    have hl := hf.1
    rw [hm.formed.known ho] at hl
    simp at hl

section

variable {s : System σ α} {L : Ledger α} {m' : Memory α} {fresh : Stamp} {e : Event α}

theorem Effect.isTaken_mono (h : Effect L s.memory fresh e m') (hm : s.memory.Accords L)
    (ha : s.Ascends L) {d : Descriptor α} (hv : s.memory.verdict d.stamp = .pending) {k : Nat}
    (hk : s.memory.isTaken d k = true) : m'.isTaken d k = true := by
  obtain ⟨c, hc, htaken⟩ := (Option.any_eq_true _ _).1 hk
  rcases h.slot_kept hc with hc' | ⟨now, he⟩
  · simpa [Memory.isTaken, hc'] using htaken
  · obtain ⟨-, hnow, hx⟩ := h.slot_of_swapped he
    have hgone {P : Prop} {r : Stamp} (hr : s.memory.verdict r ≠ .pending) (he : r = d.stamp) :
        P := by
      rw [he] at hr
      exact absurd hv hr
    obtain ⟨r, x⟩ := now
    simp only at hx
    simp only [Memory.isTaken, hnow]
    cases hx with
    | write | opening | offer => simp [Cell.isClaimedBy, Cell.isHandoffTo] at htaken
    | handover hr => simpa [Cell.isClaimedBy, Cell.isHandoffTo] using htaken
    | giveBack hr =>
      exact hgone (ha.givenBack _ k _ (hm.cells k _ hc) hr)
        (by simpa [Cell.isClaimedBy, Cell.isHandoffTo] using htaken)
    | @clearing _ d' w takesEffect hk hw hr =>
      refine hgone (r := d'.stamp) ?_ (by simpa [Cell.isClaimedBy, Cell.isHandoffTo] using htaken)
      rw [hr]
      split <;> simp

theorem Effect.stage_le (h : Effect L s.memory fresh e m') (r : Option (Role α)) :
    m'.stage r ≤ s.memory.stage r := by
  match r with
  | none | some .own | some (.settling _ _) => exact Nat.le_refl _
  | some (.driving d) =>
    simp only [Memory.stage]
    by_cases hv : m'.verdict d.stamp = .pending
    · rw [if_pos hv, if_pos (h.pending_of_pending hv)]
    · rw [if_neg hv]
      exact Nat.zero_le _

theorem Effect.dues_le (h : Effect L s.memory fresh e m') (hm : s.memory.Accords L)
    (ha : s.Ascends L) (r : Option (Role α)) : m'.dues r ≤ s.memory.dues r := by
  match r with
  | none | some .own | some (.settling _ _) => exact Nat.le_refl _
  | some (.driving d) =>
    simp only [Memory.dues]
    by_cases hv : m'.verdict d.stamp = .pending
    · have hv' := h.pending_of_pending hv
      rw [if_pos hv, if_pos hv']
      exact Memory.missing_mono fun k => h.isTaken_mono hm ha hv'
    · rw [if_neg hv]
      exact Nat.zero_le _

/-- A handoff that is offered for a pending operation was due. -/
theorem Effect.dues_lt (h : Effect L s.memory fresh e m') (hm : s.memory.Accords L)
    (ha : s.Ascends L) {k : Nat} {old : Cell α} {r : Stamp} {g : Handoff α}
    (he : e = .swapped k old true ⟨r, .reserved g⟩)
    (hv : s.memory.verdict g.operation.stamp = .pending) :
    m'.dues (some (.driving g.operation)) < s.memory.dues (some (.driving g.operation)) := by
  obtain ⟨hold, hnow, hx⟩ := h.slot_of_swapped he
  have hv' : m'.verdict g.operation.stamp = .pending := by
    rcases h.verdict_cases g.operation.stamp with hsame | ⟨-, hdecided⟩
    · rw [hsame, hv]
    · rw [he] at hdecided
      simp at hdecided
  simp only [Memory.dues, hv, hv', if_true]
  cases hx with
  | @offer _ d w kept hk ho hw hu =>
    subst hk
    refine Memory.missing_lt (fun j => h.isTaken_mono hm ha hv) (Descriptor.mem_of_others hw) ?_ ?_
    · simp [Memory.isTaken, hold, Cell.isClaimedBy, Cell.isHandoffTo]
    · simp [Memory.isTaken, hnow, Cell.isHandoffTo]

theorem Memory.haste_le_of_kept {m : Memory α}
    (hkeep : ∀ d, L.Opened d → m'.verdict d.stamp = m.verdict d.stamp) {owner : Nat}
    {stack : List (Frame α)} (hs : ∀ f ∈ stack, f.Sound L m owner) :
    m'.haste stack ≤ m.haste stack := by
  refine Memory.haste_mono fun f hf hh => ⟨f, hf, ?_⟩
  have hsound := hs f (List.mem_of_mem_head? hf)
  cases f with
  | claim d word rest | offer d word rest seen kept =>
    rw [← hh]
    simp only [Frame.isHasty, hkeep d (hsound.opened rfl)]
  | _ => simp [Frame.isHasty] at hh

theorem Deed.haste_le {m : Memory α} {f : Frame α} {below : List (Frame α)} {move : Move α}
    (h : Deed m fresh f e m' move) (hn : Nested L m (f :: below)) :
    m'.haste (move.next.frames ++ below) ≤ if e.wins then 0 else m.haste (f :: below) := by
  have hhead (g : Frame α) (hg : (move.next.frames ++ below).head? = some g)
      (hh : g.isHasty m' = true) : f.isHasty m = true ∧ e.wins = false := by
    cases hfs : move.next.frames with
    | nil =>
      -- the frame below waits, and no frame does so in a hurry
      rw [hfs, List.nil_append] at hg
      obtain ⟨k, hk⟩ := hn.awaits (List.mem_of_mem_head? hg)
      rw [Frame.isHasty_of_awaits hk] at hh
      cases hh
    | cons g' fs =>
      rw [hfs] at hg
      exact h.isHasty (hfs ▸ hg) hh
  cases hw : e.wins with
  | false =>
    rw [if_neg Bool.false_ne_true]
    exact Memory.haste_mono fun g hg hh => ⟨f, rfl, (hhead g hg hh).1⟩
  | true =>
    rw [if_pos rfl]
    have hnone : (move.next.frames ++ below).head?.any (·.isHasty m') = false := by
      rw [← Bool.not_eq_true, Option.any_eq_true]
      intro hany
      obtain ⟨g, hg, hh⟩ := hany
      rw [(hhead g hg hh).2] at hw
      cases hw
    rw [Memory.haste, hnone]
    exact Nat.le_refl 0

end

end MultiSwap
