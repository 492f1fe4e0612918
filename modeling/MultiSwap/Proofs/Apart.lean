import MultiSwap.Proofs.Ending
import MultiSwap.Proofs.Footprint
import MultiSwap.Proofs.Nesting

/-! Nothing gets in the way of a thread whose slots no other thread names. What it finds in them is
plain, or an operation of its own that it is driving, so it never helps anybody, and a cell that it
has found is still there when it swaps it. -/

namespace MultiSwap

variable {σ α : Type}

namespace Frame

/-- The cell that the frame is about to swap is still in its slot. -/
def OnAim (m : Memory α) (f : Frame α) : Prop := ∀ k s, f.aim = some (k, s) → m.isAt k s = true

/-- The frame finds nothing in its slot that it would have to help. -/
def Unimpeded (m : Memory α) (f : Frame α) : Prop :=
  ∀ k after c, f.waits = some (k, after) → m.slots[k]? = some c →
    (∃ v, c.content = .plain v) ∨ ∃ d word rest, f = .claim d word rest ∧ c.isClaimedBy d = true

/-- The stack of a thread that nothing is in the way of. Above the frame of its call there is at most
one that settles a handoff, and that was offered by the frame below it. -/
inductive Simple : List (Frame α) → Prop where
  | idle : Simple []
  | call (f : Frame α) : Simple [f]
  | offered {a b : Frame α} (ha : ∃ r g, a.role = .settling r g) (hb : b.aim = none) :
    Simple [a, b]

theorem onAim_of_none {m : Memory α} {f : Frame α} (h : f.aim = none) : f.OnAim m := by
  intro k s hs
  rw [h] at hs
  simp at hs

section

variable {K : Nat → Prop} {owner : Nat} {d : Descriptor α}

theorem private_claimFrom (hd : d.Private K owner) {ws : List (Word α)}
    (hws : ∀ w ∈ ws, K w.index) : (claimFrom d ws).Private K owner := by
  cases ws with
  | nil => exact hd
  | cons w rest => exact ⟨hd, hws⟩

theorem private_of_mem_clearFrom (hd : d.Private K owner) {takesEffect : Bool}
    {ws : List (Word α)} (hws : ∀ w ∈ ws, K w.index) {g : Frame α}
    (h : g ∈ (clearFrom d takesEffect ws).frames) : g.Private K owner := by
  obtain ⟨w, rest, rfl, rfl⟩ := mem_clearFrom _ _ h
  exact ⟨hd, hws⟩

theorem private_of_mem_clearing (hd : d.Private K owner) {v : Verdict} {g : Frame α}
    (h : g ∈ (clearing d v).next.frames) : g.Private K owner := by
  obtain ⟨takesEffect, w, rest, rfl, hwords⟩ := mem_clearing h
  exact ⟨hd, fun x hx => hd.2 x (hwords x hx)⟩

theorem Private.of_minds {f : Frame α} (hf : f.Private K owner) {k : Nat} (h : f.Minds d k) :
    K k := by
  cases f with
  | drive | check | claim | offer | conclude =>
    obtain ⟨rfl, w, hw, rfl⟩ := h
    first | exact hf.2 w hw | exact hf.1.2 w hw
  | clear | clearOver =>
    obtain ⟨rfl, w, hw, rfl⟩ := h
    exact hf.2 w hw
  | _ => exact absurd h not_false

theorem Private.of_aim {f : Frame α} (hf : f.Private K owner) {k : Nat} {s : Stamp}
    (h : f.aim = some (k, s)) : K k := by
  cases f <;> simp only [aim, Option.some.injEq, Prod.mk.injEq, reduceCtorEq] at h
  all_goals obtain ⟨rfl, rfl⟩ := h
  case setOver => exact hf
  case casOver => exact hf.1
  case offer => exact hf.2 _ List.mem_cons_self
  case clearOver => exact hf.2 _ List.mem_cons_self
  case releaseOver => exact hf.2.1

theorem Private.waits {f after : Frame α} (hf : f.Private K owner) {k : Nat}
    (h : f.waits = some (k, after)) : K k := by
  cases f <;> simp only [Frame.waits, Option.some.injEq, Prod.mk.injEq, reduceCtorEq] at h
  all_goals obtain ⟨rfl, -⟩ := h
  case get => exact hf
  case contents => exact absurd hf not_false
  case set => exact hf
  case cas => exact hf.1
  case claim => exact hf.2 _ List.mem_cons_self

theorem OnAim.agrees {f : Frame α} {m m' : Memory α} (ha : f.OnAim m) (hf : f.Private K owner)
    (h : m.Agrees K owner m') : f.OnAim m' := by
  intro k s hs
  have hat := ha k s hs
  rwa [Memory.isAt, h.slots k (hf.of_aim hs)]

end

end Frame

/-- Does the event tell that another thread was in the way? -/
def Event.disturbed : Event α → Bool
  | swapped _ _ won _ => !won
  | noted (.helpsHandoff _) | noted (.helpsOperation _) => true
  | _ => false

theorem Frame.not_disturbed_of_mem_clearing {d : Descriptor α} {v : Verdict} {n : Note}
    (h : n ∈ (clearing d v).notes) : (Event.noted (α := α) n).disturbed = false := by
  cases v <;> cases List.mem_singleton.1 h <;> rfl

theorem Frame.Unimpeded.not_helps {m : Memory α} {f after g : Frame α} {k : Nat} {c : Cell α}
    {note : Note} (hu : f.Unimpeded m) (hw : f.waits = some (k, after))
    (hc : m.slots[k]? = some c) (hg : c.assistance = some (note, g))
    (hd : ∀ d word rest, f = .claim d word rest → c.isClaimedBy d = false) : False := by
  rcases hu k after c hw hc with ⟨v, hv⟩ | ⟨d, word, rest, hf, hclaimed⟩
  · simp [Cell.assistance, hv] at hg
  · rw [hd d word rest hf] at hclaimed
    simp at hclaimed

variable [BEq α]

namespace Deed

variable {m m' : Memory α} {fresh : Stamp} {f : Frame α} {e : Event α} {move : Move α}

/-- A frame that nothing is in the way of does not help, and loses no swap. -/
theorem undisturbed (h : Deed m fresh f e m' move) (hu : f.Unimpeded m) (ha : f.OnAim m) :
    e.disturbed = false ∧ ∀ n ∈ move.notes, (Event.noted (α := α) n).disturbed = false := by
  cases h with
  | helps hw hc hg hd => exact (hu.not_helps hw hc hg hd).elim
  | setLost hc hs | casLost hc hs | offerLost hc hs | clearLost hc hs | releaseLost hc hs =>
    have hat := ha _ _ rfl
    rw [Memory.isAt_of_slot hc] at hat
    exact absurd (of_decide_eq_true hat) hs
  | driveSettled | concludeLost => exact ⟨rfl, fun n hn => Frame.not_disturbed_of_mem_clearing hn⟩
  | concludeWon =>
    refine ⟨rfl, fun n hn => ?_⟩
    rcases List.mem_cons.1 hn with rfl | hn
    · rfl
    · exact Frame.not_disturbed_of_mem_clearing hn
  | gotNext | casRefused =>
    refine ⟨rfl, fun n hn => ?_⟩
    rw [Move.eq_of_mem_noteIf hn]
    rfl
  | @clearWon d takesEffect =>
    refine ⟨rfl, fun n hn => ?_⟩
    rw [List.mem_singleton.1 hn]
    cases takesEffect <;> rfl
  | _ => exact ⟨rfl, by simp [Move.done, Move.goto, Event.disturbed]⟩

theorem private_next (h : Deed m fresh f e m' move) (hu : f.Unimpeded m) {K : Nat → Prop}
    (hf : f.Private K fresh.owner) : ∀ g ∈ move.next.frames, g.Private K fresh.owner := by
  intro g hg
  cases h with
  | helps hw hc ha hd => exact (hu.not_helps hw hc ha hd).elim
  | gotNext => exact absurd hf not_false
  | driveOpen =>
    cases List.mem_singleton.1 hg
    exact Frame.private_claimFrom hf fun w hw => hf.2 w (Descriptor.mem_of_others hw)
  | claimHeld =>
    cases List.mem_singleton.1 hg
    exact Frame.private_claimFrom hf.1 fun w hw => hf.2 w (List.mem_cons_of_mem _ hw)
  | driveSettled | concludeWon | concludeLost => exact Frame.private_of_mem_clearing hf hg
  | clearGone | clearWon | clearLost =>
    exact Frame.private_of_mem_clearFrom hf.1 (fun w hw => hf.2 w (List.mem_cons_of_mem _ hw)) hg
  | offerWon =>
    rcases List.mem_cons.1 hg with rfl | hg
    · exact ⟨rfl, hf.2 _ List.mem_cons_self, hf.1⟩
    · cases List.mem_singleton.1 hg
      exact hf
  | opened =>
    cases List.mem_singleton.1 hg
    exact hf.2 _ rfl
  | setReady | setLost =>
    cases List.mem_singleton.1 hg
    exact hf
  | casReady | casLost =>
    cases List.mem_singleton.1 hg
    exact hf
  | checkOpen | claimReady | offerLost | clearHeld =>
    cases List.mem_singleton.1 hg
    exact hf
  | checkSettled | claimRefused =>
    cases List.mem_singleton.1 hg
    exact hf.1
  | settleOpen | settleSettled | weighOpen | weighSettled | ruleWon | ruleLost | releaseHeld =>
    cases List.mem_singleton.1 hg
    exact hf
  | _ => exact absurd hg List.not_mem_nil

theorem onAim_next (h : Deed m fresh f e m' move) : ∀ g ∈ move.next.frames, g.OnAim m' := by
  intro g hg k s ha
  obtain ⟨-, c, he, rfl⟩ := h.looks hg ha
  obtain ⟨rfl, hc⟩ := h.slot_of_loaded he
  rw [Memory.isAt_of_slot hc]
  exact decide_eq_true rfl

theorem offers_of_call (h : Deed m fresh f e m' move) (hu : f.Unimpeded m) {g after : Frame α}
    (hn : move.next = .call g after) :
    (∃ d, f.role = .driving d) ∧ (∃ r w, g.role = .settling r w) ∧ after.aim = none := by
  cases h with
  | helps hw hc ha hd => exact (hu.not_helps hw hc ha hd).elim
  | offerWon =>
    cases hn
    exact ⟨⟨_, rfl⟩, ⟨_, _, rfl⟩, rfl⟩
  | driveSettled | concludeWon | concludeLost =>
    exact absurd hn (Frame.clearing_ne_call _ _ _ _)
  | clearGone | clearWon | clearLost => exact absurd hn (Frame.clearFrom_ne_call _ _ _ _ _)
  | _ => cases hn

theorem simple_next (h : Deed m fresh f e m' move) (hu : f.Unimpeded m) {below : List (Frame α)}
    (hs : Frame.Simple (f :: below)) : Frame.Simple (move.next.frames ++ below) := by
  have hcall {g after : Frame α} (hn : move.next = .call g after) := h.offers_of_call hu hn
  cases hs with
  | call =>
    cases hn : move.next with
    | goto g => exact .call g
    | call g after => exact .offered (hcall hn).2.1 (hcall hn).2.2
    | done r => exact .idle
  | @offered _ b ha hb =>
    obtain ⟨r, w, hr⟩ := ha
    cases hn : move.next with
    | goto g =>
      have hrole := h.onward_role (by simp [hr])
      rw [hn] at hrole
      exact .offered ⟨r, w, hrole.trans hr⟩ hb
    | call g after =>
      obtain ⟨⟨d, hd⟩, -⟩ := hcall hn
      rw [hr] at hd
      cases hd
    | done _ => exact .call b

end Deed

/-- The slots that a call names are among those of `K`, where the array has them. A call that reads
all slots is none of these. -/
def Call.Keeps (K : Nat → Prop) (n : Nat) (c : Call α) : Prop :=
  (∀ announced, c ≠ .contents announced) ∧ ∀ k ∈ c.slots, k < n → K k

theorem Outset.private_frames {fresh : Stamp} {n : Nat} {c : Call α} {next : Next α}
    (h : Outset fresh n c next) {K : Nat → Prop} (hc : c.Keeps K n) :
    ∀ g ∈ next.frames, g.Private K fresh.owner := by
  intro g hg
  cases h with
  | get he hk | set he hk =>
    subst he
    cases List.mem_singleton.1 hg
    exact hc.2 _ (List.mem_singleton_self _) hk
  | contents he => exact absurd he (hc.1 _)
  | single hb he hm hk =>
    cases List.mem_singleton.1 hg
    exact ⟨hc.2 _ (Call.merged_mem_slots he hm _ (List.mem_singleton_self _)) hk, by simp⟩
  | @many ws d hb he hm hs hd =>
    cases List.mem_singleton.1 hg
    have hwords (w : Word α) (hw : w ∈ d.words) : K w.index :=
      hc.2 _ (Call.merged_mem_slots he hm w hw) (hd.inBounds w hw)
    refine ⟨hwords _ d.first_mem, fun d' hd' => ?_⟩
    cases hd'
    exact ⟨by rw [hs], hwords⟩
  | _ => exact absurd hg List.not_mem_nil

theorem Outset.simple_frames {fresh : Stamp} {n : Nat} {c : Call α} {next : Next α}
    (h : Outset fresh n c next) : Frame.Simple next.frames := by
  cases h with
  | get | set | contents | single | many => exact .call _
  | _ => exact .idle

omit [BEq α] in
theorem Thread.mem_state_onward {th : Thread (List (Call α)) α} {below : List (Frame α)}
    {next : Next α} {c : Call α} (h : c ∈ (th.onward .script below next).state) : c ∈ th.state := by
  unfold onward at h
  cases ha : next.answer below with
  | none => rwa [ha] at h
  | some r =>
    rw [ha] at h
    exact List.mem_of_mem_tail h

/-- The thread, number `t`, keeps to the slots of `K`, and nothing is in its way. -/
structure Thread.Undisturbed (K : Nat → Prop) (m : Memory α) (t : Nat)
    (th : Thread (List (Call α)) α) : Prop where
  calls : ∀ c ∈ th.state, c.Keeps K m.size
  frames : ∀ f ∈ th.strand.stack, f.Private K (t + 1)
  aims : ∀ f ∈ th.strand.stack, f.OnAim m
  simple : Frame.Simple th.strand.stack

def System.Undisturbed (K : Nat → Nat → Prop) (s : System (List (Call α)) α) : Prop :=
  ∀ (t : Nat) th, s.threads[t]? = some th → th.Undisturbed (K t) s.memory t

omit [BEq α] in
theorem Frame.Simple.aim_below {f g : Frame α} {below : List (Frame α)}
    (h : Frame.Simple (f :: below)) (hg : g ∈ below) : g.aim = none := by
  cases h with
  | call => exact absurd hg List.not_mem_nil
  | offered ha hb =>
    cases List.mem_singleton.1 hg
    exact hb

omit [BEq α] in
theorem Frame.Simple.eq_nil_of_waits {f after : Frame α} {below : List (Frame α)} {k : Nat}
    (h : Frame.Simple (f :: below)) (hw : f.waits = some (k, after)) : below = [] := by
  cases h with
  | call => rfl
  | offered ha hb =>
    obtain ⟨r, g, hr⟩ := ha
    cases f <;> simp [Frame.waits, Frame.role] at hw hr

namespace Thread.Undisturbed

variable {K : Nat → Prop} {m m' : Memory α} {t : Nat} {th : Thread (List (Call α)) α}

omit [BEq α] in
theorem agrees (h : th.Undisturbed K m t) (hm : m.Agrees K (t + 1) m') :
    th.Undisturbed K m' t where
  calls c hc := by
    rw [hm.size]
    exact h.calls c hc
  frames := h.frames
  aims f hf := (h.aims f hf).agrees (h.frames f hf) hm
  simple := h.simple

theorem start (h : th.Undisturbed K m t) (hown : th.strand.fresh.owner = t + 1) {c : Call α}
    (hc : Client.script.next th.state = some c) {next : Next α}
    (ho : Outset th.strand.fresh m.size c next) :
    (th.onward .script [] next).Undisturbed K m t := by
  have hframes : (th.onward Client.script [] next).strand.stack = next.frames := List.append_nil _
  constructor
  · exact fun c hc => h.calls c (Thread.mem_state_onward hc)
  · rw [hframes, ← hown]
    exact ho.private_frames (h.calls c (List.mem_of_mem_head? hc))
  · rw [hframes]
    exact fun g hg => Frame.onAim_of_none (ho.aim_frames g hg)
  · rw [hframes]
    exact ho.simple_frames

theorem access (h : th.Undisturbed K m t) (hown : th.strand.fresh.owner = t + 1) {f : Frame α}
    {below : List (Frame α)} (hf : th.strand.stack = f :: below) (hu : f.Unimpeded m)
    {e : Event α} {move : Move α} (hd : Deed m th.strand.fresh f e m' move)
    (hsize : m'.size = m.size) : (th.onward .script below move.next).Undisturbed K m' t := by
  have hsimple := h.simple
  rw [hf] at hsimple
  constructor
  · intro c hc
    rw [hsize]
    exact h.calls c (Thread.mem_state_onward hc)
  · intro g hg
    rcases List.mem_append.1 hg with hg | hg
    · rw [← hown]
      refine hd.private_next hu ?_ g hg
      rw [hown]
      exact h.frames f (by simp [hf])
    · exact h.frames g (by simp [hf, hg])
  · intro g hg
    rcases List.mem_append.1 hg with hg | hg
    · exact hd.onAim_next g hg
    · exact Frame.onAim_of_none (hsimple.aim_below hg)
  · exact hd.simple_next hu hsimple

end Thread.Undisturbed

namespace System.Undisturbed

variable {K : Nat → Nat → Prop} {s : System (List (Call α)) α} {L : Ledger α} {t : Nat}
  {th : Thread (List (Call α)) α} {f : Frame α} {below : List (Frame α)}

/-- What a thread finds in a slot of its own is plain, or held by the operation that it drives. -/
theorem unimpeded (h : s.Undisturbed K) (hm : s.memory.Accords L) (hup : s.Upkept L)
    (hK : ∀ t u k, K t k → K u k → t = u) (ht : s.threads[t]? = some th)
    (hf : th.strand.stack = f :: below) : f.Unimpeded s.memory := by
  intro k after c hw hc
  have hk : K t k := ((h t th ht).frames f (by simp [hf])).waits hw
  -- whoever minds the slot is this thread
  have hself {u : Nat} {th' : Thread (List (Call α)) α} {g : Frame α} {d : Descriptor α}
      (hu : s.threads[u]? = some th') (hg : g ∈ th'.strand.stack) (hmind : g.Minds d k) :
      th' = th := by
    obtain rfl := hK t u k hk (((h u th' hu).frames g hg).of_minds hmind)
    exact Option.some.inj (hu.symm.trans ht)
  have hsimple := (h t th ht).simple
  rw [hf] at hsimple
  obtain rfl := hsimple.eq_nil_of_waits hw
  obtain ⟨r, x⟩ := c
  cases x with
  | plain v => exact Or.inl ⟨v, rfl⟩
  | reserved g =>
    obtain ⟨u, th', a, b, -, hu, hsub, -, hmind⟩ := hup.reserved k r g hc
    rw [(hm.formed.reserved (hm.cells k _ hc)).1] at hmind
    obtain rfl := hself hu (hsub.subset (by simp)) hmind
    rw [hf] at hsub
    exact absurd hsub.length_le (by simp)
  | claimed d =>
    obtain ⟨owner, -, u, th', g, -, hu, hg, hmind⟩ := hup.claimed k r d hc
    obtain rfl := hself hu hg hmind
    rw [hf] at hg
    obtain rfl := List.mem_singleton.1 hg
    refine Or.inr ?_
    cases g with
    | claim d' word rest =>
      obtain ⟨rfl, -⟩ := hmind
      exact ⟨_, _, _, rfl, by simp [Cell.isClaimedBy]⟩
    | get | contents | set | cas => exact absurd hmind not_false
    | _ => simp [Frame.waits] at hw

theorem start (h : s.Undisturbed K) (hs : s.Sound .script L) (ht : s.threads[t]? = some th)
    {c : Call α} (hc : Client.script.next th.state = some c) {next : Next α}
    (ho : Outset th.strand.fresh s.memory.size c next) :
    System.Undisturbed K ⟨s.memory, s.threads.set t (th.onward .script [] next)⟩ := by
  intro u th' hu'
  rcases Thread.of_getElem?_set ht hu' with ⟨rfl, rfl⟩ | ⟨-, hu'⟩
  · exact (h t th ht).start (hs.threads t th ht).owner hc ho
  · exact h u th' hu'

theorem access (h : s.Undisturbed K) (hs : s.Sound .script L) (hup : s.Upkept L)
    (hK : ∀ t u k, K t k → K u k → t = u) (ht : s.threads[t]? = some th)
    (hf : th.strand.stack = f :: below) {m' : Memory α} {e : Event α} {move : Move α}
    (hd : Deed s.memory th.strand.fresh f e m' move) :
    System.Undisturbed K ⟨m', s.threads.set t (th.onward .script below move.next)⟩ := by
  have hth := hs.threads t th ht
  intro u th' hu'
  rcases Thread.of_getElem?_set ht hu' with ⟨rfl, rfl⟩ | ⟨hut, hu'⟩
  · exact (h t th ht).access hth.owner hf (h.unimpeded hs.accords hup hK ht hf) hd
      (hd.effect hs.accords (hth.sound_top hf)).size_eq
  · -- the other threads' slots are as they were
    refine (h u th' hu').agrees ?_
    have hprivate := (h t th ht).frames f (by simp [hf])
    have hagree : s.memory.Agrees (K u) (u + 1) _ :=
      (hprivate.request th.strand.fresh).perform_agrees s.memory
        (fun k hk hk' => hut (hK t u k hk hk')) (by omega)
    rwa [hd.perform] at hagree

end System.Undisturbed

end MultiSwap
