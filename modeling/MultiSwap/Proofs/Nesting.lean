import MultiSwap.Proofs.Ascent
import Mathlib.Data.List.Chain

/-! How deep help goes. A thread that drives an operation may find another one in a slot and drive
that first. As long as all operations in such a row are pending, each is met in a higher slot than
the one before, since it holds all its slots below, so the row is no longer than the array. An
operation that is decided in between breaks the row: its driver may go on from it to a slot that was
already passed, so that the whole stack may be higher than that. -/

namespace MultiSwap

variable {σ α : Type}

namespace Frame

/-- The slot in which a frame found the work that is above it. -/
def awaits : Frame α → Option Nat
  | get slot | contents _ slot _ _ | set slot _ | cas slot _ _ _ => some slot
  | check _ word _ => some word.index
  | _ => none

def isDriving (f : Frame α) : Bool := f.role matches .driving _

theorem awaits_waits {f after : Frame α} {k : Nat} (h : f.waits = some (k, after)) :
    after.awaits = some k := by
  cases f <;> simp only [waits, Option.some.injEq, Prod.mk.injEq, reduceCtorEq] at h
  all_goals
    obtain ⟨rfl, rfl⟩ := h
    rfl

theorem clearFrom_ne_call (d : Descriptor α) (takesEffect : Bool) (ws : List (Word α))
    (g after : Frame α) : clearFrom d takesEffect ws ≠ .call g after := by
  cases ws <;> simp [clearFrom]

theorem clearing_ne_call (d : Descriptor α) (v : Verdict) (g after : Frame α) :
    (clearing d v).next ≠ .call g after := by
  cases v with
  | commit => exact clearFrom_ne_call d true d.words g after
  | pending => exact clearFrom_ne_call d false d.words.reverse g after
  | abort => exact clearFrom_ne_call d false d.words.reverse g after

end Frame

def Strand.nesting (s : Strand α) : Nat := s.stack.countP fun f => f.isDriving

/-- What `g` drives was met in the slot where the frame `f` below it waits. -/
def Ledger.Meets (L : Ledger α) (g f : Frame α) : Prop :=
  ∃ k, f.awaits = some k ∧ ∀ d, g.role = .driving d → L.Took d k

def Frame.pursues (m : Memory α) (f : Frame α) : Bool :=
  match f.role with
  | .driving d => m.verdict d.stamp = .pending
  | _ => false

theorem Frame.pursues_iff {m : Memory α} {f : Frame α} :
    f.pursues m = true ↔ ∃ d, f.role = .driving d ∧ m.verdict d.stamp = .pending := by
  unfold pursues
  cases f.role <;> simp

/-- If `g` waits for a pending operation, then in a higher slot than the frame `f` below it. -/
def Memory.Rises (m : Memory α) (g f : Frame α) : Prop :=
  ∀ d j k, g.role = .driving d → m.verdict d.stamp = .pending → f.awaits = some j →
    g.awaits = some k → j < k

/-- The frames of a stack, the innermost first. The top one is at work and need not wait. -/
structure Nested (L : Ledger α) (m : Memory α) (stack : List (Frame α)) : Prop where
  meets : stack.IsChain L.Meets
  rises : stack.tail.IsChain m.Rises

theorem Ledger.Meets.mono {L L' : Ledger α} (hw : L.Within L') {g f : Frame α} (h : L.Meets g f) :
    L'.Meets g f := by
  obtain ⟨k, hk, htook⟩ := h
  exact ⟨k, hk, fun d hd => (htook d hd).mono hw⟩

theorem Ledger.Meets.of_role {L : Ledger α} {g g' f : Frame α} (h : L.Meets g f)
    (hr : g'.role = g.role) : L.Meets g' f := by
  obtain ⟨k, hk, htook⟩ := h
  exact ⟨k, hk, fun d hd => htook d (hr.symm.trans hd)⟩

theorem Nested.mono {L L' : Ledger α} {m m' : Memory α} (hg : Grows L L' m m')
    {stack : List (Frame α)} (h : Nested L m stack) : Nested L' m' stack := by
  refine ⟨h.meets.imp fun _ _ hm => hm.mono hg.within, h.rises.imp ?_⟩
  intro g f hr d j k hd hv
  refine hr d j k hd ?_
  by_contra hn
  rw [hg.settled _ hn] at hv
  exact hn hv

theorem Nested.awaits {L : Ledger α} {m : Memory α} {g : Frame α} {below : List (Frame α)}
    (h : Nested L m (g :: below)) {f : Frame α} (hf : f ∈ below) : ∃ k, f.awaits = some k := by
  obtain ⟨pre, post, rfl⟩ := List.append_of_mem hf
  obtain ⟨x, hx⟩ : ∃ x, (g :: pre).getLast? = some x :=
    ⟨_, List.getLast?_eq_some_getLast (List.cons_ne_nil g pre)⟩
  have hmeets : ((g :: pre) ++ f :: post).IsChain L.Meets := h.meets
  obtain ⟨k, hk, -⟩ := (List.isChain_append.1 hmeets).2.2 x hx f rfl
  exact ⟨k, hk⟩

theorem Nested.of_row {L : Ledger α} {m : Memory α} {row stack : List (Frame α)}
    (h : Nested L m stack) (hr : row <:+: stack) : Nested L m row := by
  refine ⟨ List.IsChain.infix h.meets hr, List.IsChain.infix h.rises ?_⟩
  obtain ⟨pre, post, rfl⟩ := hr
  cases row with
  | nil => exact List.nil_infix
  | cons g below =>
    cases pre with
    | nil => exact ⟨[], post, rfl⟩
    | cons x pre => exact ⟨pre ++ [g], post, by simp⟩

variable [BEq α]

namespace Deed

variable {L : Ledger α} {m m' : Memory α} {fresh : Stamp} {f : Frame α} {e : Event α}
  {move : Move α}

/-- What is put above a frame was met in its slot, which is not one that the frame's own operation
holds. -/
theorem met (h : Deed m fresh f e m' move) (hm : m.Accords L)
    (hf : f.Sound L m fresh.owner) {g after : Frame α} (hn : move.next = .call g after) :
    ∃ k c, after.awaits = some k ∧ m.slots[k]? = some c ∧
      (∀ d, g.role = .driving d → L.Took d k) ∧
        ∀ d, f.role = .driving d → c.isClaimedBy d = false ∧ ∃ w ∈ d.words, w.index = k := by
  cases h with
  | @helps f slot after c note g hw hc ha hd =>
    cases hn
    refine ⟨slot, c, Frame.awaits_waits hw, hc, fun d hr => ?_, fun d hr => ?_⟩
    · have hl := hm.cells slot c hc
      rcases hx : c.content with v | h | d' <;> simp only [Cell.assistance, hx] at ha
      · simp at ha
      · cases ha
        simp [Frame.role] at hr
      · cases ha
        cases hr
        exact ⟨c.stamp, hx ▸ hl⟩
    · cases f with
      | claim d' word rest =>
        cases hr
        cases hw
        exact ⟨hd d word rest rfl, word, Descriptor.mem_of_others hf.mem, rfl⟩
      | _ => simp [Frame.role, Frame.waits] at hr hw
  | @offerWon d word rest seen kept c hc hs =>
    cases hn
    refine ⟨word.index, c, rfl, hc, by simp [Frame.role], fun d' hr => ?_⟩
    cases hr
    rw [(hm.cell_eq hc hf.2.1 hs).2]
    exact ⟨rfl, word, Descriptor.mem_of_others hf.1.mem, rfl⟩
  | driveSettled | concludeWon | concludeLost =>
    exact absurd hn (Frame.clearing_ne_call _ _ _ _)
  | clearGone | clearWon | clearLost => exact absurd hn (Frame.clearFrom_ne_call _ _ _ _ _)
  | _ => cases hn

end Deed

section

variable {client : Client σ α} {s : System σ α} {L : Ledger α} {t : Nat} {th : Thread σ α}
  {f : Frame α} {below : List (Frame α)} {m' : Memory α} {e : Event α} {move : Move α}

theorem Deed.rises (hd : Deed s.memory th.strand.fresh f e m' move) (hs : s.Sound client L)
    (ha : s.Ascends L) (hf : f.Sound L s.memory th.strand.fresh.owner)
    (heff : Effect L s.memory th.strand.fresh e m') {g after : Frame α}
    (hn : move.next = .call g after) (hr : after.role = f.role) {h : Frame α} (hm : L.Meets f h) :
    m'.Rises after h := by
  intro d j k hrole hv hj hk
  obtain ⟨k', c, hk', hc, -, hother⟩ := hd.met hs.accords hf hn
  obtain rfl : k' = k := Option.some.inj (hk'.symm.trans hk)
  rw [hr] at hrole
  obtain ⟨hnot, w, hw, hwk⟩ := hother d hrole
  obtain ⟨j', hj', htook⟩ := hm
  obtain rfl : j' = j := Option.some.inj (hj'.symm.trans hj)
  by_contra hle
  -- otherwise the operation would hold the very slot in which something else was found
  have hholds := ha.holds hs.accords (htook d hrole) (heff.pending_of_pending hv) hw (by omega)
  rw [hwk] at hholds
  exact hs.accords.not_holds_of_gone (hf.opened hrole) hc hnot hholds

theorem Nested.access (h : Nested L s.memory th.strand.stack) (hs : s.Sound client L)
    (ha : s.Ascends L) (ht : s.threads[t]? = some th) (hf : th.strand.stack = f :: below)
    (hd : Deed s.memory th.strand.fresh f e m' move) :
    Nested (L.after e) m' (move.next.frames ++ below) := by
  have hth := hs.threads t th ht
  have hsound := hth.sound_top hf
  have heff := hd.effect hs.accords hsound
  have hg := heff.grows hs.accords hth.fresh_unused
  obtain ⟨c, -, -, hserved⟩ := hth.serving (by simp [hf])
  rw [hf] at h hserved
  have hbelow : Nested (L.after e) m' below :=
    ⟨(h.mono hg).meets.tail, (h.mono hg).rises.tail⟩
  -- a frame above others does not do its own call's work, so it goes on with what it did
  have honward (hb : below ≠ []) : move.next.Onward fun g => g.role = f.role :=
    hd.onward_role ((Call.servedBy_cons hb).1 hserved).1
  have hmeets {g : Frame α} (hg' : below ≠ [] → g.role = f.role) :
      (g :: below).IsChain (L.after e).Meets := by
    refine List.isChain_cons.2 ⟨fun x hx => ?_, hbelow.meets⟩
    have hx' := (List.isChain_cons.1 (h.mono hg).meets).1 x hx
    exact hx'.of_role (hg' (by rintro rfl; simp at hx))
  cases hn : move.next with
  | done r => exact hbelow
  | goto g =>
    rw [hn] at honward
    exact ⟨hmeets honward, (h.mono hg).rises⟩
  | call g after =>
    rw [hn] at honward
    have hrole (hb : below ≠ []) : after.role = f.role := (honward hb).2
    obtain ⟨k, c', hk, -, htook, -⟩ := hd.met hs.accords hsound hn
    refine ⟨List.isChain_cons_cons.2 ⟨⟨k, hk, fun d hr => ?_⟩, hmeets hrole⟩, ?_⟩
    · exact (htook d hr).mono hg.within
    · refine List.isChain_cons.2 ⟨fun x hx => ?_, (h.mono hg).rises⟩
      exact hd.rises hs ha hsound heff hn (hrole (by rintro rfl; simp at hx))
        ((List.isChain_cons.1 h.meets).1 x hx)

end

variable {client : Client σ α} {values : Array α} {states : List σ} {r : Run σ α} {L : Ledger α}

theorem Course.nested (h : Course client values states r L) {t : Nat} {th : Thread σ α}
    (ht : r.system.threads[t]? = some th) : Nested L r.system.memory th.strand.stack := by
  induction h generalizing t th with
  | new =>
    obtain ⟨state, -, rfl⟩ := System.thread_of_new ht
    exact ⟨.nil, .nil⟩
  | @start r L t₀ th₀ c move h hs ht₀ hi hc ho ih =>
    rcases Thread.of_getElem?_set ht₀ ht with ⟨rfl, rfl⟩ | ⟨-, ht⟩
    · have hstack : (th₀.onward client [] move.next).strand.stack = move.next.frames :=
        List.append_nil _
      rw [hstack]
      generalize move.next = next at ho
      cases ho <;> exact ⟨by simp [Next.frames], by simp [Next.frames]⟩
    · exact (ih ht).mono (ho.grows (hs.threads t₀ th₀ ht₀).fresh_unused)
  | @access r L t₀ th₀ c f below m' e move h hs ht₀ hf hc hd ih =>
    rcases Thread.of_getElem?_set ht₀ ht with ⟨rfl, rfl⟩ | ⟨-, ht⟩
    · exact (ih ht₀).access hs h.ascends ht₀ hf hd
    · have hth := hs.threads t₀ th₀ ht₀
      have heff := hd.effect hs.accords (hth.sound_top hf)
      exact (ih ht).mono (heff.grows hs.accords hth.fresh_unused)

section

variable {m : Memory α}

theorem Frame.Sound.awaits_pos {f : Frame α} {owner : Nat} (hf : f.Sound L m owner)
    (hm : m.Accords L) {d : Descriptor α} (hd : f.role = .driving d) {k : Nat}
    (hk : f.awaits = some k) : 0 < k ∧ k < m.size := by
  cases f with
  | check d' word rest =>
    cases hk
    have hformed := hm.formed.descriptor_of_opened (Frame.Sound.opened hf rfl)
    have hlt := hformed.first_lt hf.mem
    exact ⟨by omega, hformed.inBounds _ (Descriptor.mem_of_others hf.mem)⟩
  | _ => simp [awaits, role] at hk hd

omit [BEq α] in
/-- Waiting drivers of pending operations are not more than the slots up to the highest of theirs. -/
theorem length_le_of_rises {f : Frame α} {below : List (Frame α)} (hr : (f :: below).IsChain m.Rises)
    (hp : ∀ g ∈ f :: below, g.pursues m = true) (ha : ∀ g ∈ f :: below, ∃ k, g.awaits = some k ∧ 0 < k)
    {k : Nat} (hk : f.awaits = some k) : (f :: below).length ≤ k := by
  induction below generalizing f k with
  | nil =>
    obtain ⟨k', hk', hpos⟩ := ha f List.mem_cons_self
    obtain rfl : k' = k := Option.some.inj (hk'.symm.trans hk)
    exact hpos
  | cons g below ih =>
    obtain ⟨hfg, hr⟩ := List.isChain_cons_cons.1 hr
    obtain ⟨j, hj, -⟩ := ha g (by simp)
    have hle := ih hr (fun x hx => hp x (List.mem_cons_of_mem _ hx))
      (fun x hx => ha x (List.mem_cons_of_mem _ hx)) hj
    obtain ⟨d, hd, hv⟩ := Frame.pursues_iff.1 (hp f List.mem_cons_self)
    have hlt := hfg d j k hd hv hj hk
    rw [List.length_cons]
    omega

end

/-- In every run, a row of nested drivers whose operations are all pending is no longer than the
array. -/
theorem Run.pending_nesting_le (client : Client σ α) (values : Array α) (states : List σ)
    (ts : List Nat) (t : Nat) (th : Thread σ α) (row : List (Frame α)) :
    let r := (Run.new (.ofValues values) states).steps client ts
    r.system.threads[t]? = some th → row <:+: th.strand.stack →
      (∀ f ∈ row, f.pursues r.system.memory = true) → row.length ≤ values.size := by
  intro r ht hrow hp
  obtain ⟨L, h⟩ : ∃ L, Course client values states r L := exists_course client values states ts
  have hacc := h.sound.accords
  have hsize : r.system.memory.size = values.size := h.size_eq
  obtain ⟨pre, post, hstack⟩ := hrow
  have hsound {f : Frame α} (hf : f ∈ row) : f.Sound L r.system.memory (t + 1) :=
    (h.sound.threads t th ht).frames f (by simp [← hstack, hf])
  cases row with
  | nil => exact Nat.zero_le _
  | cons g rest =>
    have hnested := (h.nested ht).of_row ⟨pre, post, hstack⟩
    cases rest with
    | nil =>
      obtain ⟨d, hd, -⟩ := Frame.pursues_iff.1 (hp g List.mem_cons_self)
      have hopened := (hsound List.mem_cons_self).opened hd
      have hformed := hacc.formed.descriptor_of_opened hopened
      have := hformed.inBounds _ d.first_mem
      rw [List.length_singleton]
      omega
    | cons f below =>
      have hwaits {x : Frame α} (hx : x ∈ f :: below) :
          ∃ k, x.awaits = some k ∧ 0 < k ∧ k < r.system.memory.size := by
        obtain ⟨k, hk⟩ := hnested.awaits hx
        obtain ⟨d, hd, -⟩ := Frame.pursues_iff.1 (hp x (List.mem_cons_of_mem _ hx))
        exact ⟨k, hk, (hsound (List.mem_cons_of_mem _ hx)).awaits_pos hacc hd hk⟩
      obtain ⟨k, hk, -, hlt⟩ := hwaits List.mem_cons_self
      have hle := length_le_of_rises hnested.rises (fun x hx => hp x (List.mem_cons_of_mem _ hx))
        (fun x hx => (hwaits hx).imp fun _ hk => ⟨hk.1, hk.2.1⟩) hk
      rw [List.length_cons]
      omega

/-- A reader that meets an operation, and another one in its second slot, drives both. -/
theorem Run.pending_nesting_le_two :
    let r := (Run.new (.ofValues #[0, 0, 0]) [[.get 0], [.dcas 0 0 1 1 0 1],
      [.dcas 1 0 2 2 0 2]]).steps .script
        (List.replicate 3 1 ++ List.replicate 3 2 ++ List.replicate 5 0)
    ∃ th row, r.system.threads[0]? = some th ∧ row <:+: th.strand.stack ∧
      (∀ f ∈ row, f.pursues r.system.memory = true) ∧ row.length = 2 ∧ row.length ≤ 3 := by
  intro r
  have htwo : (r.system.threads[0]?.any fun th => (th.strand.stack.take 2).length = 2 ∧
      (th.strand.stack.take 2).all (·.pursues r.system.memory)) = true := by decide +kernel
  have h (th : Thread (List (Call Nat)) Nat) (row : List (Frame Nat)) :=
    Run.pending_nesting_le .script #[0, 0, 0]
      [[.get 0], [.dcas 0 0 1 1 0 1], [.dcas 1 0 2 2 0 2]]
      (List.replicate 3 1 ++ List.replicate 3 2 ++ List.replicate 5 0) 0 th row
  change ∀ th row, r.system.threads[0]? = some th → row <:+: th.strand.stack →
    (∀ f ∈ row, f.pursues r.system.memory = true) → row.length ≤ 3 at h
  clear_value r
  obtain ⟨th, ht, hlen, hall⟩ : ∃ th, r.system.threads[0]? = some th ∧
      (th.strand.stack.take 2).length = 2 ∧
        (th.strand.stack.take 2).all (·.pursues r.system.memory) = true := by
    simpa [Option.any_eq_true] using htwo
  have hrow : th.strand.stack.take 2 <:+: th.strand.stack := (List.take_prefix 2 _).isInfix
  have hpursue := List.all_eq_true.1 hall
  exact ⟨th, _, ht, hrow, hpursue, hlen, h th _ ht hrow hpursue⟩

/-- On two slots a reader drives three operations at once, one above the other. Another thread ends
each of them and begins the next one between the reader's look at the verdict and its look at the
slot. -/
theorem Run.nesting_exceeds_size :
    ¬ ∀ (values : Array Nat) (scripts : List (List (Call Nat))) (ts : List Nat),
      let r := (Run.new (.ofValues values) scripts).steps .script ts
      ∀ th ∈ r.system.threads, th.strand.nesting ≤ values.size := by
  intro h
  have hall := h #[0, 0] [[.get 0], [.dcas 0 0 1 1 0 1, .dcas 0 1 2 1 1 2, .dcas 0 2 3 1 2 3]]
    (0 :: List.replicate 12 1 ++ List.replicate 3 0 ++ List.replicate 19 1 ++
      List.replicate 3 0 ++ List.replicate 19 1 ++ List.replicate 2 0)
  revert hall
  decide +kernel

end MultiSwap
