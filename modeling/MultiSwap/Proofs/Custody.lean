import MultiSwap.Proofs.Upkeep

/-! Nothing is abandoned. Whatever a slot holds that is no plain value is owed to a call that is still
in progress: the one that put the operation into its first slot, or the one that offered the handoff
from which the claim came. A helper may carry a handoff on and leave, but the call that offered it
does not return before it has looked at the slot again. -/

namespace MultiSwap

variable {σ α : Type}

/-- Thread `t` has not returned since it put cell `c` into slot `k`, or since it put the handoff there
from which `c` was made. -/
inductive Log.Owes (log : Log α) (t k : Nat) : Cell α → Prop where
  | opened {before after : Log α} {old : Cell α} {s : Stamp} {d : Descriptor α}
      (hk : k = d.first.index)
      (hl : log = before ++ (t, .swapped k old true ⟨s, .claimed d⟩) :: after)
      (ha : after.answers t = []) : Owes log t k ⟨s, .claimed d⟩
  | offered {before after : Log α} {old : Cell α} {s : Stamp} {g : Handoff α}
      (hl : log = before ++ (t, .swapped k old true ⟨s, .reserved g⟩) :: after)
      (ha : after.answers t = []) : Owes log t k ⟨s, .reserved g⟩
  | handed {t' : Nat} {r s : Stamp} {g : Handoff α} (ho : Owes log t k ⟨r, .reserved g⟩)
      (he : (t', .swapped k ⟨r, .reserved g⟩ true ⟨s, .claimed g.operation⟩) ∈ log) :
    Owes log t k ⟨s, .claimed g.operation⟩

theorem Log.Owes.append {log : Log α} {t k : Nat} {c : Cell α} (h : log.Owes t k c) {more : Log α}
    (hm : more.answers t = []) : Log.Owes (log ++ more) t k c := by
  induction h with
  | @opened before after old s d hk hl ha =>
    have he : log ++ more = before ++ (t, .swapped k old true ⟨s, .claimed d⟩) :: (after ++ more) := by
      rw [hl, List.append_assoc]
      rfl
    refine .opened hk he ?_
    rw [answers_append, ha, hm, List.append_nil]
  | @offered before after old s g hl ha =>
    have he : log ++ more = before ++ (t, .swapped k old true ⟨s, .reserved g⟩) :: (after ++ more) := by
      rw [hl, List.append_assoc]
      rfl
    refine .offered he ?_
    rw [answers_append, ha, hm, List.append_nil]
  | handed ho he ih => exact .handed ih (List.mem_append_left _ he)

/-- Thread `t` will look at slot `k`, in which `c` is, before its call returns. -/
def System.Keeps (s : System σ α) (t k : Nat) (c : Cell α) : Prop :=
  match c.content with
  | .plain _ => False
  | .reserved g => c.stamp.owner = t + 1 ∧ s.Tends c.stamp g
  | .claimed d => s.Minds (t + 1) d k

theorem System.Minds.busy {s : System σ α} {t k : Nat} {d : Descriptor α}
    (h : s.Minds (t + 1) d k) : ∃ th, s.threads[t]? = some th ∧ th.strand.stack ≠ [] := by
  obtain ⟨t', th, f, ho, ht, hf, -⟩ := h
  obtain rfl : t = t' := Nat.succ.inj ho
  exact ⟨th, ht, List.ne_nil_of_mem hf⟩

theorem System.Keeps.busy {s : System σ α} {t k : Nat} {c : Cell α} (h : s.Keeps t k c) :
    ∃ th, s.threads[t]? = some th ∧ th.strand.stack ≠ [] := by
  obtain ⟨r, x⟩ := c
  cases x with
  | plain v => exact absurd h not_false
  | reserved g =>
    obtain ⟨ho, htends⟩ := h
    have hminds := htends.minds
    rw [ho] at hminds
    exact hminds.busy
  | claimed d => exact System.Minds.busy h

theorem System.Keeps.start {s : System σ α} {t₀ : Nat} {th : Thread σ α}
    (ht : s.threads[t₀]? = some th) (hi : th.strand.stack = []) (th' : Thread σ α) {t k : Nat}
    {c : Cell α} (h : s.Keeps t k c) : System.Keeps ⟨s.memory, s.threads.set t₀ th'⟩ t k c := by
  obtain ⟨r, x⟩ := c
  cases x with
  | plain v => exact absurd h not_false
  | reserved g => exact ⟨h.1, h.2.start ht hi th'⟩
  | claimed d => exact System.Minds.start h ht hi th'

theorem Log.answers_of_busy {s : System σ α} {t₀ t : Nat} {th th' : Thread σ α}
    (ht : s.threads[t₀]? = some th) {client : Client σ α} {below : List (Frame α)} {next : Next α}
    (ht' : (s.threads.set t₀ (th.onward client below next))[t]? = some th')
    (hb : th'.strand.stack ≠ []) : (if t₀ = t then (next.answer below).toList else []) = [] := by
  rcases Thread.of_getElem?_set ht ht' with ⟨rfl, rfl⟩ | ⟨he, -⟩
  · rw [if_pos rfl, (next.answer_eq_none_iff below).2 hb, Option.toList_none]
  · rw [if_neg he]

variable [BEq α]

section

variable {client : Client σ α} {s : System σ α} {L : Ledger α} {t₀ : Nat} {th : Thread σ α}
  {f : Frame α} {below : List (Frame α)} {m' : Memory α} {e : Event α} {move : Move α}

theorem System.Keeps.access (hs : s.Sound client L) (ht : s.threads[t₀]? = some th)
    (hf : th.strand.stack = f :: below) (hd : Deed s.memory th.strand.fresh f e m' move)
    {t k : Nat} {c : Cell α} (hc : s.memory.slots[k]? = some c) (hc' : m'.slots[k]? = some c)
    (h : s.Keeps t k c) :
    System.Keeps ⟨m', s.threads.set t₀ (th.onward client below move.next)⟩ t k c := by
  obtain ⟨r, x⟩ := c
  cases x with
  | plain v => exact absurd h not_false
  | reserved g =>
    obtain ⟨ho, htends⟩ := h
    have hslot := (hs.accords.formed.reserved (hs.accords.cells k _ hc)).1
    exact ⟨ho, htends.access hs ht hf hd (hslot ▸ hc')⟩
  | claimed d => exact System.Minds.access h hs ht hf hd ⟨r, hc'⟩

/-- Who keeps a cell that an access puts into a slot: its own thread, or whoever kept the handoff
that was there. -/
theorem System.Keeps.of_placed (hs : s.Sound client L) (ht : s.threads[t₀]? = some th)
    (hf : th.strand.stack = f :: below) (hd : Deed s.memory th.strand.fresh f e m' move)
    {k : Nat} {old c : Cell α} (he : e = .swapped k old true c) (hc' : m'.slots[k]? = some c)
    (hold : s.memory.slots[k]? = some old) {log : Log α}
    (hkept : (∀ v, old.content ≠ .plain v) → ∃ t, log.Owes t k old ∧ s.Keeps t k old)
    (hx : ∀ v, c.content ≠ .plain v) :
    ∃ t, (∀ trail : Log α, trail.answers t = [] →
        Log.Owes (log ++ (t₀, e) :: trail) t k c) ∧
      System.Keeps ⟨m', s.threads.set t₀ (th.onward client below move.next)⟩ t k c := by
  have hth := hs.threads t₀ th ht
  have hown : th.strand.fresh.owner = t₀ + 1 := hth.owner
  have hsound := hth.sound_top hf
  have hset := Thread.getElem?_set_self ht (th.onward client below move.next)
  subst he
  obtain ⟨r, x⟩ := c
  cases x with
  | plain v => exact absurd rfl (hx v)
  | reserved g =>
    obtain ⟨rfl, word, rest, hr, hk, hnext⟩ := hd.offers hsound rfl
    refine ⟨t₀, fun trail ha => .offered rfl ha, hown, t₀, _, .settle _ g,
      .check g.operation word rest, hown, hset, ?_, rfl, rfl, word,
      Descriptor.mem_of_others hr.mem, hk⟩
    simp [Thread.onward, Strand.advance, hnext, Next.frames]
  | claimed d =>
    rcases hd.brings hs.accords hsound rfl with ⟨hfirst, -, -, hnext⟩ | ⟨q, g, rfl, rfl, -⟩
    · refine ⟨t₀, fun trail ha => .opened hfirst rfl ha, t₀, _, .drive d, rfl, hset, ?_,
        rfl, d.first, d.first_mem, hfirst.symm⟩
      simp [Thread.onward, Strand.advance, hnext, Next.frames]
    · obtain ⟨t, howes, ho, htends⟩ := hkept (by simp)
      have hslot := (hs.accords.formed.reserved (hs.accords.cells k _ hold)).1
      have hminds := htends.minds
      rw [hslot, ho] at hminds
      refine ⟨t, fun trail ha => ?_, hminds.access hs ht hf hd ⟨r, hc'⟩⟩
      exact .handed (howes.append ha) (List.mem_append_right _ List.mem_cons_self)

end

variable {client : Client σ α} {values : Array α} {states : List σ} {r : Run σ α} {L : Ledger α}

theorem Course.owed (h : Course client values states r L) {k : Nat} {c : Cell α}
    (hc : r.system.memory.slots[k]? = some c) (hx : ∀ v, c.content ≠ .plain v) :
    ∃ t, r.history.Owes t k c ∧ r.system.Keeps t k c := by
  induction h generalizing k c with
  | new =>
    obtain ⟨v, -, rfl⟩ := Memory.cell_of_ofValues hc
    exact absurd rfl (hx v)
  | @start r L t₀ th call move h hs ht hi hcall ho ih =>
    obtain ⟨t, howes, hkeeps⟩ := ih hc hx
    have hkeeps' := hkeeps.start ht hi (th.onward client [] move.next)
    obtain ⟨th', ht', hb⟩ := hkeeps'.busy
    refine ⟨t, ?_, hkeeps'⟩
    rw [Run.history_step]
    apply howes.append
    rw [Log.answers_start]
    exact Log.answers_of_busy ht ht' hb
  | @access r L t₀ th call f below m' e move h hs ht hf hcall hd ih =>
    have heff := hd.effect hs.accords ((hs.threads t₀ th ht).sound_top hf)
    obtain ⟨t, howes, hkeeps⟩ : ∃ t, (∀ trail : Log α, trail.answers t = [] →
          Log.Owes (r.history ++ (t₀, e) :: trail) t k c) ∧
        System.Keeps ⟨m', r.system.threads.set t₀ (th.onward client below move.next)⟩ t k c := by
      rcases heff.slot_cases hc with hold | ⟨-, old, he, hold⟩
      · obtain ⟨t, howes, hkeeps⟩ := ih hold hx
        refine ⟨t, fun trail ha => howes.append ?_, hkeeps.access hs ht hf hd hold hc⟩
        rwa [Log.answers_cons hd.isAccess]
      · exact System.Keeps.of_placed hs ht hf hd he hc hold (ih hold) hx
    obtain ⟨th', ht', hb⟩ := hkeeps.busy
    refine ⟨t, ?_, hkeeps⟩
    rw [Run.history_step]
    apply howes
    rw [← Log.answers_cons hd.isAccess t₀]
    exact (Log.answers_access hd.isAccess).trans (Log.answers_of_busy ht ht' hb)

/-- Every cell that is no plain value is owed to a call in progress. -/
structure Run.Accounted (r : Run σ α) : Prop where
  owed : ∀ (k : Nat) c, r.system.memory.slots[k]? = some c → (∀ v, c.content ≠ .plain v) →
    ∃ t, r.system.isBusy t = true ∧ r.history.Owes t k c
  plain : (∀ t, r.system.isBusy t = false) → ∀ (k : Nat) c,
    r.system.memory.slots[k]? = some c → ∃ v, c.content = .plain v

/-- In every run, each slot that holds no plain value owes it to a call that is in progress, and once
no call is in progress, all slots hold plain values. -/
theorem Run.none_abandoned (client : Client σ α) (values : Array α) (states : List σ)
    (ts : List Nat) : ((Run.new (.ofValues values) states).steps client ts).Accounted := by
  obtain ⟨L, h⟩ := exists_course client values states ts
  refine ⟨fun k c hc hx => ?_, fun hidle k c hc => h.plain_of_idle hidle hc⟩
  obtain ⟨t, howes, hkeeps⟩ := h.owed hc hx
  obtain ⟨th, ht, hb⟩ := hkeeps.busy
  exact ⟨t, (System.isBusy_of_thread ht).2 hb, howes⟩

/-- A handoff that comes through after a helper has rolled its operation back and returned is owed to
the call that offered it. -/
theorem Run.none_abandoned_late :
    let r := (Run.new (.ofValues #[0, 5]) [[.dcas 0 0 1 1 0 1], [.get 0], [.set 1 0]]).steps .script
      (List.replicate 4 0 ++ List.replicate 5 1 ++ List.replicate 3 2 ++ List.replicate 7 0 ++
        List.replicate 5 1 ++ [0])
    r.history.answers 1 = [.value 0] ∧ ∃ c t, r.system.memory.slots[1]? = some c ∧
      c.isClaimedBy ⟨⟨1, 0⟩, ⟨0, 0, 1⟩, [⟨1, 0, 1⟩]⟩ = true ∧ r.system.isBusy t = true ∧
        r.history.Owes t 1 c := by
  intro r
  have hanswer : r.history.answers 1 = [.value 0] := by decide +kernel
  have hclaimed : (r.system.memory.slots[1]?.any fun c =>
      c.isClaimedBy ⟨⟨1, 0⟩, ⟨0, 0, 1⟩, [⟨1, 0, 1⟩]⟩) = true := by decide +kernel
  have h : r.Accounted := Run.none_abandoned .script #[0, 5]
    [[.dcas 0 0 1 1 0 1], [.get 0], [.set 1 0]] _
  clear_value r
  obtain ⟨c, hc, hd⟩ := (Option.any_eq_true _ _).1 hclaimed
  obtain ⟨t, hb, howes⟩ := h.owed 1 c hc fun v hv => by simp [Cell.isClaimedBy, hv] at hd
  exact ⟨hanswer, c, t, hc, hd, hb, howes⟩

end MultiSwap
