import MultiSwap.Proofs.Ending
import Mathlib.Order.WellFounded

/-! The array is lock-free. However the steps of threads are mixed, only finitely many of them can
follow each other before some call returns. So a thread that runs alone returns, whatever the
others have left in the slots. -/

namespace MultiSwap

variable {σ α : Type} [BEq α]

/-- The run `r'` comes from `r` by a step of some thread in which something happens and no call
returns. -/
def Run.Continues (client : Client σ α) (r' r : Run σ α) : Prop :=
  ∃ t, r' = r.step client t ∧ (r.system.step client t).2 ≠ [] ∧ ¬ r.Returns client t

structure LockFree (client : Client σ α) (values : Array α) (states : List σ) : Prop where
  wellFounded : WellFounded fun r' r : {r : Run σ α // r.Reachable client values states} =>
    r'.1.Continues client r.1
  /-- Nothing goes on for ever without a call that returns. -/
  notEndless : ∀ runs : Nat → Run σ α, (runs 0).Reachable client values states →
    ¬ ∀ n, (runs (n + 1)).Continues client (runs n)
  /-- A call in progress returns if its thread runs on alone. -/
  alone : ∀ (r : Run σ α) (t : Nat), r.Reachable client values states →
    r.system.isBusy t = true → ∃ n, (r.steps client (List.replicate n t)).Returns client t

section

variable {client : Client σ α} {values : Array α} {states : List σ} {r r' : Run σ α} {t : Nat}

theorem Run.Continues.reachable (hc : r'.Continues client r)
    (h : r.Reachable client values states) : r'.Reachable client values states := by
  obtain ⟨t, rfl, -⟩ := hc
  exact h.step t

theorem Run.Continues.rank_lt (hc : r'.Continues client r)
    (h : r.Reachable client values states) :
    r'.system.rank (fun _ => 0) < r.system.rank fun _ => 0 := by
  obtain ⟨t, rfl, hne, hret⟩ := hc
  obtain ⟨L, h⟩ := h.course
  exact h.rank_step_lt hne fun hr => absurd hr hret

theorem wellFounded_continues (client : Client σ α) (values : Array α) (states : List σ) :
    WellFounded fun r' r : {r : Run σ α // r.Reachable client values states} =>
      r'.1.Continues client r.1 :=
  Subrelation.wf (fun {_ r} hc => Run.Continues.rank_lt hc r.2)
    (InvImage.wf (fun r : {r : Run σ α // r.Reachable client values states} =>
      r.1.system.rank fun _ => 0) Nat.lt_wfRel.wf)

theorem not_endless {runs : Nat → Run σ α} (h : (runs 0).Reachable client values states) :
    ¬ ∀ n, (runs (n + 1)).Continues client (runs n) := by
  intro hruns
  have hreach (n : Nat) : (runs n).Reachable client values states := by
    induction n with
    | zero => exact h
    | succ n ih => exact (hruns n).reachable ih
  have hwf := wellFounded_continues client values states
  exact (wellFounded_iff_isEmpty_descending_chain.1 hwf).false
    ⟨fun n => ⟨runs n, hreach n⟩, hruns⟩

theorem Run.Reachable.returns_alone (h : r.Reachable client values states)
    (hb : r.system.isBusy t = true) : ∃ n, (r.steps client (List.replicate n t)).Returns client t := by
  generalize hx : (⟨r, h⟩ : {r : Run σ α // r.Reachable client values states}) = x
  induction x using (wellFounded_continues client values states).induction generalizing r with
  | _ x ih =>
    subst hx
    by_cases hret : r.Returns client t
    · exact ⟨0, hret⟩
    · obtain ⟨hne, hbusy⟩ := h.busy_step hb
      have hc : (r.step client t).Continues client r := ⟨t, rfl, hne, hret⟩
      obtain ⟨n, hn⟩ := ih ⟨_, h.step t⟩ hc (h.step t) (hbusy hret) rfl
      exact ⟨n + 1, hn⟩

end

/-- For any calls of any number of threads, the array is lock-free, and after every schedule all
threads make all their calls and are answered. -/
theorem Run.lock_free (values : Array α) (scripts : List (List (Call α))) :
    LockFree .script values scripts ∧ ∀ schedule : List Nat,
      (interleave (.ofValues values) scripts schedule).system.isFinished .script = true :=
  ⟨⟨wellFounded_continues .script values scripts, fun _ => not_endless,
    fun _ _ h hb => h.returns_alone hb⟩, isFinished_interleave values scripts⟩

/-- A reader that meets the claim of a thread which has stopped finishes the exchange and returns. -/
example :
    let r := (Run.new (.ofValues #[0, 5]) [[.get 0], [.dcas 0 0 1 1 5 6]]).steps .script
      [0, 1, 1, 1]
    r.system.isBusy 0 = true ∧
      ((r.steps .script (List.replicate 17 0)).system.step .script 0).2.any
        (· matches .returned (.get 0) (.value 1)) = true := by
  decide +kernel

end MultiSwap
