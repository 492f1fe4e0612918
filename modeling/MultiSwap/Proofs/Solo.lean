import MultiSwap.Alone
import MultiSwap.Proofs.Deed

/-! A strand that has the memory to itself. Its run is described by what is to hold when its call is
answered: a proof goes from access to access, and what it shows of the end bounds their number, so
the call is answered within the steps that it is given. -/

namespace MultiSwap

variable {α : Type} [BEq α]

/-- What is to hold of the clock, the memory and the answer when a call is answered. -/
abbrev Goal (α : Type) := Nat → Memory α → Result α → Prop

/-- If strand `owner` runs on alone with these frames, its call is answered, and then `Q` holds. -/
inductive Solo (owner : Nat) (Q : Goal α) : Nat → Memory α → List (Frame α) → Prop where
  | last {n : Nat} {m m' : Memory α} {f : Frame α} {e : Event α} {move : Move α} {r : Result α}
      (hd : Deed m ⟨owner, n⟩ f e m' move) (hr : move.next = .done r) (hq : Q (n + 1) m' r) :
    Solo owner Q n m [f]
  | next {n : Nat} {m m' : Memory α} {f : Frame α} {below : List (Frame α)} {e : Event α}
      {move : Move α} (hd : Deed m ⟨owner, n⟩ f e m' move) (hn : move.next.frames ++ below ≠ [])
      (h : Solo owner Q (n + 1) m' (move.next.frames ++ below)) : Solo owner Q n m (f :: below)

def Next.Solo (owner : Nat) (Q : Goal α) (n : Nat) (m : Memory α) : Next α → Prop
  | .goto f => MultiSwap.Solo owner Q n m [f]
  | .call g after => MultiSwap.Solo owner Q n m [g, after]
  | .done r => Q n m r

namespace Solo

variable {owner n : Nat} {Q : Goal α} {m m' : Memory α} {f g : Frame α} {below : List (Frame α)}
  {e : Event α} {move : Move α}

theorem of_next (hd : Deed m ⟨owner, n⟩ f e m' move) (h : move.next.Solo owner Q (n + 1) m') :
    Solo owner Q n m [f] := by
  obtain ⟨notes, next⟩ := move
  cases next with
  | goto g => exact .next hd (List.cons_ne_nil _ _) h
  | call g after => exact .next hd (List.cons_ne_nil _ _) h
  | done r => exact .last hd rfl h

theorem goto {notes : List Note} (hd : Deed m ⟨owner, n⟩ f e m' ⟨notes, .goto g⟩)
    (h : Solo owner Q (n + 1) m' (g :: below)) : Solo owner Q n m (f :: below) :=
  .next hd (List.cons_ne_nil _ _) h

theorem exists_end (h : Solo owner Q n m (f :: below)) : ∃ n' m' r, n < n' ∧ Q n' m' r := by
  generalize hs : f :: below = stack at h
  induction h generalizing f below with
  | last hd hr hq => exact ⟨_, _, _, Nat.lt_succ_self _, hq⟩
  | next hd hn h ih =>
    obtain ⟨g, rest, hg⟩ := List.exists_cons_of_ne_nil hn
    obtain ⟨n', m', r, hlt, hq⟩ := ih hg.symm
    exact ⟨n', m', r, by omega, hq⟩

end Solo

namespace Strand

theorem step_of_deed {s : Strand α} {m m' : Memory α} {f : Frame α} {below : List (Frame α)}
    {e : Event α} {move : Move α} (hs : s.stack = f :: below) (hd : Deed m s.fresh f e m' move) :
    s.step m = ⟨m', s.advance (move.next.frames ++ below), e :: move.noted ++ move.closing f,
      move.next.answer below⟩ := by
  unfold step
  rw [hs]
  simp only [hd.perform, follow_eq]

end Strand

theorem Solo.resume {owner n fuel : Nat} {Q : Goal α} {m : Memory α} {f : Frame α}
    {below : List (Frame α)} (h : Solo owner Q n m (f :: below))
    (hfuel : ∀ n' m' r, Q n' m' r → n' ≤ n + fuel) (events : Array (Event α)) :
    ∃ n' m' r, Q n' m' r ∧ ∃ events',
      Report.resume fuel ⟨m, ⟨owner, n, f :: below⟩, events, none⟩ =
        ⟨m', ⟨owner, n', []⟩, events', some r⟩ := by
  induction fuel generalizing n m f below events with
  | zero =>
    obtain ⟨n', m', r, hlt, hq⟩ := h.exists_end
    have := hfuel n' m' r hq
    omega
  | succ fuel ih =>
    cases h with
    | @last _ _ m' _ e move r hd hr hq =>
      have hstep := Strand.step_of_deed (s := ⟨owner, n, [f]⟩) rfl hd
      rw [hr] at hstep
      refine ⟨n + 1, m', r, hq, events ++ (e :: move.noted ++ move.closing f), ?_⟩
      simp only [Report.resume, hstep]
      cases fuel <;> rfl
    | @next _ _ m' _ _ e move hd hn h =>
      have hstep := Strand.step_of_deed (s := ⟨owner, n, f :: below⟩) rfl hd
      rw [(Next.answer_eq_none_iff move.next below).2 hn] at hstep
      obtain ⟨g, rest, hg⟩ := List.exists_cons_of_ne_nil hn
      rw [hg] at h hstep
      simp only [Report.resume, hstep]
      exact ih h (fun n' m' r hq => by have := hfuel n' m' r hq; omega) _

theorem Report.resume_of_answer {fuel : Nat} {rep : Report α} {r : Result α}
    (h : rep.answer = some r) : rep.resume fuel = rep := by
  cases fuel <;> simp [resume, h]

/-- A call that can be made alone is answered within the steps that a caller gives it. -/
theorem Strand.perform_of_solo {s : Strand α} {m : Memory α} {c : Call α} {Q : Goal α}
    (h : (c.start s.fresh m.size).next.Solo s.owner Q (s.clock + 1) m)
    (hfuel : ∀ n' m' r, Q n' m' r → n' ≤ s.clock + 1 + patience m.size 0) :
    ∃ n' m' r, Q n' m' r ∧ ∃ events,
      s.perform m c = ⟨m', ⟨s.owner, n', []⟩, events, some r⟩ := by
  unfold perform start
  rw [follow_eq]
  generalize (c.start s.fresh m.size) = move at h ⊢
  obtain ⟨notes, next⟩ := move
  cases next with
  | goto f => exact Solo.resume h hfuel _
  | call g after => exact Solo.resume h hfuel _
  | done r => exact ⟨s.clock + 1, m, r, h, _, Report.resume_of_answer rfl⟩

end MultiSwap
