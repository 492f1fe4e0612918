import MultiSwap.Proofs.Deed
import MultiSwap.Proofs.Merging
import MultiSwap.Proofs.Stance

/-! Which call a thread is at work for. The bottom frame of its stack serves the call, and every
frame above it helps some operation or handoff that was found on the way. -/

namespace MultiSwap

variable {α : Type}

namespace Call

def exchange? : Call α → Option (List (Word α))
  | cas slot expected update => some [⟨slot, expected, update⟩]
  | mcas words => some words
  | _ => none

theorem firstBeyond_eq_none_iff {c : Call α} {n : Nat} :
    c.firstBeyond n = none ↔ ∀ k ∈ c.slots, k < n := by
  simp [firstBeyond, List.find?_eq_none]

theorem index_lt_of_inBounds {c : Call α} {n : Nat} (h : c.firstBeyond n = none) {k : Nat}
    (hk : k ∈ c.slots) : k < n :=
  firstBeyond_eq_none_iff.1 h k hk

theorem slots_of_exchange {c : Call α} {ws : List (Word α)} (hc : c.exchange? = some ws) :
    c.slots = ws.map (·.index) := by
  cases c <;> simp only [exchange?, Option.some.injEq, reduceCtorEq] at hc
  all_goals
    subst hc
    rfl

end Call

variable [BEq α]

def Call.Makes (c : Call α) (owner : Nat) (d : Descriptor α) : Prop :=
  d.stamp.owner = owner ∧ ∃ ws, c.exchange? = some ws ∧ Word.merge? ws = some d.words

/-- What a call installs, and where. -/
inductive Call.Wants (c : Call α) (owner : Nat) :
    Nat → α → Content α → Option (Descriptor α) → Prop where
  | single {ws : List (Word α)} {w : Word α} (hc : c.exchange? = some ws)
      (hm : Word.merge? ws = some [w]) :
    Wants c owner w.index w.expected (.plain w.desired) none
  | many {d : Descriptor α} (hd : c.Makes owner d) :
    Wants c owner d.first.index d.first.expected (.claimed d) (some d)

namespace Frame

/-- The frame is at work for the call itself. -/
def Serves (owner : Nat) (c : Call α) : Frame α → Prop
  | get slot => c = .get slot
  | contents announced _ _ _ => c = .contents announced
  | set slot value => c = .set slot value
  | setOver slot value _ => c = .set slot value
  | cas slot expected content onward => c.Wants owner slot expected content onward
  | casOver slot expected content onward _ => c.Wants owner slot expected content onward
  | drive d | check d _ _ | claim d _ _ | offer d _ _ _ _ | conclude d _ => c.Makes owner d
  | clear d _ _ _ | clearOver d _ _ _ _ => c.Makes owner d
  | settle _ _ | weigh _ _ | rule _ _ _ | release _ _ _ | releaseOver _ _ _ => False

theorem serves_of_driving {f : Frame α} {d : Descriptor α} (hf : f.role = .driving d)
    (owner : Nat) (c : Call α) : f.Serves owner c ↔ c.Makes owner d := by
  cases f <;> simp only [role, Role.driving.injEq, reduceCtorEq] at hf <;> subst hf <;> rfl

theorem Serves.driving {owner : Nat} {c : Call α} {f : Frame α} (hs : f.Serves owner c)
    (hr : f.role ≠ .own) : ∃ d, f.role = .driving d := by
  cases f with
  | get | contents | set | setOver | cas | casOver => exact absurd rfl hr
  | drive | check | claim | offer | conclude | clear | clearOver => exact ⟨_, rfl⟩
  | settle | weigh | rule | release | releaseOver => exact absurd hs not_false

end Frame

/-- The stack of a thread that is at work for a call. -/
def Call.ServedBy (c : Call α) (owner : Nat) : List (Frame α) → Prop
  | [] => True
  | [f] => f.Serves owner c
  | f :: g :: below => f.role ≠ .own ∧ c.ServedBy owner (g :: below)

theorem Call.servedBy_cons {c : Call α} {owner : Nat} {f : Frame α} {below : List (Frame α)}
    (hb : below ≠ []) : c.ServedBy owner (f :: below) ↔ f.role ≠ .own ∧ c.ServedBy owner below := by
  cases below with
  | nil => exact absurd rfl hb
  | cons g rest => rfl

theorem Call.ServedBy.bottom {c : Call α} {owner : Nat} {f : Frame α} {below : List (Frame α)}
    (h : c.ServedBy owner (f :: below)) (hr : f.role = .own) : below = [] ∧ f.Serves owner c := by
  cases below with
  | nil => exact ⟨rfl, h⟩
  | cons g rest => exact absurd hr h.1

theorem Call.ServedBy.getLast {c : Call α} {owner : Nat} {stack : List (Frame α)}
    (h : c.ServedBy owner stack) {f : Frame α} (hf : stack.getLast? = some f) :
    f.Serves owner c := by
  induction stack with
  | nil => simp at hf
  | cons g below ih =>
    by_cases hb : below = []
    · subst hb
      cases hf
      exact h
    · rw [List.getLast?_cons_of_ne_nil hb] at hf
      exact ih ((servedBy_cons hb).1 h).2 hf

/-- The frame that goes on satisfies `P`, and one that is put above it helps. -/
def Next.Onward (P : Frame α → Prop) : Next α → Prop
  | .goto g => P g
  | .call g after => g.role ≠ .own ∧ P after
  | .done _ => True

omit [BEq α] in
theorem onward_clearFrom {P : Frame α → Prop} {d : Descriptor α} {takesEffect : Bool}
    (h : ∀ w rest, P (.clear d takesEffect w rest)) (ws : List (Word α)) :
    (Frame.clearFrom d takesEffect ws).Onward P := by
  cases ws with
  | nil => trivial
  | cons w rest => exact h w rest

omit [BEq α] in
theorem onward_clearing {P : Frame α → Prop} {d : Descriptor α}
    (h : ∀ takesEffect w rest, P (.clear d takesEffect w rest)) (v : Verdict) :
    (Frame.clearing d v).next.Onward P := by
  cases v with
  | commit => exact onward_clearFrom (h true) d.words
  | pending => exact onward_clearFrom (h false) d.words.reverse
  | abort => exact onward_clearFrom (h false) d.words.reverse

omit [BEq α] in
theorem role_claimFrom (d : Descriptor α) (ws : List (Word α)) :
    (Frame.claimFrom d ws).role = .driving d := by
  cases ws <;> rfl

omit [BEq α] in
theorem role_assistance {c : Cell α} {note : Note} {g : Frame α}
    (h : c.assistance = some (note, g)) : g.role ≠ .own := by
  rcases hx : c.content with v | w | d <;> simp only [Cell.assistance, hx] at h
  · simp at h
  all_goals
    cases h
    simp [Frame.role]

omit [BEq α] in
theorem role_waits {f after : Frame α} {k : Nat} (h : f.waits = some (k, after)) :
    after.role = f.role := by
  cases f <;> simp only [Frame.waits, Option.some.injEq, Prod.mk.injEq, reduceCtorEq] at h
  all_goals
    obtain ⟨-, rfl⟩ := h
    rfl

theorem serves_waits {f after : Frame α} {k : Nat} (h : f.waits = some (k, after)) {owner : Nat}
    {c : Call α} (hs : f.Serves owner c) : after.Serves owner c := by
  cases f <;> simp only [Frame.waits, Option.some.injEq, Prod.mk.injEq, reduceCtorEq] at h
  all_goals
    obtain ⟨-, rfl⟩ := h
    exact hs

namespace Deed

variable {m m' : Memory α} {fresh : Stamp} {f : Frame α} {e : Event α} {move : Move α}

theorem onward_role (h : Deed m fresh f e m' move) (hf : f.role ≠ .own) :
    move.next.Onward fun g => g.role = f.role := by
  cases h with
  | helps hw hc hg hd => exact ⟨role_assistance hg, role_waits hw⟩
  | driveOpen => exact role_claimFrom _ _
  | driveSettled => exact onward_clearing (fun _ _ _ => rfl) _
  | claimHeld => exact role_claimFrom _ _
  | offerWon => exact ⟨by simp [Frame.role], rfl⟩
  | concludeWon => exact onward_clearing (fun _ _ _ => rfl) _
  | concludeLost => exact onward_clearing (fun _ _ _ => rfl) _
  | clearGone => exact onward_clearFrom (fun _ _ => rfl) _
  | clearWon => exact onward_clearFrom (fun _ _ => rfl) _
  | clearLost => exact onward_clearFrom (fun _ _ => rfl) _
  | opened => simp [Frame.role] at hf
  | _ => first | rfl | trivial

/-- A thread does not lose sight of the call it is at work for. -/
theorem onward_serves (h : Deed m fresh f e m' move) {owner : Nat} {c : Call α}
    (hs : f.Serves owner c) : move.next.Onward (Frame.Serves owner c) := by
  cases h with
  | helps hw hc hg hd => exact ⟨role_assistance hg, serves_waits hw hs⟩
  | opened hc hl =>
    cases hs with
    | many hd => exact hd
  | driveOpen => exact (Frame.serves_of_driving (role_claimFrom _ _) owner c).2 hs
  | driveSettled => exact onward_clearing (fun _ _ _ => hs) _
  | claimHeld => exact (Frame.serves_of_driving (role_claimFrom _ _) owner c).2 hs
  | offerWon => exact ⟨by simp [Frame.role], hs⟩
  | concludeWon => exact onward_clearing (fun _ _ _ => hs) _
  | concludeLost => exact onward_clearing (fun _ _ _ => hs) _
  | clearGone => exact onward_clearFrom (fun _ _ => hs) _
  | clearWon => exact onward_clearFrom (fun _ _ => hs) _
  | clearLost => exact onward_clearFrom (fun _ _ => hs) _
  | _ => first | exact hs | trivial

theorem servedBy (h : Deed m fresh f e m' move) {owner : Nat} {c : Call α}
    {below : List (Frame α)} (hs : c.ServedBy owner (f :: below)) :
    c.ServedBy owner (move.next.frames ++ below) := by
  by_cases hb : below = []
  · subst hb
    have ho : move.next.Onward (Frame.Serves owner c) := h.onward_serves hs
    cases hn : move.next with
    | goto g =>
      rw [hn] at ho
      exact ho
    | call g after =>
      rw [hn] at ho
      exact ho
    | done r => trivial
  · obtain ⟨hr, hbelow⟩ := (Call.servedBy_cons hb).1 hs
    have ho := h.onward_role hr
    cases hn : move.next with
    | goto g =>
      rw [hn] at ho
      refine (Call.servedBy_cons hb).2 ⟨?_, hbelow⟩
      rw [show g.role = f.role from ho]
      exact hr
    | call g after =>
      rw [hn] at ho
      refine ⟨ho.1, (Call.servedBy_cons hb).2 ⟨?_, hbelow⟩⟩
      rw [ho.2]
      exact hr
    | done r => exact hbelow

theorem not_opens (h : Deed m fresh f e m' move) (hf : f.role ≠ .own) {L : Ledger α}
    (hm : m.Accords L) (hs : f.Sound L m fresh.owner) {d : Descriptor α}
    (ho : (L.after e).Opened d) : L.Opened d := by
  cases h with
  | setWon => simp [Frame.role] at hf
  | casWon => simp [Frame.role] at hf
  | opened => simp [Frame.role] at hf
  | offerWon hc hl =>
    rcases Ledger.took_record ho with ho | he
    · exact ho
    · simp at he
  | clearWon hc hl =>
    rcases Ledger.took_record ho with ho | he
    · exact ho
    · simp at he
  | @releaseWon r g v c hc hl =>
    rcases Ledger.took_record ho with ho | he
    · exact ho
    · cases v with
      | commit =>
        cases (Entry.cell.inj he).2
        exact (hm.formed.reserved hs.1).2.1
      | pending => simp [Frame.released] at he
      | abort => simp [Frame.released] at he
  | _ => exact ho

end Deed

end MultiSwap
