import MultiSwap.Proofs.Answers
import MultiSwap.Proofs.Growth

/-! Operations take effect once. A slot is claimed for an operation at most once, whatever stale
helpers do, and all that drive it agree on what came of it. Once one of them has reported that it
takes effect, each of its words has been written by exactly one swap, and nothing is left to do. -/

namespace MultiSwap

variable {σ α : Type}

def Event.Completes (d : Descriptor α) (e : Event α) : Prop :=
  ∃ f, f.role = .driving d ∧ e = .closed f (.flag true)

def Event.Commits (d : Descriptor α) (e : Event α) : Prop :=
  ∃ now, e = .decided d.stamp .commit true now

theorem Cell.eq_claimed {c : Cell α} {d : Descriptor α} (h : c.isClaimedBy d = true) :
    ∃ d', c.content = .claimed d' ∧ d'.stamp = d.stamp := by
  rcases hc : c.content with v | g | d' <;> simp [isClaimedBy, hc] at h
  exact ⟨d', rfl, h⟩

theorem Frame.clearedNote_inj {b b' : Bool} {k k' : Nat} (h : clearedNote b k = clearedNote b' k') :
    b = b' ∧ k = k' := by
  cases b <;> cases b' <;> cases h <;> exact ⟨rfl, rfl⟩

theorem Frame.clearedNote_not_mem_clearing (d : Descriptor α) (v : Verdict) (b : Bool) (k : Nat) :
    clearedNote b k ∉ (clearing d v).notes := by
  cases v <;> cases b <;> simp [clearing, clearedNote]

/-- In a log that goes on with one access, what keeps a pair of events apart only has to be shown of
that access. -/
theorem Log.pairwise_access {R : Nat × Event α → Nat × Event α → Prop} {log trail : Log α}
    {x : Nat × Event α} (hlog : log.Pairwise R) (hquiet : ∀ y z, z.2.wins = false → R y z)
    (htrail : ∀ z ∈ trail, z.2.wins = false) (hx : ∀ y ∈ log, R y x) :
    (log ++ x :: trail).Pairwise R := by
  refine List.pairwise_append.2 ⟨hlog, List.pairwise_cons.2 ⟨?_, ?_⟩, ?_⟩
  · intro z hz
    exact hquiet x z (htrail z hz)
  · exact List.Pairwise.imp_of_mem (fun _ hz _ => hquiet _ _ (htrail _ hz))
      (List.pairwise_of_forall fun _ _ => trivial)
  · intro y hy z hz
    rcases List.mem_cons.1 hz with rfl | hz
    · exact hx y hy
    · exact hquiet y z (htrail z hz)

theorem Log.pairwise_quiet {R : Nat × Event α → Nat × Event α → Prop} {log trail : Log α}
    (hlog : log.Pairwise R) (hquiet : ∀ y z, z.2.wins = false → R y z)
    (htrail : ∀ z ∈ trail, z.2.wins = false) : (log ++ trail).Pairwise R := by
  cases trail with
  | nil => rwa [List.append_nil]
  | cons x trail =>
    refine pairwise_access hlog hquiet (fun z hz => htrail z (List.mem_cons_of_mem _ hz)) ?_
    exact fun y _ => hquiet y x (htrail x List.mem_cons_self)

section

variable {p : Event α → Bool} (hp : ∀ e, e.wins = false → p e = false)

include hp

theorem Log.countP_quiet {log trail : Log α} (h : ∀ z ∈ trail, z.2.wins = false) :
    (log ++ trail).countP (fun x => p x.2) = log.countP fun x => p x.2 := by
  have hzero : trail.countP (fun x => p x.2) = 0 := by
    rw [List.countP_eq_zero]
    intro x hx
    rw [hp x.2 (h x hx)]
    simp
  rw [List.countP_append, hzero, Nat.add_zero]

theorem Log.countP_access {log : Log α} {t : Nat} {e : Event α} {events : List (Event α)}
    (h : ∀ z ∈ ofStep t events, z.2.wins = false) :
    (log ++ ofStep t (e :: events)).countP (fun x => p x.2) =
      log.countP (fun x => p x.2) + (p e).toNat := by
  rw [ofStep, List.map_cons, ← List.singleton_append, ← List.append_assoc]
  apply (Log.countP_quiet hp h).trans
  rw [List.countP_append, List.countP_singleton]
  cases p e <;> rfl

end

variable [BEq α]

namespace Effect

variable {L : Ledger α} {m m' : Memory α} {fresh : Stamp} {e : Event α}

/-- Claims come into a slot and leave it by winning swaps only. -/
theorem balance (h : Effect L m fresh e m') (d : Descriptor α) (k : Nat) :
    (e.installs d k).toNat + (m.claims d k).toNat =
      (e.removes d k).toNat + (m'.claims d k).toNat := by
  cases h with
  | quiet he => rw [Event.installs_of_quiet he, Event.removes_of_quiet he]
  | @placed j old new hc hx =>
    by_cases he : k = j
    · subst he
      simp only [Event.installs, Event.removes, Memory.claims, hc,
        Memory.slot_place_self (Memory.lt_of_slot hc), beq_self_eq_true, Bool.true_and,
        Option.any_some]
      omega
    · have hne : (j == k) = false := beq_eq_false_iff_ne.2 (Ne.symm he)
      simp only [Event.installs, Event.removes, Memory.claims, Memory.slot_place_of_ne he, hne,
        Bool.false_and]
  | decided => simp only [Event.installs, Event.removes, Memory.claims, Memory.slots_propose]
  | ruled => simp only [Event.installs, Event.removes, Memory.claims, Memory.slots_propose]

theorem installs (h : Effect L m fresh e m') (hm : m.Accords L)
    {d : Descriptor α} {k : Nat} (he : e.installs d k = true) :
    ∃ d', d'.stamp = d.stamp ∧ (L.after e).Took d' k ∧ ¬ L.Took d' k ∧
      m.verdict d.stamp ≠ .commit := by
  cases h with
  | quiet hq =>
    rw [Event.installs_of_quiet hq] at he
    simp at he
  | @placed j old new hc hx =>
    simp only [Event.installs, Bool.and_eq_true, beq_iff_eq] at he
    obtain ⟨rfl, hnew⟩ := he
    obtain ⟨d', hd', hstamp⟩ := Cell.eq_claimed hnew
    obtain ⟨hn, hv⟩ := hx.not_took hm hc hd'
    refine ⟨d', hstamp, ⟨fresh, ?_⟩, hn, hstamp ▸ hv⟩
    rw [← hd']
    exact Ledger.record_self _ _ _
  | decided => simp [Event.installs] at he
  | ruled => simp [Event.installs] at he

theorem removes (h : Effect L m fresh e m') {d : Descriptor α} {k : Nat}
    (he : e.removes d k = true) : ∃ d', d'.stamp = d.stamp ∧ m.Holds d' k := by
  cases h with
  | quiet hq =>
    rw [Event.removes_of_quiet hq] at he
    simp at he
  | @placed j old new hc hx =>
    simp only [Event.removes, Bool.and_eq_true, beq_iff_eq] at he
    obtain ⟨rfl, hold⟩ := he
    obtain ⟨d', hd', hstamp⟩ := Cell.eq_claimed hold
    exact ⟨d', hstamp, old.stamp, by rw [hc, ← hd']⟩
  | decided => simp [Event.removes] at he
  | ruled => simp [Event.removes] at he

end Effect

theorem Deed.clears {L : Ledger α} {m m' : Memory α} {fresh : Stamp} {f : Frame α} {e : Event α}
    {move : Move α} (h : Deed m fresh f e m' move) (hm : m.Accords L)
    (hf : f.Sound L m fresh.owner) {k : Nat} {old now : Cell α} {d : Descriptor α}
    (he : e = .swapped k old true now) (hold : old.content = .claimed d) :
    ∃ w b, w ∈ d.words ∧ w.index = k ∧ now.content = .plain (w.target b) ∧
      m.verdict d.stamp = (if b then .commit else .abort) ∧
        move.notes = [Frame.clearedNote b k] := by
  cases h with
  | setWon hc hs =>
    cases he
    obtain ⟨s, u, rfl, hl⟩ := hf
    obtain rfl := (hm.cell_eq hc hl hs).2
    cases hold
  | casWon hc hs | opened hc hs =>
    cases he
    obtain ⟨-, -, s, u, rfl, hl, -⟩ := hf
    obtain rfl := (hm.cell_eq hc hl hs).2
    cases hold
  | offerWon hc hs =>
    cases he
    obtain rfl := (hm.cell_eq hc hf.2.1 hs).2
    cases hold
  | releaseWon hc hs =>
    cases he
    obtain rfl := (hm.cell_eq hc hf.1 hs).2
    cases hold
  | @clearWon d' b word rest seen c hc hs =>
    cases he
    obtain rfl := (hm.cell_eq hc hf.2 hs).2
    cases hold
    exact ⟨word, b, hf.1.mem, rfl, rfl, hf.1.2.1, rfl⟩
  | _ => cases he

/-- Only the swap that takes a claim out of a slot notes that it did, and it notes nothing else. -/
theorem Deed.clears_of_noted {L : Ledger α} {m m' : Memory α} {fresh : Stamp} {f : Frame α}
    {e : Event α} {move : Move α} (h : Deed m fresh f e m' move) (hm : m.Accords L)
    (hf : f.Sound L m fresh.owner) {b : Bool} {k : Nat}
    (hn : Frame.clearedNote b k ∈ move.notes) :
    ∃ old now d, e = .swapped k old true now ∧ old.content = .claimed d ∧
      (∃ w ∈ d.words, w.index = k ∧ now.content = .plain (w.target b)) ∧
        move.notes = [Frame.clearedNote b k] := by
  cases h with
  | @clearWon d b' word rest seen c hc hs =>
    obtain ⟨rfl, rfl⟩ := Frame.clearedNote_inj (List.mem_singleton.1 hn)
    obtain rfl := (hm.cell_eq hc hf.2 hs).2
    exact ⟨_, _, d, rfl, rfl, ⟨word, hf.1.mem, rfl, rfl⟩, rfl⟩
  | @helps f slot after c note g hw hc hg hd =>
    rcases hx : c.content with v | g' | d <;> simp only [Cell.assistance, hx] at hg
    · cases hg
    all_goals
      cases hg
      cases b <;> cases List.mem_singleton.1 hn
  | driveSettled | concludeLost => exact absurd hn (Frame.clearedNote_not_mem_clearing _ _ _ _)
  | concludeWon =>
    rcases List.mem_cons.1 hn with hn | hn
    · cases b <;> cases hn
    · exact absurd hn (Frame.clearedNote_not_mem_clearing _ _ _ _)
  | gotNext | casRefused => cases b <;> cases Move.eq_of_mem_noteIf hn
  | _ =>
    cases b <;> simp [Frame.clearedNote, Move.goto, Move.done] at hn

theorem Chronicle.took_of_installs {log : Log α} {L : Ledger α} {m : Memory α}
    (h : Chronicle log L m) {x : Nat × Event α} (hx : x ∈ log) {d : Descriptor α} {k : Nat}
    (hi : x.2.installs d k = true) : ∃ d', d'.stamp = d.stamp ∧ L.Took d' k := by
  obtain ⟨t, e⟩ := x
  cases e with
  | swapped j old won new =>
    cases won with
    | false => simp [Event.installs] at hi
    | true =>
      simp only [Event.installs, Bool.and_eq_true, beq_iff_eq] at hi
      obtain ⟨rfl, hnew⟩ := hi
      obtain ⟨d', hd', hstamp⟩ := Cell.eq_claimed hnew
      exact ⟨d', hstamp, new.stamp, hd' ▸ (h.swapped t j old new hx).2⟩
  | _ => simp [Event.installs] at hi

theorem Chronicle.installs_of_took {log : Log α} {L : Ledger α} {m : Memory α}
    (h : Chronicle log L m) {d : Descriptor α} {k : Nat} (ht : L.Took d k) :
    ∃ x ∈ log, x.2.installs d k = true := by
  obtain ⟨t, old, s, he⟩ := h.exists_swap ht
  exact ⟨_, he, by simp [Event.installs, Cell.isClaimedBy]⟩

namespace Course

variable {client : Client σ α} {values : Array α} {states : List σ} {r : Run σ α} {L : Ledger α}

/-- What no access does that finds it done already is done once at most. -/
theorem countP_le_one {p : Event α → Bool} (hp : ∀ e, e.wins = false → p e = false)
    (hnew : ∀ {r : Run σ α} {L : Ledger α} {fresh : Stamp} {e : Event α} {m' : Memory α},
      Course client values states r L → L fresh = none → Effect L r.system.memory fresh e m' →
        p e = true → ∀ x ∈ r.history, p x.2 ≠ true)
    (h : Course client values states r L) : r.history.countP (fun x => p x.2) ≤ 1 := by
  induction h with
  | new => simp [Run.history, Run.new]
  | @start r L t th c move h hs ht hi hc ho ih =>
    rw [Run.history_step, Log.countP_quiet hp (move.quiet_ofStart c t)]
    exact ih
  | @access r L t th c f below m' e move h hs ht hf hc hd ih =>
    have hth := hs.threads t th ht
    have heff := hd.effect hs.accords (hth.sound_top hf)
    rw [Run.history_step, Log.countP_access hp (move.quiet_ofSequel f c below t)]
    by_cases he : p e = true
    · have hold : r.history.countP (fun x => p x.2) = 0 :=
        List.countP_eq_zero.2 (hnew h hth.fresh_unused heff he)
      rw [hold, he]
      exact Nat.le_refl 1
    · rw [Bool.not_eq_true] at he
      rw [he]
      exact ih

theorem installed_once (h : Course client values states r L) (d : Descriptor α) (k : Nat) :
    r.history.countP (fun x => x.2.installs d k) ≤ 1 := by
  refine h.countP_le_one (fun e he => Event.installs_of_quiet he d k) ?_
  intro r L fresh e m' h hfresh heff he x hx hi
  have hs := h.sound
  obtain ⟨d', hd', ht', hn, -⟩ := heff.installs hs.accords he
  obtain ⟨d'', hd'', ht''⟩ := h.chronicle.took_of_installs hx hi
  have hacc := heff.accords hs.accords hfresh
  have heq : d'' = d' := hacc.formed.eq_of_stamp
    (hacc.formed.opened_of_took (ht''.mono (heff.within hfresh)))
    (hacc.formed.opened_of_took ht') (hd''.trans hd'.symm)
  exact hn (heq ▸ ht'')

theorem balanced (h : Course client values states r L) (d : Descriptor α) (k : Nat) :
    r.history.countP (fun x => x.2.installs d k) =
      r.history.countP (fun x => x.2.removes d k) + (r.system.memory.claims d k).toNat := by
  induction h with
  | new =>
    have hnone : (Memory.ofValues values).claims d k = false := by
      unfold Memory.claims
      cases hk : (Memory.ofValues values).slots[k]? with
      | none => rfl
      | some c =>
        obtain ⟨v, -, rfl⟩ := Memory.cell_of_ofValues hk
        rfl
    simp [Run.history, Run.new, System.new, hnone]
  | @start r L t th c move h hs ht hi hc ho ih =>
    have hquiet := move.quiet_ofStart c t
    rw [Run.history_step, Run.system_step,
      Log.countP_quiet (fun e he => Event.installs_of_quiet he d k) hquiet,
      Log.countP_quiet (fun e he => Event.removes_of_quiet he d k) hquiet]
    exact ih
  | @access r L t th c f below m' e move h hs ht hf hc hd ih =>
    have hth := hs.threads t th ht
    have hbal := (hd.effect hs.accords (hth.sound_top hf)).balance d k
    have hquiet := move.quiet_ofSequel f c below t
    rw [Run.history_step, Run.system_step,
      Log.countP_access (fun e he => Event.installs_of_quiet he d k) hquiet,
      Log.countP_access (fun e he => Event.removes_of_quiet he d k) hquiet]
    show _ + _ = _ + _ + (m'.claims d k).toNat
    omega

theorem none_late (h : Course client values states r L) (d : Descriptor α) :
    r.history.Pairwise fun x y => x.2.Commits d → ∀ k, y.2.installs d k = false := by
  have hquiet (x y : Nat × Event α) (hy : y.2.wins = false) :
      x.2.Commits d → ∀ k, y.2.installs d k = false :=
    fun _ k => Event.installs_of_quiet hy d k
  induction h with
  | new => exact List.Pairwise.nil
  | @start r L t th c move h hs ht hi hc ho ih =>
    rw [Run.history_step]
    exact Log.pairwise_quiet ih hquiet (move.quiet_ofStart c t)
  | @access r L t th c f below m' e move h hs ht hf hc hd ih =>
    have heff := hd.effect hs.accords ((hs.threads t th ht).sound_top hf)
    rw [Run.history_step]
    apply Log.pairwise_access ih hquiet (move.quiet_ofSequel f c below t)
    intro x hx hcommits k
    obtain ⟨t', _⟩ := x
    obtain ⟨now, rfl⟩ := hcommits
    rw [← Bool.not_eq_true]
    intro hi
    obtain ⟨d', -, -, -, hv⟩ := heff.installs hs.accords hi
    exact hv (h.chronicle.decided t' _ _ now hx).2

theorem closed (h : Course client values states r L) {t : Nat} {f : Frame α} {res : Result α}
    {d : Descriptor α} (hx : (t, .closed f res) ∈ r.history) (hf : f.role = .driving d) :
    ∃ b, res = .flag b ∧ r.system.memory.Clears L d b [] := by
  induction h with
  | new => simp [Run.history, Run.new] at hx
  | @start r L t₀ th c move h hs ht hi hc ho ih =>
    rw [Run.history_step] at hx
    rcases List.mem_append.1 hx with hx | hx
    · obtain ⟨b, hr, hclears⟩ := ih hx
      exact ⟨b, hr, hclears.mono (ho.grows (hs.threads t₀ th ht).fresh_unused)⟩
    · obtain ⟨e, he, hte⟩ := List.mem_map.1 hx
      cases hte
      rcases List.mem_cons.1 he with he | he
      · simp at he
      · rcases Move.mem_prelude.1 he with ⟨n, -, he⟩ | ⟨_, -, he⟩ <;> simp at he
  | @access r L t₀ th c f₀ below m' e move h hs ht hf₀ hc hd ih =>
    have hth := hs.threads t₀ th ht
    have hsound := hth.sound_top hf₀
    rw [Run.history_step] at hx
    rcases List.mem_append.1 hx with hx | hx
    · obtain ⟨b, hr, hclears⟩ := ih hx
      exact ⟨b, hr, hclears.mono ((hd.effect hs.accords hsound).grows hs.accords hth.fresh_unused)⟩
    · obtain ⟨e', he, hte⟩ := List.mem_map.1 hx
      cases hte
      rcases List.mem_cons.1 he with he | he
      · rw [← he] at hd
        exact absurd hd.isAccess (by simp [Event.isAccess])
      · rcases Move.mem_sequel.1 he with ⟨n, -, he⟩ | ⟨_, hdone, he⟩ | ⟨_, -, he⟩
        · simp at he
        · cases he
          have hnext := hd.sound_next hs.accords hsound hth.fresh_unused
          rw [hdone] at hnext
          exact hnext d hf
        · simp at he

theorem completes (h : Course client values states r L) {x : Nat × Event α} (hx : x ∈ r.history)
    {d : Descriptor α} (hd : x.2.Completes d) : r.system.memory.Clears L d true [] := by
  obtain ⟨t, e⟩ := x
  obtain ⟨f, hf, rfl⟩ := hd
  obtain ⟨b, hb, hclears⟩ := h.closed hx hf
  cases hb
  exact hclears

theorem not_holds (h : Course client values states r L) {d : Descriptor α}
    (hd : r.system.memory.Clears L d true []) (k : Nat) : ¬ r.system.memory.Holds d k := by
  intro hh
  have hacc := h.sound.accords
  obtain ⟨w, hw, rfl⟩ := hacc.formed.word_of_took (hacc.took hh)
  obtain ⟨-, -, done, he, hdone⟩ := hd
  simp only [if_true, List.append_nil] at he
  exact hdone rfl w (he ▸ hw) hh

theorem none_more (h : Course client values states r L) (d : Descriptor α) :
    r.history.Pairwise fun x y => x.2.Completes d → ∀ k, y.2.removes d k = false := by
  have hquiet (x y : Nat × Event α) (hy : y.2.wins = false) :
      x.2.Completes d → ∀ k, y.2.removes d k = false :=
    fun _ k => Event.removes_of_quiet hy d k
  induction h with
  | new => exact List.Pairwise.nil
  | @start r L t th c move h hs ht hi hc ho ih =>
    rw [Run.history_step]
    exact Log.pairwise_quiet ih hquiet (move.quiet_ofStart c t)
  | @access r L t th c f below m' e move h hs ht hf hc hd ih =>
    have heff := hd.effect hs.accords ((hs.threads t th ht).sound_top hf)
    rw [Run.history_step]
    apply Log.pairwise_access ih hquiet (move.quiet_ofSequel f c below t)
    intro x hx hcomp k
    rw [← Bool.not_eq_true]
    intro hrem
    have hclears := h.completes hx hcomp
    obtain ⟨d', hstamp, hh⟩ := heff.removes hrem
    have heq := hs.accords.formed.eq_of_stamp
      (hs.accords.formed.opened_of_took (hs.accords.took hh)) hclears.1 hstamp
    exact h.not_holds hclears k (heq ▸ hh)

/-- A claim leaves its slot for the value that its word leaves there, and the thread that takes it
out notes that at once. -/
theorem removal (h : Course client values states r L) {before after : Log α} {t k : Nat}
    {old now : Cell α} {d : Descriptor α}
    (hl : r.history = before ++ (t, .swapped k old true now) :: after)
    (hold : old.content = .claimed d) :
    ∃ w b, w ∈ d.words ∧ w.index = k ∧ now.content = .plain (w.target b) ∧
      r.system.memory.verdict d.stamp = (if b then .commit else .abort) ∧
        ∃ more, after = (t, .noted (Frame.clearedNote b k)) :: more := by
  induction h generalizing after with
  | new => simp [Run.history, Run.new] at hl
  | @start r L t₀ th c move h hs ht hi hc ho ih =>
    rw [Run.history_step] at hl
    obtain ⟨rest, hold', rfl⟩ := Log.split_quiet (move.quiet_ofStart c t₀) rfl hl
    obtain ⟨w, b, hw, hk, hnow, hv, more, rfl⟩ := ih hold'
    exact ⟨w, b, hw, hk, hnow, hv, _, rfl⟩
  | @access r L t₀ th c f below m' e move h hs ht hf hc hd ih =>
    have hth := hs.threads t₀ th ht
    have hsound := hth.sound_top hf
    rw [Run.history_step] at hl
    rcases Log.split_access (move.quiet_ofSequel f c below t₀) rfl hl with
      ⟨rest, hold', rfl⟩ | ⟨rfl, hx, rfl⟩
    · obtain ⟨w, b, hw, hk, hnow, hv, more, rfl⟩ := ih hold'
      refine ⟨w, b, hw, hk, hnow, ?_, _, rfl⟩
      rw [← hv]
      exact (hd.effect hs.accords hsound).settled_of_settled (by rw [hv]; cases b <;> simp)
    · cases hx
      obtain ⟨w, b, hw, hk, hnow, hv, hnotes⟩ := hd.clears hs.accords hsound rfl hold
      refine ⟨w, b, hw, hk, hnow, ?_, ?_⟩
      · rw [← hv]
        exact (hd.effect hs.accords hsound).settled_of_settled (by rw [hv]; cases b <;> simp)
      · rw [Move.sequel, Move.noted, hnotes]
        exact ⟨_, rfl⟩

end Course

theorem System.Sound.cleared {client : Client σ α} {s : System σ α} {L : Ledger α}
    (h : s.Sound client L) {t k : Nat} {b : Bool} {pre post : List (Event α)}
    (he : (s.step client t).2 = pre ++ .noted (Frame.clearedNote b k) :: post) :
    ∃ old now d, pre = [.swapped k old true now] ∧ old.content = .claimed d ∧
      ∃ w ∈ d.words, w.index = k ∧ now.content = .plain (w.target b) := by
  have hmem : .noted (Frame.clearedNote b k) ∈ (s.step client t).2 := by simp [he]
  cases h.origin hmem with
  | start ht hi hc hn =>
    rcases List.mem_cons.1 hn with hn | hn
    · cases hn
    · obtain ⟨i, hi | hi | hi | hi⟩ := Call.announces (Move.noted_mem_prelude.1 hn) <;>
        cases b <;> cases hi
  | @access th c f below m' e₀ move ht hf hd hm hl hn =>
    have hn : Frame.clearedNote b k ∈ move.notes := by
      rcases List.mem_cons.1 hn with rfl | hn
      · exact absurd hd.isAccess (by simp [Event.isAccess])
      · exact Move.noted_mem_sequel.1 hn
    obtain ⟨old, now, d, rfl, hold, hw, hnotes⟩ :=
      hd.clears_of_noted h.accords ((h.threads t th ht).sound_top hf) hn
    refine ⟨old, now, d, ?_, hold, hw⟩
    -- the rest of the step notes nothing
    have hrest : .noted (Frame.clearedNote b k) ∉
        (⟨[], move.next⟩ : Move α).sequel f c below :=
      fun hr => List.not_mem_nil (Move.noted_mem_sequel.1 hr)
    have hsequel : move.sequel f c below = .noted (Frame.clearedNote b k) ::
        (⟨[], move.next⟩ : Move α).sequel f c below := by
      rw [Move.sequel, Move.noted, hnotes]
      rfl
    rw [hl, hsequel] at he
    rcases pre with - | ⟨x, - | ⟨y, pre⟩⟩
    · cases he
    · cases he
      rfl
    · obtain ⟨-, he⟩ := List.cons.inj (List.cons.inj he).2
      exact absurd (he ▸ by simp) hrest

/-- What the whole log of a run, at the end of which the memory is `m`, tells of an operation. -/
structure Log.Once (log : Log α) (m : Memory α) (d : Descriptor α) : Prop where
  installed : ∀ k, log.countP (fun x => x.2.installs d k) ≤ 1
  timely : log.Pairwise fun x y => x.2.Commits d → ∀ k, y.2.installs d k = false
  agreed : ∀ t f res, (t, .closed f res) ∈ log → f.role = .driving d →
    m.verdict d.stamp ≠ .pending ∧ res = .flag (m.verdict d.stamp == .commit)
  answered : ∀ (before : Log α) t e after res, log = before ++ (t, e) :: after → e.Opens d →
    (log.answers t)[(before.answers t).length]? = some res →
      m.verdict d.stamp ≠ .pending ∧ res = .flag (m.verdict d.stamp == .commit)
  /-- Once it is done, each of its words has been written by one swap, which is noted at once. -/
  written : ∀ x ∈ log, x.2.Completes d →
    (∀ w ∈ d.words, log.countP (fun y => y.2.removes d w.index) = 1) ∧
      ∀ before t k old now after, log = before ++ (t, .swapped k old true now) :: after →
        old.isClaimedBy d = true → ∃ w ∈ d.words, w.index = k ∧ now.content = .plain w.desired ∧
          ∃ more, after = (t, .noted (.committed k)) :: more
  /-- Nothing else is noted so, of this operation or another. -/
  noted : ∀ before t b k after, log = before ++ (t, .noted (Frame.clearedNote b k)) :: after →
    ∃ pre old now d', before = pre ++ [(t, .swapped k old true now)] ∧
      old.content = .claimed d' ∧ ∃ w ∈ d'.words, w.index = k ∧ now.content = .plain (w.target b)
  cleared : ∀ x ∈ log, x.2.Completes d → ∀ k, ¬ m.Holds d k
  final : log.Pairwise fun x y => x.2.Completes d → ∀ k, y.2.removes d k = false

theorem Course.written_once {client : Client σ α} {values : Array α} {states : List σ}
    {r : Run σ α} {L : Ledger α} (h : Course client values states r L) {d : Descriptor α}
    (hd : r.system.memory.Clears L d true []) {w : Word α} (hw : w ∈ d.words) :
    r.history.countP (fun y => y.2.removes d w.index) = 1 := by
  have hacc := h.sound.accords
  have hgone : r.system.memory.claims d w.index = false := by
    unfold Memory.claims
    cases hslot : r.system.memory.slots[w.index]? with
    | none => rfl
    | some c =>
      rw [Option.any_some, ← Bool.not_eq_true, hacc.isClaimedBy_iff hd.1 hslot]
      intro hc
      exact h.not_holds hd w.index ⟨c.stamp, by rw [hslot, ← hc]⟩
  have htook : 0 < r.history.countP fun x => x.2.installs d w.index := by
    rw [List.countP_pos_iff]
    exact h.chronicle.installs_of_took (hacc.complete d hd.1 hd.2.1 w hw)
  have honce := h.installed_once d w.index
  have hbal := h.balanced d w.index
  -- one claim was put into the slot and none is there, so one was taken out
  rw [hgone, Bool.toNat_false] at hbal
  omega

theorem Run.follows_clearing (client : Client σ α) (values : Array α) (states : List σ)
    (ts : List Nat) {before after : Log α} {t k : Nat} {b : Bool}
    (hl : ((Run.new (.ofValues values) states).steps client ts).history =
      before ++ (t, .noted (Frame.clearedNote b k)) :: after) :
    ∃ pre old now d, before = pre ++ [(t, .swapped k old true now)] ∧
      old.content = .claimed d ∧
        ∃ w ∈ d.words, w.index = k ∧ now.content = .plain (w.target b) := by
  induction ts using List.reverseRecOn generalizing after with
  | nil => simp [Run.history, Run.new, steps] at hl
  | append_singleton ts u ih =>
    rw [history_steps_snoc] at hl
    -- the note was told before the last step, or in it
    rcases Log.split_append hl with ⟨rest, hold, -⟩ | ⟨pre, rfl, hnew⟩
    · exact ih hold
    · obtain ⟨L, h⟩ := exists_course client values states ts
      obtain ⟨events, events', he, rfl, hevents'⟩ := List.map_eq_append_iff.1 hnew
      obtain ⟨e, post, rfl, hte, -⟩ := List.map_eq_cons_iff.1 hevents'
      cases hte
      obtain ⟨old, now, d, rfl, hcell, hw⟩ := h.sound.cleared he
      exact ⟨_, old, now, d, rfl, hcell, hw⟩

/-- In every run, each operation takes effect once if it does, and all agree on that. -/
theorem Run.takes_effect_once (client : Client σ α) (values : Array α) (states : List σ)
    (ts : List Nat) (d : Descriptor α) :
    let r := (Run.new (.ofValues values) states).steps client ts
    Log.Once r.history r.system.memory d := by
  intro r
  obtain ⟨L, h⟩ : ∃ L, Course client values states r L := exists_course client values states ts
  have hacc := h.sound.accords
  refine ⟨h.installed_once d, h.none_late d, ?_, ?_, ?_, ?_, ?_, h.none_more d⟩
  · intro t f res hx hf
    obtain ⟨b, rfl, -, hv, -⟩ := h.closed hx hf
    rw [hv]
    cases b <;> exact ⟨by simp, rfl⟩
  · intro before t e after res hl ho hres
    rcases (h.fulfils ho hl).2 with ⟨hlen, -⟩ | ⟨hv, hans⟩
    · rw [← hlen, List.getElem?_eq_none (Nat.le_refl _)] at hres
      simp at hres
    · rw [hans] at hres
      cases hres
      exact ⟨hv, rfl⟩
  · intro x hx hcomp
    have hclears := h.completes hx hcomp
    refine ⟨fun w hw => h.written_once hclears hw, fun before t k old now after hl hold => ?_⟩
    obtain ⟨d', hd', hstamp⟩ := Cell.eq_claimed hold
    have hl' := (h.chronicle.swapped t k old now (by simp [hl])).1
    rw [hd'] at hl'
    obtain rfl : d' = d :=
      hacc.formed.eq_of_stamp (hacc.formed.opened_of_took ⟨_, hl'⟩) hclears.1 hstamp
    obtain ⟨w, b, hw, hk, hnow, hv, hmore⟩ := h.removal hl hd'
    have hb : b = true := by
      have hcommit : r.system.memory.verdict d'.stamp = .commit := hclears.2.1
      rw [hcommit] at hv
      cases b with
      | true => rfl
      | false => simp at hv
    subst hb
    exact ⟨w, hw, hk, hnow, hmore⟩
  · exact fun before t b k after hl => follows_clearing client values states ts hl
  · exact fun x hx hcomp => h.not_holds (h.completes hx hcomp)

/-- A helper and the caller both drive the operation to its end. -/
example :
    let r := (Run.new (.ofValues #[0, 1]) [[.dcas 0 0 2 1 1 3], [.get 0]]).steps .script
      (List.replicate 3 0 ++ List.replicate 19 1 ++ List.replicate 3 0)
    let d : Descriptor Nat := ⟨⟨1, 0⟩, ⟨0, 0, 2⟩, [⟨1, 1, 3⟩]⟩
    r.history.countP (fun x => x.2.installs d 1) = 1 ∧
      r.history.countP (fun x => x.2.removes d 1) = 1 ∧ r.history.answers 0 = [.flag true] := by
  decide +kernel

end MultiSwap
