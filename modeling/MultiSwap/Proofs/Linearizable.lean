import MultiSwap.Proofs.Order

/-! Every run is linearizable. Each step keeps the calls in an order in which they could as well
have been carried out one after the other, and once no call is in progress that order leaves the
values that the slots hold. -/

namespace MultiSwap

variable {σ α : Type} [BEq α]

section

variable {client : Client σ α} {values : Array α} {states : List σ} {r : Run σ α} {L : Ledger α}
  {t : Nat} {th : Thread σ α} {c : Call α} {move : Move α} {acts : List (Act α)} {vs : List α}

namespace Run.Ordered

theorem snoc {r' : Run σ α} {answer : Option (Result α)} {a : Act α} {vs' : List α}
    (ho : r.Ordered values.toList acts vs) (h : Course client values states r L)
    (p : r.Passes r' L t c answer) (hplace : r.Places r' L t answer a)
    (hcall : r'.history.call? a.op = some a.call) (hrun : a.call.onList vs = (vs', a.result))
    (hlog : r'.system.memory.logical = vs'.map some) :
    r'.Ordered values.toList (acts ++ [a]) vs' := by
  have ho' : r.Ordered values.toList (acts ++ []) vs := by rwa [List.append_nil]
  exact ho'.put h p hplace hcall (by simp) (ho.linear.replays.snoc hrun) hlog (Or.inl rfl)

/-- A call is put in at the point at which one of its words was found not to hold. -/
theorem insert_missed {r' : Run σ α} {answer : Option (Result α)} {t₁ : Nat} {c₁ : Call α}
    {ws : List (Word α)} (ho : r.Ordered values.toList acts vs)
    (h : Course client values states r L) (p : r.Passes r' L t c answer)
    (hplace : r.Places r' L t answer ⟨r.current t₁, c₁, .flag false⟩)
    (hcall : r.history.call? (r.current t₁) = some c₁)
    (hmiss : Misses r.history values.toList acts (r.current t₁) ws)
    (hrun : ∀ us : List α, us.length = vs.length → Call.allHold ws us = false →
      c₁.onList us = (us, .flag false))
    (hlog : r'.system.memory.logical = vs.map some) :
    ∃ acts', r'.Ordered values.toList acts' vs := by
  obtain ⟨pre, post, us, rfl, hpre, hws, hpost⟩ := hmiss
  obtain ⟨us', hus, hrest⟩ := replays_append.1 ho.linear.replays
  obtain rfl := hpre.eq hus
  have hlen : us.length = vs.length := by rw [hpre.length_eq, ho.linear.replays.length_eq]
  have hfails := hrun us hlen hws
  refine ⟨_, ho.put h p hplace (Log.call?_mono p.history hcall) (fun b hb hprec => ?_)
    (hpre.insert hrest hfails) hlog (Or.inr ⟨us, hpre, hfails⟩)⟩
  exact hpost b hb (hprec.restrict p.history hcall)

theorem start [PartialEquivBEq α] (ho : r.Ordered values.toList acts vs)
    (h : Course client values states r L) (ht : r.system.threads[t]? = some th)
    (hi : th.strand.stack = [])
    (hout : Outset th.strand.fresh r.system.memory.size c move.next) :
    ∃ acts', Run.Ordered (r.onward t
      (⟨r.system.memory, r.system.threads.set t (th.onward client [] move.next)⟩,
        .invoked c :: move.prelude c)) values.toList acts' vs := by
  have p := h.passes_start ht hi hout
  by_cases hdone : ∃ res, move.next = .done res ∧ c.isAtomic = true
  · obtain ⟨res, hn, hatomic⟩ := hdone
    have hans : move.next.answer [] = some res := (Next.answer_eq_some_iff _ _ _).2 ⟨hn, rfl⟩
    have hidle : ∀ d, ¬ r.system.Attends t d := by
      intro d hatt
      obtain ⟨f, hlast, -⟩ := hatt.getLast ht
      simp [hi] at hlast
    have hrun : c.onList vs = (vs, res) := by
      rw [hn, ← Memory.length_values ho.logical] at hout
      exact hout.onList_of_done hatomic
    exact ⟨_, ho.snoc (a := ⟨r.current t, c, res⟩) h p (.answered rfl hans hidle fun _ _ => rfl)
      p.called hrun ho.logical⟩
  · refine ⟨acts, ho.keep h p ho.logical (fun _ _ => rfl) fun res hres hatomic => ?_⟩
    exact absurd ⟨res, ((Next.answer_eq_some_iff _ _ _).1 hres).1, hatomic⟩ hdone

end Run.Ordered

variable {f : Frame α} {below : List (Frame α)} {m' : Memory α} {e : Event α} {vs' : List α}

/-- A call that is answered in a frame of its own has its effect then. -/
theorem Run.Ordered.finish [LawfulBEq α] (ho : r.Ordered values.toList acts vs)
    (h : Course client values states r L) (ht : r.system.threads[t]? = some th)
    (hf : th.strand.stack = f :: below) (hc : client.next th.state = some c)
    (hd : Deed r.system.memory th.strand.fresh f e m' move) (hr : f.role = .own) {res : Result α}
    (hn : move.next = .done res) (hlog : m'.logical = vs'.map some)
    (hshift : Deed.Shift r.system.memory th.strand.fresh.owner f e vs vs') :
    ∃ acts', Run.Ordered (r.onward t
      (⟨m', r.system.threads.set t (th.onward client below move.next)⟩,
        e :: move.sequel f c below)) values.toList acts' vs' := by
  have p := h.passes_access ht hf hc hd
  have hs := h.sound
  have hth := hs.threads t th ht
  have hsound := hth.sound_top hf
  obtain ⟨c', hc', hb, hserved⟩ := hth.serving (by simp [hf])
  rw [hc] at hc'
  cases hc'
  rw [hf, ← hth.owner] at hserved
  obtain ⟨rfl, hserves⟩ := hserved.bottom hr
  rw [← Memory.length_values ho.logical] at hb
  have hrun := hd.onList_of_done hs.accords hsound hr hn ho.logical hshift hserves hb
  have hkeep (d : Descriptor α) (hopened : L.Opened d) :
      m'.verdict d.stamp = r.system.memory.verdict d.stamp := by
    refine hd.verdict_eq hs.accords hsound hopened fun p hp => ?_
    rw [hp] at hr
    cases hr
  have hans : move.next.answer [] = some res := (Next.answer_eq_some_iff _ _ _).2 ⟨hn, rfl⟩
  by_cases hatomic : c.isAtomic = true
  · rw [if_pos hatomic] at hrun
    have hown : ∀ d, ¬ r.system.Attends t d := by
      intro d hatt
      obtain ⟨g, hlast, hrole⟩ := hatt.getLast ht
      rw [hf] at hlast
      obtain rfl : f = g := by simpa using hlast
      rw [hr] at hrole
      cases hrole
    exact ⟨_, ho.snoc (a := ⟨r.current t, c, res⟩) h p (.answered rfl hans hown hkeep) p.called
      hrun hlog⟩
  · rw [if_neg hatomic] at hrun
    subst hrun
    exact ⟨acts, ho.keep h p hlog hkeep fun _ _ h => absurd h hatomic⟩

theorem Course.places_conclude (h : Course client values states r L)
    (ht : r.system.threads[t]? = some th) {d : Descriptor α} {v : Verdict}
    (hf : th.strand.stack = .conclude d v :: below)
    (hd : Deed r.system.memory th.strand.fresh (.conclude d v) e m' move)
    (hv : r.system.memory.verdict d.stamp = .pending) {t₁ : Nat} (hatt : r.system.Attends t₁ d)
    (c₁ : Call α) (events : List (Event α)) :
    r.Places (r.onward t
      (⟨m', r.system.threads.set t (th.onward client below move.next)⟩, events)) L t
      (move.next.answer below) ⟨r.current t₁, c₁, .flag (v == .commit)⟩ := by
  have hs := h.sound
  have hsound := (hs.threads t th ht).sound_top hf
  obtain ⟨hsettled, hframes⟩ := hd.concluded hv
  refine .decided rfl hatt hv ?_ ?_ ?_ fun d' ho' hne => ?_
  · rw [Run.system_step, hsettled]
    exact hsound.2.1
  · rw [Run.system_step, hsettled]
  · exact (Next.answer_eq_none_iff _ _).2 (List.append_ne_nil_of_left_ne_nil hframes below)
  · refine hd.verdict_eq hs.accords hsound ho' fun p hp => ?_
    cases hp
    exact absurd rfl hne

/-- The call that made an operation has its effect when that is decided, whoever decides it. -/
theorem Run.Ordered.conclude [LawfulBEq α] (ho : r.Ordered values.toList acts vs)
    (h : Course client values states r L) (ht : r.system.threads[t]? = some th)
    {d : Descriptor α} {v : Verdict} (hf : th.strand.stack = .conclude d v :: below)
    (hc : client.next th.state = some c)
    (hd : Deed r.system.memory th.strand.fresh (.conclude d v) e m' move)
    (hv : r.system.memory.verdict d.stamp = .pending) (hlog : m'.logical = vs'.map some)
    (hshift : Deed.Shift r.system.memory th.strand.fresh.owner (.conclude d v) e vs vs') :
    ∃ acts', Run.Ordered (r.onward t
      (⟨m', r.system.threads.set t (th.onward client below move.next)⟩,
        e :: move.sequel (.conclude d v) c below)) values.toList acts' vs' := by
  have p := h.passes_access ht hf hc hd
  have hsound := (h.sound.threads t th ht).sound_top hf
  obtain ⟨t₁, hatt⟩ := h.attended (hsound.opened rfl) hv
  obtain ⟨-, c₁, hcall, hb, hmakes⟩ := h.maker hatt
  rw [← Memory.length_values ho.logical] at hb
  have hplace := h.places_conclude ht hf hd hv hatt c₁ (e :: move.sequel (.conclude d v) c below)
  cases hshift with
  | write he hr hw => cases hr
  | commit hfd hv' hh hx =>
    cases hfd
    have hrun : c₁.onList vs = (Call.writeAll d.words vs, .flag true) := by
      rw [(hmakes.onList hb).2, Call.exchangeOnList_of_holds (Call.allHold_of_forall hx)]
    exact ⟨_, ho.snoc h p hplace (Log.call?_mono p.history hcall) hrun hlog⟩
  | still he hn =>
    have hgiven : (v == .commit) = false := by
      rw [beq_eq_false_iff_ne]
      rintro rfl
      exact hn d rfl hv
    obtain rfl : v = .abort := by
      cases v with
      | pending => exact absurd rfl hsound.2.1
      | commit => simp at hgiven
      | abort => rfl
    refine ho.insert_missed h p hplace hcall
      (ho.doubted d ⟨t, th, ht, by simp [hf]⟩ hv t₁ hatt) (fun us hlen hws => ?_) hlog
    rw [← hlen] at hb
    rw [(hmakes.onList hb).2, Call.exchangeOnList_of_misses hws]

theorem Run.Ordered.access [LawfulBEq α] (ho : r.Ordered values.toList acts vs)
    (h : Course client values states r L) (ht : r.system.threads[t]? = some th)
    (hf : th.strand.stack = f :: below) (hc : client.next th.state = some c)
    (hd : Deed r.system.memory th.strand.fresh f e m' move) :
    ∃ acts' vs', Run.Ordered (r.onward t
      (⟨m', r.system.threads.set t (th.onward client below move.next)⟩,
        e :: move.sequel f c below)) values.toList acts' vs' := by
  have hs := h.sound
  have hth := hs.threads t th ht
  have hsound := hth.sound_top hf
  obtain ⟨vs', hlog, hshift⟩ := hd.shift hs.accords hsound ho.logical
  by_cases hdec : ∃ d v, f = .conclude d v ∧ r.system.memory.verdict d.stamp = .pending
  · obtain ⟨d, v, rfl, hv⟩ := hdec
    obtain ⟨acts', ho'⟩ := ho.conclude h ht hf hc hd hv hlog hshift
    exact ⟨acts', vs', ho'⟩
  by_cases hdone : f.role = .own ∧ ∃ res, move.next = .done res
  · obtain ⟨hr, res, hn⟩ := hdone
    obtain ⟨acts', ho'⟩ := ho.finish h ht hf hc hd hr hn hlog hshift
    exact ⟨acts', vs', ho'⟩
  have hsame : vs' = vs := by
    cases hshift with
    | write he hr hw =>
      refine absurd ⟨hr, hd.done_of_overwrites hs.accords hsound ?_⟩ hdone
      rw [he]
      rfl
    | commit hfd hv hh hx => exact absurd ⟨_, _, hfd, hv⟩ hdec
    | still => rfl
  subst hsame
  refine ⟨acts, vs', ho.keep h (h.passes_access ht hf hc hd) hlog ?_ fun res hres _ => ?_⟩
  · intro d hopened
    exact hd.verdict_eq hs.accords hsound hopened fun p hp hv => hdec ⟨d, p, hp, hv⟩
  · -- the frame that answers drives an operation, which its call is then at work on
    obtain ⟨hn, rfl⟩ := (Next.answer_eq_some_iff _ _ _).1 hres
    obtain ⟨c', -, -, hserved⟩ := hth.serving (by simp [hf])
    rw [hf] at hserved
    have hserves : f.Serves (t + 1) c' := hserved
    obtain ⟨d, hrole⟩ := hserves.driving fun hr => hdone ⟨hr, res, hn⟩
    exact ⟨d, th, f, ht, by simp [hf], hrole⟩

theorem Course.exists_order [LawfulBEq α] (h : Course client values states r L) :
    ∃ acts vs, r.Ordered values.toList acts vs := by
  -- on the steps of the run: each keeps the order, or puts one call into it
  induction h with
  | new =>
    have hidle {t : Nat} {th : Thread σ α}
        (ht : (System.new (.ofValues values) states).threads[t]? = some th) :
        th.strand.stack = [] := by
      obtain ⟨state, -, rfl⟩ := System.thread_of_new ht
      rfl
    refine ⟨[], values.toList, .nil _, Memory.logical_ofValues values, by simp, ?_, ?_⟩
    · intro t d hatt
      obtain ⟨th, f, ht, hlast, -⟩ := hatt
      simp [hidle ht] at hlast
    · intro d hdoubts
      obtain ⟨t, th, ht, hmem⟩ := hdoubts
      simp [hidle ht] at hmem
  | start h hs ht hi hc hout ih =>
    obtain ⟨acts, vs, ho⟩ := ih
    obtain ⟨acts', ho'⟩ := ho.start h ht hi hout
    exact ⟨acts', vs, ho'⟩
  | access h hs ht hf hc hd ih =>
    obtain ⟨acts, vs, ho⟩ := ih
    exact ho.access h ht hf hc hd

end

/-- In every run, all calls that were answered and some of those in progress can be put into an
order that keeps to real time and in which each of them, carried out at once on a plain list, gives
the answer that it got. The list that they leave is what the slots hold while no call is in
progress. -/
theorem Run.linearizable [LawfulBEq α] (client : Client σ α) (values : Array α) (states : List σ)
    (ts : List Nat) :
    let r := (Run.new (.ofValues values) states).steps client ts
    ∃ acts final, Linearizes r.history values.toList acts final ∧
      ((∀ t, r.system.isBusy t = false) →
        r.system.memory.slots.toList.map (·.content) = final.map .plain) := by
  intro r
  obtain ⟨L, h⟩ : ∃ L, Course client values states r L := exists_course client values states ts
  obtain ⟨acts, final, ho⟩ := h.exists_order
  refine ⟨acts, final, ho.linear, fun hidle => ?_⟩
  apply List.ext_getElem?
  intro k
  have hk := r.system.memory.getElem?_logical k
  rw [ho.logical] at hk
  rw [List.getElem?_map, List.getElem?_map, Array.getElem?_toList]
  rw [List.getElem?_map] at hk
  cases hc : r.system.memory.slots[k]? with
  | none =>
    rw [hc, Option.map_none, Option.map_eq_none_iff] at hk
    rw [hk, Option.map_none, Option.map_none]
  | some c =>
    obtain ⟨v, hv⟩ := h.plain_of_idle hidle hc
    have hval := Memory.value_of_plain hc hv ho.logical
    rw [hval, Option.map_some, Option.map_some, hv]

/-- A call that finds an exchange halfway finishes it and gets the new value. -/
theorem Run.linearizable_dcas :
    let r := (Run.new (.ofValues #[0, 1]) [[.dcas 0 0 2 1 1 3], [.get 0]]).steps .script
      (List.replicate 3 0 ++ List.replicate 19 1 ++ List.replicate 3 0)
    r.history.answers 1 = [.value 2] ∧ ∃ acts, Linearizes r.history [0, 1] acts [2, 3] ∧
      r.system.memory.AtRest [2, 3] := by
  obtain ⟨acts, final, h, hfinal⟩ := Run.linearizable .script #[0, 1]
    [[.dcas 0 0 2 1 1 3], [.get 0]]
    (List.replicate 3 0 ++ List.replicate 19 1 ++ List.replicate 3 0)
  have hidle : ((Run.new (.ofValues #[0, 1]) [[.dcas 0 0 2 1 1 3], [.get 0]]).steps .script
      (List.replicate 3 0 ++ List.replicate 19 1 ++ List.replicate 3 0)).system.threads.all
        (·.strand.stack.isEmpty) = true := by decide +kernel
  have hrest := hfinal (System.isBusy_eq_false fun th hth =>
    List.isEmpty_iff.1 (List.all_eq_true.1 hidle th hth))
  obtain rfl : final = [2, 3] :=
    Memory.values_unique (Memory.AtRest.logical hrest) (by decide +kernel)
  exact ⟨by decide +kernel, acts, h, hrest⟩

end MultiSwap
