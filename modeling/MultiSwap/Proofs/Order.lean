import MultiSwap.Proofs.Passing
import MultiSwap.Proofs.Point

/-! The order of the calls of a run. A call is put into the order when it has its effect, which may
be in the hands of another thread and before its answer. An exchange that fails is put in only once
its operation is given up, and then at the point at which one of its words was found not to hold. -/

namespace MultiSwap

variable {σ α : Type} [BEq α]

/-- The calls `acts`, carried out in turn, account for the run so far. -/
structure Run.Ordered (r : Run σ α) (values : List α) (acts : List (Act α)) (vs : List α) :
    Prop where
  linear : Linearizes r.history values acts vs
  logical : r.system.memory.logical = vs.map some
  early : ∀ a ∈ acts, r.history.answer? a.op = none →
    ∃ d, r.system.Attends a.op.thread d ∧ r.system.memory.verdict d.stamp ≠ .pending
  decided : ∀ t d, r.system.Attends t d → r.system.memory.verdict d.stamp ≠ .pending →
    ∃ c, ⟨r.current t, c, .flag (r.system.memory.verdict d.stamp == .commit)⟩ ∈ acts
  /-- An operation that may still be given up would have failed at some point. -/
  doubted : ∀ d, r.system.Doubts d → r.system.memory.verdict d.stamp = .pending →
    ∀ t, r.system.Attends t d → Misses r.history values acts (r.current t) d.words

/-- Why a step puts the call `a` into the order. -/
inductive Run.Places (r r' : Run σ α) (L : Ledger α) (t : Nat) (answer : Option (Result α))
    (a : Act α) : Prop where
  | answered (hop : a.op = r.current t) (ha : answer = some a.result)
      (hn : ∀ d, ¬ r.system.Attends t d)
      (hkeep : ∀ d, L.Opened d →
        r'.system.memory.verdict d.stamp = r.system.memory.verdict d.stamp) :
    Places r r' L t answer a
  | decided {t₁ : Nat} {d : Descriptor α} (hop : a.op = r.current t₁) (hatt : r.system.Attends t₁ d)
      (hv : r.system.memory.verdict d.stamp = .pending)
      (hv' : r'.system.memory.verdict d.stamp ≠ .pending)
      (hres : a.result = .flag (r'.system.memory.verdict d.stamp == .commit)) (hans : answer = none)
      (hkeep : ∀ d', L.Opened d' → d' ≠ d →
        r'.system.memory.verdict d'.stamp = r.system.memory.verdict d'.stamp) :
    Places r r' L t answer a

omit [BEq α] in
theorem System.Attends.eq {s : System σ α} {t : Nat} {d d' : Descriptor α} (h : s.Attends t d)
    (h' : s.Attends t d') : d = d' := by
  obtain ⟨th, f, ht, hf, hr⟩ := h
  obtain ⟨f', hf', hr'⟩ := h'.getLast ht
  rw [hf] at hf'
  cases hf'
  rw [hr] at hr'
  cases hr'
  rfl

section

variable {client : Client σ α} {values : Array α} {states : List σ} {r r' : Run σ α}
  {L : Ledger α} {t : Nat} {c : Call α} {answer : Option (Result α)}

theorem Course.op_eq_current (h : Course client values states r L) {o : Op} {c : Call α}
    (hc : r.history.call? o = some c) (ho : r.history.answer? o = none) :
    o = r.current o.thread := by
  have hlt := (List.getElem?_eq_some_iff.1 hc).1
  have hge := List.getElem?_eq_none_iff.1 ho
  have hlen := h.length_calls o.thread
  have hb : (r.system.isBusy o.thread).toNat ≤ 1 := Bool.toNat_le _
  have hn : o.number = (r.history.answers o.thread).length := by omega
  exact congrArg (Op.mk o.thread) hn

/-- An operation is at work for one call only. -/
theorem Course.thread_eq (h : Course client values states r L) {t t' : Nat} {d : Descriptor α}
    (hatt : r.system.Attends t d) (hatt' : r.system.Attends t' d) : t = t' := by
  obtain ⟨-, c, -, -, hown, -⟩ := h.maker hatt
  obtain ⟨-, c', -, -, hown', -⟩ := h.maker hatt'
  omega

theorem Run.Passes.not_precedes (h : r.Passes r' L t c answer) {t₁ : Nat} {o : Op} {c' : Call α}
    (ho : r.history.call? o = some c') : ¬ r'.history.Precedes (r.current t₁) o := by
  intro hp
  exact Log.not_precedes_of_open (r.open_current t₁) (hp.restrict h.history ho)

namespace Run.Places

variable {a : Act α}

omit [BEq α] in
theorem exists_current (hplace : r.Places r' L t answer a) : ∃ t₁, a.op = r.current t₁ ∧
    (∀ d, r.system.Attends t₁ d → r.system.memory.verdict d.stamp = .pending) ∧
      ∀ res, answer = some res → t = t₁ ∧ res = a.result := by
  cases hplace with
  | answered hop ha hn hkeep =>
    refine ⟨t, hop, fun d hatt => absurd hatt (hn d), fun res hres => ⟨rfl, ?_⟩⟩
    rw [ha] at hres
    exact (Option.some.inj hres).symm
  | @decided t₁ d hop hatt hv hv' hres hans hkeep =>
    refine ⟨t₁, hop, fun d' hatt' => ?_, fun res ha => ?_⟩
    · rwa [← hatt.eq hatt']
    · rw [hans] at ha
      simp at ha

theorem early (hplace : r.Places r' L t answer a) (p : r.Passes r' L t c answer)
    (hopen : r'.history.answer? a.op = none) :
    ∃ d, r'.system.Attends a.op.thread d ∧ r'.system.memory.verdict d.stamp ≠ .pending := by
  cases hplace with
  | answered hop ha hn hkeep =>
    rw [hop, p.answer?_current, ha] at hopen
    simp at hopen
  | @decided t₁ d hop hatt hv hv' hres hans hkeep =>
    rw [hop]
    rcases p.attends t₁ d hatt with ⟨hatt', -⟩ | ⟨-, -, hsome⟩
    · exact ⟨d, hatt', hv'⟩
    · rw [hans] at hsome
      simp at hsome

/-- A step settles no operation but that of the call which it puts into the order. -/
theorem settles (hplace : r.Places r' L t answer a) (h : Course client values states r L)
    (p : r.Passes r' L t c answer) {t' : Nat} {d : Descriptor α} (hatt : r'.system.Attends t' d) :
    (L.Opened d → r'.system.memory.verdict d.stamp = r.system.memory.verdict d.stamp) ∨
      a = ⟨r'.current t', a.call, .flag (r'.system.memory.verdict d.stamp == .commit)⟩ := by
  cases hplace with
  | answered hop ha hn hkeep => exact Or.inl (hkeep d)
  | @decided t₁ d₁ hop hatt₁ hv hv' hres hans hkeep =>
    by_cases he : d = d₁
    · subst he
      obtain ⟨hnone, hbefore⟩ := p.attended t' d hatt
      have hopened := (h.maker hatt₁).1
      obtain rfl := h.thread_eq hatt₁ (hbefore.resolve_right fun hnew => hnew.1 hopened)
      right
      rw [p.current_eq hnone, ← hop, ← hres]
    · exact Or.inl fun ho => hkeep d ho he

end Run.Places

namespace Run.Ordered

variable {acts pre post : List (Act α)} {vs vs' : List α} {a : Act α}

theorem early_of_passes (ho : r.Ordered values.toList acts vs)
    (h : Course client values states r L) (p : r.Passes r' L t c answer) (ha : a ∈ acts)
    (hopen : r'.history.answer? a.op = none) :
    ∃ d, r'.system.Attends a.op.thread d ∧ r'.system.memory.verdict d.stamp ≠ .pending := by
  have hbefore : r.history.answer? a.op = none := by
    by_contra hne
    obtain ⟨res, hres⟩ := Option.ne_none_iff_exists'.1 hne
    rw [Log.answer?_mono p.history hres] at hopen
    simp at hopen
  obtain ⟨d, hatt, hv⟩ := ho.early a ha hbefore
  rcases p.attends _ d hatt with ⟨hatt', -⟩ | ⟨rfl, -, hans⟩
  · exact ⟨d, hatt', by rwa [p.settled _ hv]⟩
  · have hcur := h.op_eq_current (ho.linear.invoked a ha) hbefore
    rw [hcur, p.answer?_current, hans] at hopen
    simp at hopen

theorem decided_of_passes (ho : r.Ordered values.toList acts vs)
    (p : r.Passes r' L t c answer) {t' : Nat} {d : Descriptor α} (hatt : r'.system.Attends t' d)
    (hv : r'.system.memory.verdict d.stamp ≠ .pending)
    (hkeep : L.Opened d → r'.system.memory.verdict d.stamp = r.system.memory.verdict d.stamp)
    (h : Course client values states r L) :
    ∃ c, ⟨r'.current t', c, .flag (r'.system.memory.verdict d.stamp == .commit)⟩ ∈ acts := by
  obtain ⟨hnone, hbefore⟩ := p.attended t' d hatt
  have hatt' := hbefore.resolve_right fun hnew => hv hnew.2
  rw [hkeep (h.maker hatt').1] at hv ⊢
  rw [p.current_eq hnone]
  exact ho.decided t' d hatt' hv

theorem doubted_of_passes (ho : r.Ordered values.toList acts vs)
    (h : Course client values states r L) (p : r.Passes r' L t c answer) {d : Descriptor α}
    (hd : r'.system.Doubts d) (hv : r'.system.memory.verdict d.stamp = .pending) {t' : Nat}
    (hatt : r'.system.Attends t' d) :
    Misses r'.history values.toList acts (r'.current t') d.words ∧
      ∀ t₁, ¬ r'.history.Precedes (r.current t₁) (r'.current t') := by
  obtain ⟨hopened, hcase⟩ := p.doubts d hd hv
  obtain ⟨hnone, hbefore⟩ := p.attended t' d hatt
  have hatt' := hbefore.resolve_right fun hnew => hnew.1 hopened
  have hv' : r.system.memory.verdict d.stamp = .pending := by
    by_contra hne
    exact hne ((p.settled _ hne).symm.trans hv)
  obtain ⟨-, c', hc', -⟩ := h.maker hatt'
  rw [p.current_eq hnone]
  refine ⟨Misses.extend ?_ p.history hc', fun t₁ => p.not_precedes hc'⟩
  rcases hcase with hd' | ⟨w, hw, x, u, hx, hu, hne⟩
  · exact ho.doubted d hd' hv' t' hatt'
  · have hval := Memory.value_of_plain hx hu ho.logical
    exact .now ho.linear.replays (Call.not_allHold hw hval hne)

/-- A step at which no call has its effect keeps the order. -/
theorem keep (ho : r.Ordered values.toList acts vs) (h : Course client values states r L)
    (p : r.Passes r' L t c answer) (hlog : r'.system.memory.logical = vs.map some)
    (hkeep : ∀ d, L.Opened d →
      r'.system.memory.verdict d.stamp = r.system.memory.verdict d.stamp)
    (hans : ∀ res, answer = some res → c.isAtomic = true → ∃ d, r.system.Attends t d) :
    r'.Ordered values.toList acts vs := by
  refine ⟨ho.linear.extend p.history fun o res hres => ?_, hlog, ?_, ?_, ?_⟩
  · refine (p.answer? hres).imp_right ?_
    intro hnew
    obtain ⟨rfl, ha⟩ := hnew
    refine ⟨c, p.called, fun hatomic => ?_⟩
    obtain ⟨d, hatt⟩ := hans res ha hatomic
    rcases p.attends t d hatt with ⟨-, hnone⟩ | ⟨-, hv, hflag⟩
    · rw [hnone rfl] at ha
      simp at ha
    · rw [hkeep d (h.maker hatt).1] at hv hflag
      rw [ha] at hflag
      cases hflag
      obtain ⟨c', hmem⟩ := ho.decided t d hatt hv
      have hc' := Log.call?_mono p.history (ho.linear.invoked _ hmem)
      rw [p.called] at hc'
      cases hc'
      exact hmem
  · exact fun a ha hopen => ho.early_of_passes h p ha hopen
  · exact fun t' d hatt hv => ho.decided_of_passes p hatt hv (hkeep d) h
  · exact fun d hd hv t' hatt => (ho.doubted_of_passes h p hd hv hatt).1

/-- A call is put at the end of the order, or in between if it changes nothing there. -/
theorem put (ho : r.Ordered values.toList (pre ++ post) vs) (h : Course client values states r L)
    (p : r.Passes r' L t c answer) (hplace : r.Places r' L t answer a)
    (hcall : r'.history.call? a.op = some a.call)
    (hpost : ∀ b ∈ post, ¬ r'.history.Precedes b.op a.op)
    (hr : Replays values.toList (pre ++ a :: post) vs')
    (hlog : r'.system.memory.logical = vs'.map some)
    (hrun : post = [] ∨ ∃ us, Replays values.toList pre us ∧ a.call.onList us = (us, a.result)) :
    r'.Ordered values.toList (pre ++ a :: post) vs' := by
  obtain ⟨t₁, hop, hfree, hans⟩ := hplace.exists_current
  have hmem {b : Act α} (hb : b ∈ pre ++ post) : b ∈ pre ++ a :: post := by
    rcases List.mem_append.1 hb with hb | hb
    · exact List.mem_append_left _ hb
    · exact List.mem_append_right _ (List.mem_cons_of_mem _ hb)
  have hself : a ∈ pre ++ a :: post := List.mem_append_right _ List.mem_cons_self
  have hopen : r.history.answer? a.op = none := by
    rw [hop]
    exact r.open_current t₁
  refine ⟨ho.linear.insert p.history hcall ?_ hopen hpost ?_ hr, hlog, ?_, ?_, ?_⟩
  · intro b hb he
    obtain ⟨d, hatt, hv⟩ := ho.early b hb (by rw [he, hopen])
    rw [he, hop] at hatt
    exact hv (hfree d hatt)
  · intro o res hres
    refine (p.answer? hres).imp_right ?_
    intro hnew
    obtain ⟨rfl, ha⟩ := hnew
    obtain ⟨rfl, hres⟩ := hans res ha
    exact ⟨hop.symm, hres⟩
  · intro b hb hunanswered
    rcases List.mem_cons.1 (List.perm_middle.mem_iff.1 hb) with rfl | hb
    · exact hplace.early p hunanswered
    · exact ho.early_of_passes h p hb hunanswered
  · intro t' d hatt hv
    rcases hplace.settles h p hatt with hkeep | he
    · obtain ⟨c', hc'⟩ := ho.decided_of_passes p hatt hv hkeep h
      exact ⟨c', hmem hc'⟩
    · exact ⟨a.call, he ▸ hself⟩
  · intro d hd hv t' hatt
    obtain ⟨hmiss, hnot⟩ := ho.doubted_of_passes h p hd hv hatt
    exact hmiss.insert hrun (by rw [hop]; exact hnot t₁)

end Run.Ordered

end

end MultiSwap
