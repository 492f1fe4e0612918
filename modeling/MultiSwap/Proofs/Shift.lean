import MultiSwap.Proofs.Course

/-! What the values of the slots are, through all that threads do for each other. A slot stands for
another value only once a plain value is swapped for another, or at the one access that decides an
operation to take effect, which changes all slots of its words together. -/

namespace MultiSwap

variable {σ α : Type}

namespace Memory

theorem getElem?_logical (m : Memory α) (k : Nat) :
    m.logical[k]? = m.slots[k]?.map (m.logicalValue k) := by
  simp [logical, List.getElem?_mapIdx]

theorem length_values {m : Memory α} {vs : List α} (h : m.logical = vs.map some) :
    vs.length = m.size := by
  rw [← length_logical, h, List.length_map]

theorem values_unique {m : Memory α} {vs vs' : List α} (h : m.logical = vs.map some)
    (h' : m.logical = vs'.map some) : vs = vs' :=
  List.map_injective_iff.2 (fun _ _ => Option.some.inj) (h.symm.trans h')

theorem logicalValue_of_verdict {m m' : Memory α} {k : Nat} {c : Cell α}
    (h : ∀ d, c.content = .claimed d → m'.verdict d.stamp = m.verdict d.stamp) :
    m'.logicalValue k c = m.logicalValue k c := by
  rcases hc : c.content with v | g | d
  · simp only [logicalValue, hc]
  · simp only [logicalValue, hc]
  · simp only [logicalValue, hc, h d hc]

theorem logical_place {m : Memory α} {k : Nat} (c : Cell α) :
    (m.place k c).logical = m.logical.set k (m.logicalValue k c) := by
  apply List.ext_getElem?
  intro j
  rw [getElem?_logical, List.getElem?_set, length_logical]
  by_cases he : k = j
  · subst he
    by_cases hk : k < m.size
    · rw [slot_place_self hk, if_pos rfl, if_pos hk]
      rfl
    · rw [if_pos rfl, if_neg hk, Array.getElem?_eq_none (by rw [← size, size_place]; omega)]
      rfl
  · rw [if_neg he, slot_place_of_ne (Ne.symm he), getElem?_logical]
    rfl

theorem logical_place_same {m : Memory α} {k : Nat} {old c : Cell α} (hc : m.slots[k]? = some old)
    (h : m.logicalValue k c = m.logicalValue k old) : (m.place k c).logical = m.logical := by
  rw [logical_place, h]
  apply List.ext_getElem?
  intro j
  rw [List.getElem?_set, length_logical]
  by_cases he : k = j
  · subst he
    rw [if_pos rfl, if_pos (lt_of_slot hc), getElem?_logical, hc]
    rfl
  · rw [if_neg he]

theorem logical_propose_same {m : Memory α} {s : Stamp} {p : Verdict}
    (h : ∀ (k : Nat) c, m.slots[k]? = some c →
      (m.propose s p).logicalValue k c = m.logicalValue k c) :
    (m.propose s p).logical = m.logical := by
  apply List.ext_getElem?
  intro k
  rw [getElem?_logical, getElem?_logical, slots_propose]
  cases hc : m.slots[k]? with
  | none => rw [Option.map_none, Option.map_none]
  | some c => rw [Option.map_some, Option.map_some, h k c hc]

theorem valueUnder_eq {n : Nat} {d : Descriptor α} (hd : d.Formed n) {w : Word α}
    (hw : w ∈ d.words) (v : Verdict) :
    d.valueUnder v w.index = some (w.target (v == .commit)) := by
  rw [Descriptor.valueUnder, hd.wordAt_eq hw]
  rfl

theorem logical_abort {m : Memory α} {d : Descriptor α} (hv : m.verdict d.stamp = .pending) :
    (m.propose d.stamp .abort).logical = m.logical := by
  refine logical_propose_same fun k c hc => ?_
  rcases hx : c.content with u | g | d'
  · simp only [logicalValue, hx]
  · simp only [logicalValue, hx]
  · simp only [logicalValue, hx]
    by_cases he : d'.stamp = d.stamp
    · rw [he, verdict_propose_self hv, hv]
      rfl
    · rw [verdict_propose_of_ne he]

end Memory

variable [BEq α] {L : Ledger α} {m : Memory α}

namespace Memory.Accords

variable {d : Descriptor α} {w : Word α}

theorem getElem?_logical_of_holds (hm : m.Accords L) (hw : w ∈ d.words)
    (hh : m.Holds d w.index) :
    m.logical[w.index]? = some (some (w.target (m.verdict d.stamp == .commit))) := by
  have hd := hm.formed.descriptor (hm.formed.known_of_took (hm.took hh))
  obtain ⟨s, hs⟩ := hh
  rw [getElem?_logical, hs]
  exact congrArg some (valueUnder_eq hd hw _)

/-- An operation that takes effect writes its desired values, over the expected ones. -/
theorem logical_commit (hm : m.Accords L) (ho : L.Opened d) (hv : m.verdict d.stamp = .pending)
    (hall : ∀ w ∈ d.words, L.Took d w.index) {vs : List α} (hvs : m.logical = vs.map some) :
    (∀ w ∈ d.words, vs[w.index]? = some w.expected) ∧
      (m.propose d.stamp .commit).logical = (Call.writeAll d.words vs).map some := by
  have hd := hm.formed.descriptor_of_opened ho
  have hslot (w : Word α) (hw : w ∈ d.words) : m.Holds d w.index := hm.holds (hall w hw) hv
  have hvalue (k : Nat) : vs[k]?.map some = m.slots[k]?.map (m.logicalValue k) := by
    rw [← getElem?_logical, hvs, List.getElem?_map]
  constructor
  · intro w hw
    have hl := hm.getElem?_logical_of_holds hw (hslot w hw)
    rw [hv, getElem?_logical, ← hvalue, show (Verdict.pending == .commit) = false from rfl] at hl
    simpa using hl
  · apply List.ext_getElem?
    intro k
    rw [getElem?_logical, slots_propose, List.getElem?_map]
    by_cases hk : ∃ w ∈ d.words, w.index = k
    · obtain ⟨w, hw, rfl⟩ := hk
      obtain ⟨s, hs⟩ := hslot w hw
      rw [hs, Call.getElem?_writeAll hd.ascending hw (length_values hvs ▸ hd.inBounds w hw)]
      simp only [Option.map_some, logicalValue, verdict_propose_self hv]
      rw [valueUnder_eq hd hw]
      rfl
    · rw [Call.getElem?_writeAll_of_ne (fun w hw he => hk ⟨w, hw, he⟩), hvalue]
      cases hc : m.slots[k]? with
      | none => rw [Option.map_none, Option.map_none]
      | some c =>
        rw [Option.map_some, Option.map_some, logicalValue_of_verdict]
        intro d' hx
        have ht : L.Took d' k := ⟨c.stamp, hx ▸ hm.cells k c hc⟩
        refine verdict_propose_of_ne (fun he => hk ?_) _
        rw [← hm.formed.eq_of_stamp (hm.formed.opened_of_took ht) ho he]
        exact hm.formed.word_of_took ht

theorem logical_rule (hm : m.Accords L) {r : Stamp} {g : Handoff α}
    (hr : L r = some (.cell g.slot (.reserved g))) (p : Verdict) :
    (m.propose r p).logical = m.logical := by
  refine logical_propose_same fun k c hc => logicalValue_of_verdict fun d hx => ?_
  have hk := hm.formed.known_of_took ⟨c.stamp, hx ▸ hm.cells k c hc⟩
  refine verdict_propose_of_ne ?_ _
  rintro rfl
  rw [hr] at hk
  simp at hk

end Memory.Accords

/-- A swap that does not write a value in the place of a value leaves what the slot stands for. -/
theorem Exchange.logicalValue_eq [LawfulBEq α] {owner k : Nat} {old : Cell α} {new : Content α}
    (h : Exchange L m owner k old new) (hm : m.Accords L) (hc : m.slots[k]? = some old)
    (s : Stamp) :
    (∃ u v, old.content = .plain u ∧ new = .plain v) ∨
      m.logicalValue k ⟨s, new⟩ = m.logicalValue k old := by
  have hl := hm.cells k old hc
  cases h with
  | write => exact Or.inl ⟨_, _, rfl, rfl⟩
  | @opening s u d hk hu hd ho hown =>
    right
    simp only [Memory.logicalValue]
    rw [hk, Memory.valueUnder_eq (hm.formed.descriptor hd) d.first_mem, hm.unopened d hd ho,
      eq_of_beq hu]
    rfl
  | offer hk ho hw hu => exact Or.inr rfl
  | @handover r g hv =>
    right
    obtain ⟨hs, ho, w, hw, rfl, hu⟩ := hm.formed.reserved hl
    have hd := hm.formed.descriptor_of_opened ho
    have hn := (hm.timely _ r g hc hv).2
    simp only [Memory.logicalValue]
    rw [Memory.valueUnder_eq hd (Descriptor.mem_of_others hw), eq_of_beq hu,
      beq_eq_false_iff_ne.2 hn]
    rfl
  | giveBack hv => exact Or.inr rfl
  | @clearing s d w takesEffect hk hw hv =>
    right
    have hd := hm.formed.descriptor (hm.formed.known_of_took ⟨s, hl⟩)
    simp only [Memory.logicalValue]
    rw [← hk, Memory.valueUnder_eq hd hw, hv]
    cases takesEffect <;> rfl

/-- The call writes `v` into slot `k` and nothing else: a write, or an exchange of one slot. -/
def Call.Writes (c : Call α) (k : Nat) (v : α) : Prop :=
  c = .set k v ∨ ∃ ws expected, c.exchange? = some ws ∧ Word.merge? ws = some [⟨k, expected, v⟩]

def Event.overwrites : Event α → Bool
  | .swapped _ ⟨_, .plain _⟩ true ⟨_, .plain _⟩ => true
  | _ => false

omit [BEq α] in
theorem Event.overwrites_of_quiet {e : Event α} (h : e.wins = false) : e.overwrites = false := by
  unfold overwrites
  split
  · simp [wins] at h
  · rfl

/-- What an access does to the values: it overwrites one, lets an operation take effect, or changes
nothing. -/
inductive Deed.Shift (m : Memory α) (owner : Nat) (f : Frame α) (e : Event α) (vs : List α) :
    List α → Prop where
  | write {k : Nat} {s r : Stamp} {u v : α} (he : e = .swapped k ⟨s, .plain u⟩ true ⟨r, .plain v⟩)
      (hr : f.role = .own) (hw : ∀ c, f.Serves owner c → c.Writes k v) :
    Shift m owner f e vs (vs.set k v)
  | commit {d : Descriptor α} (hf : f = .conclude d .commit) (hv : m.verdict d.stamp = .pending)
      (hh : ∀ w ∈ d.words, m.Holds d w.index)
      (hx : ∀ w ∈ d.words, vs[w.index]? = some w.expected) :
    Shift m owner f e vs (Call.writeAll d.words vs)
  | still (he : e.overwrites = false)
      (hn : ∀ d, f = .conclude d .commit → m.verdict d.stamp ≠ .pending) : Shift m owner f e vs vs

theorem Deed.shift [LawfulBEq α] {m' : Memory α} {fresh : Stamp} {f : Frame α} {e : Event α}
    {move : Move α} (h : Deed m fresh f e m' move) (hm : m.Accords L)
    (hf : f.Sound L m fresh.owner) {vs : List α} (hvs : m.logical = vs.map some) :
    ∃ vs', m'.logical = vs'.map some ∧ Deed.Shift m fresh.owner f e vs vs' := by
  have hsame {k : Nat} {old : Cell α} {new : Content α} (hc : m.slots[k]? = some old)
      (hx : Exchange L m fresh.owner k old new)
      (ho : ∀ u v, old.content = .plain u → new ≠ .plain v) :
      (m.place k ⟨fresh, new⟩).logical = vs.map some := by
    refine (Memory.logical_place_same hc ?_).trans hvs
    apply (hx.logicalValue_eq hm hc fresh).resolve_left
    intro hplain
    obtain ⟨u, v, hu, hv⟩ := hplain
    exact ho u v hu hv
  cases h with
  | @setWon slot value found c hc hs =>
    obtain ⟨s, u, rfl, hl⟩ := hf
    obtain rfl := (hm.cell_eq hc hl hs).2
    refine ⟨vs.set slot value, ?_, .write rfl rfl fun _ hcall => Or.inl hcall⟩
    rw [Memory.logical_place, hvs, List.map_set]
    rfl
  | @casWon slot expected content found c hc hs =>
    obtain ⟨-, hi, s, u, rfl, hl, he⟩ := hf
    obtain rfl := (hm.cell_eq hc hl hs).2
    cases hi with
    | @value slot expected v =>
      refine ⟨vs.set slot v, ?_, .write rfl rfl fun _ hcall => ?_⟩
      · rw [Memory.logical_place, hvs, List.map_set]
        rfl
      · cases hcall with
        | single hx hw => exact Or.inr ⟨_, _, hx, hw⟩
  | @concludeWon d p hv =>
    obtain ⟨ho, hp, hall⟩ := hf
    cases p with
    | pending => exact absurd rfl hp
    | commit =>
      obtain ⟨hx, hl⟩ := hm.logical_commit ho hv (hall rfl) hvs
      exact ⟨_, hl, .commit rfl hv (fun w hw => hm.holds (hall rfl w hw) hv) hx⟩
    | abort => exact ⟨vs, by rw [Memory.logical_abort hv, hvs], .still rfl (by simp)⟩
  | @concludeLost d p v hv hp =>
    refine ⟨vs, hvs, .still rfl fun d' he => ?_⟩
    cases he
    rwa [hv]
  | ruleWon hv => exact ⟨vs, by rw [hm.logical_rule hf.1, hvs], .still rfl (by simp)⟩
  | opened hc hs =>
    obtain ⟨-, hi, s, u, rfl, hl, he⟩ := hf
    cases hi with
    | claim hd ho hown =>
      obtain rfl := (hm.cell_eq hc hl hs).2
      exact ⟨vs, hsame hc (.opening rfl he hd ho hown) (by simp), .still rfl (by simp)⟩
  | offerWon hc hs =>
    obtain ⟨hr, hl, he⟩ := hf
    obtain rfl := (hm.cell_eq hc hl hs).2
    exact ⟨vs, hsame hc (.offer rfl hr.1 hr.mem he) (by simp), .still rfl (by simp)⟩
  | clearWon hc hs =>
    obtain ⟨hcl, hl⟩ := hf
    obtain rfl := (hm.cell_eq hc hl hs).2
    exact ⟨vs, hsame hc (.clearing rfl hcl.mem hcl.2.1) (by simp), .still rfl (by simp)⟩
  | @releaseWon r g v c hc hs =>
    obtain ⟨hl, hp, hv⟩ := hf
    obtain rfl := (hm.cell_eq hc hl hs).2
    cases v with
    | pending => exact absurd rfl hp
    | commit => exact ⟨vs, hsame hc (.handover hv) (by simp), .still rfl (by simp)⟩
    | abort => exact ⟨vs, hsame hc (.giveBack hv) (by simp), .still rfl (by simp)⟩
  | helps hw hc hg hd =>
    refine ⟨vs, hvs, .still rfl fun d he => ?_⟩
    rw [he] at hw
    simp [Frame.waits] at hw
  | _ => exact ⟨vs, hvs, .still (Event.overwrites_of_quiet rfl) (by simp)⟩

theorem Course.exists_values [LawfulBEq α] {client : Client σ α} {values : Array α}
    {states : List σ} {r : Run σ α} {L : Ledger α} (h : Course client values states r L) :
    ∃ vs : List α, r.system.memory.logical = vs.map some := by
  induction h with
  | new => exact ⟨values.toList, Memory.logical_ofValues values⟩
  | start h hs ht hi hc ho ih => exact ih
  | access h hs ht hf hc hd ih =>
    obtain ⟨vs, hvs⟩ := ih
    obtain ⟨vs', hvs', -⟩ := hd.shift hs.accords ((hs.threads _ _ ht).sound_top hf) hvs
    exact ⟨vs', hvs'⟩

/-- What a step of thread `t` does to the values. Whatever is no overwriting and no commit leaves
all of them as they are. -/
inductive System.Shift (client : Client σ α) (s : System σ α) (t : Nat) (events : List (Event α))
    (vs : List α) : List α → Prop where
  | write {th : Thread σ α} {c : Call α} {k : Nat} {r r' : Stamp} {u v : α}
      (ht : s.threads[t]? = some th) (hc : client.next th.state = some c) (hw : c.Writes k v)
      (he : .swapped k ⟨r, .plain u⟩ true ⟨r', .plain v⟩ ∈ events) :
    Shift client s t events vs (vs.set k v)
  | commit {d : Descriptor α} {vs' : List α} (hd : s.Decides t d .commit)
      (hh : ∀ w ∈ d.words, s.memory.Holds d w.index)
      (hx : ∀ w ∈ d.words, vs[w.index]? = some w.expected ∧ vs'[w.index]? = some w.desired)
      (hy : ∀ k, (∀ w ∈ d.words, w.index ≠ k) → vs'[k]? = vs[k]?) :
    Shift client s t events vs vs'
  | still (he : ∀ e ∈ events, e.overwrites = false) (hn : ∀ d, ¬ s.Decides t d .commit) :
    Shift client s t events vs vs

section

variable {client : Client σ α} {s : System σ α} {t : Nat} {th : Thread σ α} {c : Call α}
  {vs : List α}

omit [BEq α] in
theorem System.Decides.stack_eq {d : Descriptor α} {v : Verdict} (h : s.Decides t d v)
    (ht : s.threads[t]? = some th) : ∃ below, th.strand.stack = .conclude d v :: below := by
  obtain ⟨-, th', below, ht', hf⟩ := h
  rw [ht] at ht'
  cases ht'
  exact ⟨below, hf⟩

theorem System.shift_start (ht : s.threads[t]? = some th) (hi : th.strand.stack = [])
    (move : Move α) : s.Shift client t (.invoked c :: move.prelude c) vs vs := by
  refine .still ?_ ?_
  · intro e he
    rcases List.mem_cons.1 he with rfl | he
    · rfl
    · exact Event.overwrites_of_quiet (Move.quiet_prelude he)
  · intro d hdec
    obtain ⟨below, hf⟩ := hdec.stack_eq ht
    rw [hi] at hf
    simp at hf

theorem System.Sound.shift_access [LawfulBEq α] (hs : s.Sound client L)
    (ht : s.threads[t]? = some th) {f : Frame α} {below : List (Frame α)}
    (hf : th.strand.stack = f :: below) (hc : client.next th.state = some c) {m' : Memory α}
    {e : Event α} {move : Move α} (hd : Deed s.memory th.strand.fresh f e m' move)
    (hvs : s.memory.logical = vs.map some) :
    ∃ vs', m'.logical = vs'.map some ∧ s.Shift client t (e :: move.sequel f c below) vs vs' := by
  have hth := hs.threads t th ht
  obtain ⟨vs', hvs', hshift⟩ := hd.shift hs.accords (hth.sound_top hf) hvs
  refine ⟨vs', hvs', ?_⟩
  cases hshift with
  | write he hr hw =>
    subst he
    obtain ⟨c', hc', -, hserved⟩ := hth.serving (by simp [hf])
    rw [hc] at hc'
    cases hc'
    rw [hf, ← hth.owner] at hserved
    exact .write ht hc (hw c (hserved.bottom hr).2) List.mem_cons_self
  | @commit d hfd hv hh hx =>
    subst hfd
    have hformed := hs.accords.formed.descriptor
      (hs.accords.formed.known_of_took (hs.accords.took (hh _ d.first_mem)))
    refine .commit ⟨hv, th, below, ht, hf⟩ hh (fun w hw => ⟨hx w hw, ?_⟩) fun k hk => ?_
    · exact Call.getElem?_writeAll hformed.ascending hw
        (Memory.length_values hvs ▸ hformed.inBounds w hw)
    · exact Call.getElem?_writeAll_of_ne hk vs
  | still he hn =>
    refine .still (fun e' he' => ?_) fun d hdec => ?_
    · rcases List.mem_cons.1 he' with rfl | he'
      · exact he
      · exact Event.overwrites_of_quiet (Move.quiet_sequel he')
    · obtain ⟨below', hf'⟩ := hdec.stack_eq ht
      rw [hf] at hf'
      cases hf'
      exact hn d rfl hdec.1

end

/-- In every run, each step leaves the values as they are, but for two kinds of accesses: a plain
value is overwritten, or an operation that holds all its slots takes effect in all of them. -/
theorem Run.step_shifts [LawfulBEq α] (client : Client σ α) (values : Array α) (states : List σ)
    (ts : List Nat) (t : Nat) :
    let s := ((Run.new (.ofValues values) states).steps client ts).system
    ∃ vs vs' : List α, s.memory.logical = vs.map some ∧
      (s.step client t).1.memory.logical = vs'.map some ∧
        s.Shift client t (s.step client t).2 vs vs' := by
  intro s
  obtain ⟨L, hcourse⟩ := exists_course client values states ts
  obtain ⟨vs, hvs⟩ := hcourse.exists_values
  have hs : s.Sound client L := hcourse.sound
  have hstride := hs.stride t
  refine ⟨vs, ?_⟩
  generalize s.step client t = step at hstride ⊢
  cases hstride with
  | rest hn =>
    refine ⟨vs, hvs, hvs, .still (by simp) ?_⟩
    intro d hdec
    obtain ⟨-, th, below, ht, hf⟩ := hdec
    rw [hn th ht] at hf
    simp at hf
  | start ht hi hc ho => exact ⟨vs, hvs, hvs, System.shift_start ht hi _⟩
  | access ht hf hc hd =>
    obtain ⟨vs', hvs', hshift⟩ := hs.shift_access ht hf hc hd hvs
    exact ⟨vs', hvs, hvs', hshift⟩

/-- The step that decides an exchange of two slots changes both. -/
theorem Run.step_shifts_dcas :
    let s : System (List (Call Nat)) Nat :=
      ((Run.new (.ofValues #[0, 1]) [[.dcas 0 0 2 1 1 3]]).steps .script
        (List.replicate 14 0)).system
    s.memory.logical = [some 0, some 1] ∧ (s.step .script 0).1.memory.logical = [some 2, some 3] ∧
      s.Shift .script 0 (s.step .script 0).2 [0, 1] [2, 3] := by
  obtain ⟨vs, vs', hvs, hvs', hshift⟩ :=
    Run.step_shifts .script #[0, 1] [[.dcas 0 0 2 1 1 3]] (List.replicate 14 0) 0
  obtain rfl : vs = [0, 1] := Memory.values_unique hvs (by decide +kernel)
  obtain rfl : vs' = [2, 3] := Memory.values_unique hvs' (by decide +kernel)
  exact ⟨hvs, hvs', hshift⟩

end MultiSwap
