import MultiSwap.Proofs.Accord
import MultiSwap.Proofs.Sequential
import MultiSwap.Proofs.Solo

/-! An operation that no other thread meets. It claims the slots of its words one after the other up
to the first that does not hold, is decided then, and clears what it claimed: with the desired
values if all words held, else with the values that the claimed words expect. -/

namespace MultiSwap

variable {α : Type}

namespace Memory

def content? (m : Memory α) (k : Nat) : Option (Content α) := m.slots[k]?.map (·.content)

/-- What strand `owner` makes from clock `n` on is not decided yet. -/
def Unused (m : Memory α) (owner n : Nat) : Prop :=
  ∀ tick, n ≤ tick → m.verdict ⟨owner, tick⟩ = .pending

/-- The slots of the words `ws` are claimed for `d`, and all others hold their values in `vs`. -/
structure Spans (m : Memory α) (d : Descriptor α) (ws : List (Word α)) (vs : List α) : Prop where
  size : m.size = vs.length
  claimed : ∀ w ∈ ws, m.content? w.index = some (.claimed d)
  plain : ∀ k, (∀ w ∈ ws, w.index ≠ k) → m.content? k = vs[k]?.map .plain

/-- Strand `owner`, at clock `n`, has claimed the slots of `ws` for `d`, which is pending. -/
structure Midway (m : Memory α) (owner n : Nat) (d : Descriptor α) (ws : List (Word α))
    (vs : List α) : Prop where
  spans : m.Spans d ws vs
  pending : m.verdict d.stamp = .pending
  unused : m.Unused owner n
  older : d.stamp.tick < n

variable {m : Memory α} {owner n k : Nat} {c : Cell α} {d : Descriptor α} {ws : List (Word α)}
  {vs : List α}

theorem slot_of_content {x : Content α} (h : m.content? k = some x) :
    ∃ s, m.slots[k]? = some ⟨s, x⟩ := by
  obtain ⟨c, hc, rfl⟩ := Option.map_eq_some_iff.1 h
  exact ⟨c.stamp, hc⟩

theorem content?_place_self (h : k < m.size) (c : Cell α) :
    (m.place k c).content? k = some c.content := by
  rw [content?, slot_place_self h, Option.map_some]

theorem content?_place_of_ne {j : Nat} (h : j ≠ k) (c : Cell α) :
    (m.place k c).content? j = m.content? j := by
  rw [content?, slot_place_of_ne h, content?]

theorem Unused.mono (h : m.Unused owner n) {n' : Nat} (hn : n ≤ n') : m.Unused owner n' :=
  fun tick ht => h tick (Nat.le_trans hn ht)

theorem Unused.propose (h : m.Unused owner n) {s : Stamp} (hs : s.tick < n) (p : Verdict) :
    (m.propose s p).Unused owner n := by
  intro tick ht
  rw [verdict_propose_of_ne, h tick ht]
  rintro rfl
  exact absurd ht (Nat.not_le.2 hs)

theorem Spans.slot_plain (h : m.Spans d ws vs) {v : α} (hk : vs[k]? = some v)
    (hn : ∀ w ∈ ws, w.index ≠ k) : ∃ s, m.slots[k]? = some ⟨s, .plain v⟩ := by
  apply slot_of_content
  rw [h.plain k hn, hk, Option.map_some]

theorem Spans.lt_size (h : m.Spans d ws vs) {v : α} (hk : vs[k]? = some v) : k < m.size :=
  h.size ▸ (List.getElem?_eq_some_iff.1 hk).1

theorem Midway.later (h : m.Midway owner n d ws vs) {n' : Nat} (hn : n ≤ n') :
    m.Midway owner n' d ws vs :=
  ⟨h.spans, h.pending, h.unused.mono hn, Nat.lt_of_lt_of_le h.older hn⟩

theorem Spans.propose (h : m.Spans d ws vs) (s : Stamp) (p : Verdict) :
    (m.propose s p).Spans d ws vs := by
  refine ⟨?_, fun w hw => ?_, fun k hk => ?_⟩
  · rw [Memory.size, slots_propose]
    exact h.size
  · rw [content?, slots_propose]
    exact h.claimed w hw
  · rw [content?, slots_propose]
    exact h.plain k hk

theorem Spans.congr {ws' : List (Word α)} (h : m.Spans d ws vs) (hws : ∀ w, w ∈ ws' ↔ w ∈ ws) :
    m.Spans d ws' vs :=
  ⟨h.size, fun w hw => h.claimed w ((hws w).1 hw),
    fun k hk => h.plain k fun w hw => hk w ((hws w).2 hw)⟩

theorem Spans.claim (h : m.Spans d ws vs) {w : Word α} {m' : Memory α} (hsize : m'.size = m.size)
    (hself : m'.content? w.index = some (.claimed d))
    (hne : ∀ k, k ≠ w.index → m'.content? k = m.content? k) : m'.Spans d (ws ++ [w]) vs := by
  refine ⟨hsize.trans h.size, fun v hv => ?_, fun k hk => ?_⟩
  · by_cases he : v.index = w.index
    · rw [he, hself]
    · rcases List.mem_append.1 hv with hv | hv
      · rw [hne _ he, h.claimed v hv]
      · exact absurd (by rw [List.mem_singleton.1 hv]) he
  · rw [hne k fun he => hk w (by simp) he.symm]
    exact h.plain k fun v hv => hk v (List.mem_append_left _ hv)

theorem Spans.clear {w : Word α} (h : m.Spans d (w :: ws) vs) (hn : ∀ v ∈ ws, v.index ≠ w.index)
    (hk : w.index < m.size) (s : Stamp) (v : α) :
    (m.place w.index ⟨s, .plain v⟩).Spans d ws (vs.set w.index v) := by
  refine ⟨?_, fun u hu => ?_, fun k hu => ?_⟩
  · rw [size_place, h.size, List.length_set]
  · rw [content?_place_of_ne (hn u hu)]
    exact h.claimed u (List.mem_cons_of_mem _ hu)
  · by_cases he : k = w.index
    · subst he
      rw [content?_place_self hk, List.getElem?_set_self (h.size ▸ hk), Option.map_some]
    · rw [content?_place_of_ne he, List.getElem?_set_ne (Ne.symm he)]
      refine h.plain k fun u hmem => ?_
      rcases List.mem_cons.1 hmem with rfl | hmem
      · exact Ne.symm he
      · exact hu u hmem

end Memory

variable [BEq α] {owner n : Nat} {Q : Goal α} {m : Memory α} {d : Descriptor α} {word : Word α}
  {rest done : List (Word α)} {vs : List α} {u : α}

namespace Solo

open MultiSwap.Frame

/-- A handoff that nobody else has met is carried through in five accesses. -/
theorem hand_over {r : Stamp} {g : Handoff α} {f : Frame α}
    (hs : m.slots[g.slot]? = some ⟨r, .reserved g⟩) (hr : m.verdict r = .pending)
    (hv : m.verdict g.operation.stamp = .pending)
    (h : Solo owner Q (n + 5)
      ((m.propose r .commit).place g.slot ⟨⟨owner, n + 4⟩, .claimed g.operation⟩) [f]) :
    Solo owner Q n m [settle r g, f] := by
  have hs' : (m.propose r .commit).slots[g.slot]? = some ⟨r, .reserved g⟩ := by
    rw [Memory.slots_propose, hs]
  refine .goto (.settleOpen hr) (.goto (.weighOpen hv) (.goto (.ruleWon hr) ?_))
  refine .goto (.releaseHeld hs' (by simp [Cell.isHandoff])) ?_
  exact .next (.releaseWon hs' rfl) (List.cons_ne_nil _ _) h

/-- A slot whose word holds is claimed in ten accesses. -/
theorem claim_word (hm : m.Midway owner n d done vs) (hk : vs[word.index]? = some u)
    (hn : ∀ w ∈ done, w.index ≠ word.index) (he : (u == word.expected) = true)
    (h : ∀ m', m'.Midway owner (n + 10) d (done ++ [word]) vs →
      Solo owner Q (n + 10) m' [claimFrom d rest]) :
    Solo owner Q n m [check d word rest] := by
  obtain ⟨s, hs⟩ := hm.spans.slot_plain hk hn
  have hlt := hm.spans.lt_size hk
  have hold := hm.older
  let r : Stamp := ⟨owner, n + 2⟩
  have hdr : d.stamp ≠ r := by
    intro hdr
    have htick := congrArg Stamp.tick hdr
    simp only [r] at htick
    omega
  let m₁ := m.place word.index ⟨r, .reserved ⟨d, word.index, u⟩⟩
  let m₂ := (m₁.propose r .commit).place word.index ⟨⟨owner, n + 7⟩, .claimed d⟩
  have hslot : m₂.slots[word.index]? = some ⟨⟨owner, n + 7⟩, .claimed d⟩ :=
    Memory.slot_place_self (by simpa [m₁, Memory.size_propose] using hlt) _
  have hm₂ : m₂.Midway owner (n + 10) d (done ++ [word]) vs := by
    refine ⟨?_, (Memory.verdict_propose_of_ne hdr _).trans hm.pending, ?_, by omega⟩
    · refine hm.spans.claim (by simp [m₂, m₁, Memory.size_propose]) ?_ fun k hk => ?_
      · rw [Memory.content?, hslot, Option.map_some]
      · rw [Memory.content?_place_of_ne hk, Memory.content?, Memory.slots_propose]
        exact Memory.content?_place_of_ne hk _
    · exact Memory.Unused.propose (m := m₁) (hm.unused.mono (by omega)) (by simp only [r]; omega) _
  refine .goto (.checkOpen hm.pending) (.goto (.claimReady hs rfl he) ?_)
  refine .next (.offerWon hs rfl) (List.cons_ne_nil _ _) ?_
  refine hand_over (Memory.slot_place_self hlt _) (hm.unused (n + 2) (by omega)) hm.pending ?_
  -- the next look finds the slot claimed
  refine .goto (.checkOpen hm₂.pending) (.goto (.claimHeld hslot (by simp [Cell.isClaimedBy])) ?_)
  exact h m₂ hm₂

theorem refuse_word (hm : m.Midway owner n d done vs) (hk : vs[word.index]? = some u)
    (hn : ∀ w ∈ done, w.index ≠ word.index) (he : (u == word.expected) = false)
    (h : Solo owner Q (n + 2) m [conclude d .abort]) : Solo owner Q n m [check d word rest] := by
  obtain ⟨s, hs⟩ := hm.spans.slot_plain hk hn
  exact .goto (.checkOpen hm.pending) (.goto (.claimRefused hs rfl he) h)

/-- Slots are claimed up to the first word that does not hold. -/
theorem claim_words {ws : List (Word α)} (hm : m.Midway owner n d done vs)
    (hws : (done ++ ws).Pairwise fun v w => v.index ≠ w.index)
    (hlt : ∀ w ∈ ws, w.index < vs.length)
    (h : ∀ n' m', n' ≤ n + 10 * ws.length → m'.Midway owner n' d (done ++ Call.leading ws vs) vs →
      Solo owner Q n' m' [conclude d (if Call.allHold ws vs then .commit else .abort)]) :
    Solo owner Q n m [claimFrom d ws] := by
  induction ws generalizing n m done with
  | nil => exact h n m (Nat.le_refl _) (by simpa [Call.leading] using hm)
  | cons w rest ih =>
    obtain ⟨u, hk⟩ : ∃ u, vs[w.index]? = some u :=
      ⟨_, List.getElem?_eq_getElem (hlt w List.mem_cons_self)⟩
    have hn : ∀ v ∈ done, v.index ≠ w.index := fun v hv =>
      (List.pairwise_append.1 hws).2.2 v hv w List.mem_cons_self
    have hlen : (w :: rest).length = rest.length + 1 := rfl
    cases hw : Call.holds w vs with
    | true =>
      refine claim_word hm hk hn (by simpa [Call.holds, hk] using hw) fun m' hm' => ?_
      refine ih hm' (by simpa using hws) (fun v hv => hlt v (List.mem_cons_of_mem _ hv)) ?_
      intro n' m'' hle hm''
      have hend := h n' m'' (by omega)
      rw [Call.leading_cons_of_holds hw, Call.allHold_cons, hw, Bool.true_and] at hend
      exact hend (by simpa using hm'')
    | false =>
      refine refuse_word hm hk hn (by simpa [Call.holds, hk] using hw) ?_
      have hend := h (n + 2) m (by omega)
      rw [Call.leading_cons_of_misses hw, Call.allHold_cons, hw, Bool.false_and] at hend
      exact hend (by simpa using hm.later (by omega))

theorem clear_words {b : Bool} {cs ws : List (Word α)} (hcs : cs.Sublist ws)
    (hws : ws.Pairwise fun v w => v.index ≠ w.index) (hlt : ∀ w ∈ ws, w.index < vs.length)
    (hm : m.Spans d cs vs) (hu : m.Unused owner n)
    (h : ∀ n' m', n' ≤ n + 2 * ws.length → m'.Unused owner n' →
      m'.Spans d [] (Call.writeAll (cs.map (Word.leaving b)) vs) → Q n' m' (.flag b)) :
    (clearFrom d b ws).Solo owner Q n m := by
  induction hcs generalizing n m vs with
  | slnil => exact h n m (Nat.le_refl _) hu hm
  | @cons cs ws w hsub ih =>
    obtain ⟨hw, hws⟩ := List.pairwise_cons.1 hws
    obtain ⟨u, hk⟩ : ∃ u, vs[w.index]? = some u :=
      ⟨_, List.getElem?_eq_getElem (hlt w List.mem_cons_self)⟩
    obtain ⟨s, hs⟩ := hm.slot_plain hk fun v hv => (hw v (hsub.subset hv)).symm
    refine of_next (.clearGone hs (by simp [Cell.isClaimedBy])) ?_
    refine ih hws (fun v hv => hlt v (List.mem_cons_of_mem _ hv)) hm (hu.mono (by omega)) ?_
    intro n' m' hn
    exact h n' m' (by simp only [List.length_cons]; omega)
  | @cons_cons cs ws w hsub ih =>
    obtain ⟨hw, hws⟩ := List.pairwise_cons.1 hws
    obtain ⟨s, hs⟩ := Memory.slot_of_content (hm.claimed w List.mem_cons_self)
    have hk : w.index < m.size := hm.size ▸ hlt w List.mem_cons_self
    refine of_next (.clearHeld hs (by simp [Cell.isClaimedBy])) (of_next (.clearWon hs rfl) ?_)
    have hm' := hm.clear (fun v hv => (hw v (hsub.subset hv)).symm) hk ⟨owner, n + 1⟩ (w.target b)
    refine ih hws (fun v hv => ?_) hm' (fun tick ht => hu tick (by omega)) ?_
    · rw [List.length_set]
      exact hlt v (List.mem_cons_of_mem _ hv)
    intro n' m' hn
    exact h n' m' (by simp only [List.length_cons]; omega)

theorem decide_words {cs : List (Word α)} (hcs : cs.Sublist d.words)
    (hws : d.words.Pairwise fun v w => v.index ≠ w.index)
    (hlt : ∀ w ∈ d.words, w.index < vs.length) (hm : m.Midway owner n d cs vs) (b : Bool)
    (h : ∀ n' m', n' ≤ n + 1 + 2 * d.words.length → m'.Unused owner n' →
      m'.Spans d [] (Call.writeAll (cs.map (Word.leaving b)) vs) → Q n' m' (.flag b)) :
    Solo owner Q n m [conclude d (if b then .commit else .abort)] := by
  have hu {p : Verdict} : (m.propose d.stamp p).Unused owner (n + 1) :=
    (hm.unused.mono (Nat.le_succ n)).propose (Nat.lt_succ_of_lt hm.older) p
  cases b with
  | true =>
    have hm' := hm.spans.propose d.stamp .commit
    exact of_next (.concludeWon hm.pending) (clear_words hcs hws hlt hm' hu h)
  | false =>
    have hws' : (cs.map (Word.leaving false)).Pairwise fun v w => v.index ≠ w.index :=
      List.pairwise_map.2 (hws.sublist hcs)
    rw [← Call.writeAll_reverse hws', ← List.map_reverse, ← d.words.length_reverse] at h
    refine of_next (.concludeWon hm.pending) (clear_words hcs.reverse ?_ ?_ ?_ hu h)
    · exact List.pairwise_reverse.2 (hws.imp Ne.symm)
    · exact fun w hw => hlt w (List.mem_reverse.1 hw)
    · exact (hm.spans.propose _ _).congr fun w => List.mem_reverse

/-- An exchange of several free slots, from the look at the first of them. -/
theorem exchange_many (hd : d.Formed vs.length) (hs : d.stamp = ⟨owner, n⟩)
    (hm : m.Spans d [] vs) (hu : m.Unused owner n)
    (h : ∀ n' m', n' ≤ n + 12 * vs.length + 3 → m'.Unused owner n' →
      m'.Spans d [] (Call.writeAll ((Call.leading d.words vs).map
        (Word.leaving (Call.allHold d.words vs))) vs) →
      Q n' m' (.flag (Call.allHold d.words vs))) :
    Solo owner Q (n + 1) m
      [cas d.first.index d.first.expected (.claimed d) (some d)] := by
  have hlt : d.first.index < vs.length := hd.inBounds _ d.first_mem
  have hws : d.words.Pairwise fun v w => v.index ≠ w.index :=
    hd.ascending.imp fun hvw => Nat.ne_of_lt hvw
  obtain ⟨u, hk⟩ : ∃ u, vs[d.first.index]? = some u := ⟨_, List.getElem?_eq_getElem hlt⟩
  obtain ⟨s, hslot⟩ := hm.slot_plain hk (by simp)
  have hwords : d.words = d.first :: d.others := rfl
  have hlen := hd.length_le
  rw [d.length_words] at hlen
  cases hw : Call.holds d.first vs with
  | false =>
    have he : (u == d.first.expected) = false := by simpa [Call.holds, hk] using hw
    have hend := h (n + 2) m (by omega) (hu.mono (by omega))
    rw [hwords, Call.leading_cons_of_misses hw, Call.allHold_cons, hw, Bool.false_and] at hend
    exact of_next (.casRefused hslot rfl he) (hend hm)
  | true =>
    have he : (u == d.first.expected) = true := by simpa [Call.holds, hk] using hw
    have hsize : d.first.index < m.size := hm.size ▸ hlt
    let m₁ := m.place d.first.index ⟨⟨owner, n + 2⟩, .claimed d⟩
    have hpending : m₁.verdict d.stamp = .pending := by
      rw [hs]
      exact hu n (Nat.le_refl n)
    have hm₁ : m₁.Midway owner (n + 4) d [d.first] vs := by
      refine ⟨?_, hpending, fun tick ht => hu tick (by omega), ?_⟩
      · refine hm.claim (by simp [m₁]) ?_ fun k hne => Memory.content?_place_of_ne hne _
        rw [Memory.content?_place_self hsize]
      · simp only [hs]
        omega
    refine .goto (.casReady hslot rfl he) (.goto (.opened hslot rfl) ?_)
    refine .goto (.driveOpen hpending) ?_
    refine claim_words hm₁ hws (fun w hw => hd.inBounds w (d.mem_of_others hw)) ?_
    intro n' m' hn' hm'
    have hall : Call.allHold d.words vs = Call.allHold d.others vs := by
      rw [hwords, Call.allHold_cons, hw, Bool.true_and]
    rw [← hall]
    rw [List.singleton_append, ← Call.leading_cons_of_holds hw] at hm'
    refine decide_words (Call.leading_sublist _ _) hws hd.inBounds hm' _ ?_
    intro n'' m'' hn''
    rw [d.length_words] at hn''
    exact h n'' m'' (by omega)

end Solo

end MultiSwap
