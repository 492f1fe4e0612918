import MultiSwap.Proofs.Service

/-! How calls start. A call is answered at once or goes into a frame of its own, and an exchange
over several slots makes an operation of its merged words first. -/

namespace MultiSwap

variable {α : Type} [BEq α]

inductive Outset (fresh : Stamp) (n : Nat) (c : Call α) : Next α → Prop where
  | refused {e : OutOfBounds} (h : c.firstBeyond n = some e) : Outset fresh n c (.done (.refused e))
  | len (h : c = .len) : Outset fresh n c (.done (.size n))
  | isEmpty (h : c = .isEmpty) : Outset fresh n c (.done (.flag (n == 0)))
  | contradicted {ws : List (Word α)} (hb : c.firstBeyond n = none) (hc : c.exchange? = some ws)
      (hm : Word.merge? ws = none) : Outset fresh n c (.done (.flag false))
  | nothing {ws : List (Word α)} (hb : c.firstBeyond n = none) (hc : c.exchange? = some ws)
      (hm : Word.merge? ws = some []) : Outset fresh n c (.done (.flag true))
  | noContents {announced : Bool} (h : c = .contents announced) (hn : n = 0) :
    Outset fresh n c (.done (.values []))
  | get {slot : Nat} (h : c = .get slot) (hk : slot < n) : Outset fresh n c (.goto (.get slot))
  | set {slot : Nat} {value : α} (h : c = .set slot value) (hk : slot < n) :
    Outset fresh n c (.goto (.set slot value))
  | contents {announced : Bool} {left : Nat} (h : c = .contents announced) (hn : n = left + 1) :
    Outset fresh n c (.goto (.contents announced 0 left []))
  | single {ws : List (Word α)} {w : Word α} (hb : c.firstBeyond n = none)
      (hc : c.exchange? = some ws) (hm : Word.merge? ws = some [w]) (hk : w.index < n) :
    Outset fresh n c (.goto (.cas w.index w.expected (.plain w.desired) none))
  | many {ws : List (Word α)} {d : Descriptor α} (hb : c.firstBeyond n = none)
      (hc : c.exchange? = some ws) (hm : Word.merge? ws = some d.words) (hs : d.stamp = fresh)
      (hd : d.Formed n) :
    Outset fresh n c (.goto (.cas d.first.index d.first.expected (.claimed d) (some d)))

theorem Call.merged_mem_slots {c : Call α} {ws ms : List (Word α)} (hc : c.exchange? = some ws)
    (hm : Word.merge? ws = some ms) : ∀ w ∈ ms, w.index ∈ c.slots := by
  intro w hw
  obtain ⟨x, hx, hi⟩ := ((Word.summary_of_merge? hm).slots w.index).1 ⟨w, hw, rfl⟩
  rw [slots_of_exchange hc, ← hi]
  exact List.mem_map_of_mem hx

theorem Call.merged_lt {c : Call α} {n : Nat} (hb : c.firstBeyond n = none)
    {ws ms : List (Word α)} (hc : c.exchange? = some ws) (hm : Word.merge? ws = some ms) :
    ∀ w ∈ ms, w.index < n :=
  fun w hw => index_lt_of_inBounds hb (merged_mem_slots hc hm w hw)

theorem Outset.of_merged {fresh : Stamp} {n : Nat} {c : Call α} (hb : c.firstBeyond n = none)
    {ws ms : List (Word α)} (hc : c.exchange? = some ws) (hm : Word.merge? ws = some ms) :
    Outset fresh n c (Move.exchangeMerged fresh ms).next := by
  have hlt := Call.merged_lt hb hc hm
  match ms with
  | [] => exact .nothing hb hc hm
  | [w] => exact .single hb hc hm (hlt w List.mem_cons_self)
  | v :: w :: rest =>
    have ha := (Word.summary_of_merge? hm).ascending
    have hof : Descriptor.ofWords fresh (v :: w :: rest) = .ok ⟨fresh, v, w :: rest⟩ := by
      rw [Descriptor.ofWords, if_pos ((Word.ascending_iff _).2 ha)]
    simp only [Move.exchangeMerged, Move.exchangeAll, hof]
    exact .many (d := ⟨fresh, v, w :: rest⟩) hb hc hm rfl
      ⟨List.cons_ne_nil _ _, ha, hlt⟩

theorem Call.outset (fresh : Stamp) (n : Nat) (c : Call α) :
    Outset fresh n c (c.start fresh n).next := by
  unfold start
  cases hb : c.firstBeyond n with
  | some e => exact .refused hb
  | none =>
    cases c with
    | len => exact .len rfl
    | isEmpty => exact .isEmpty rfl
    | get slot => exact .get rfl (index_lt_of_inBounds hb (List.mem_singleton_self _))
    | set slot value => exact .set rfl (index_lt_of_inBounds hb (List.mem_singleton_self _))
    | cas slot expected update =>
      exact .single hb rfl rfl (index_lt_of_inBounds hb (List.mem_singleton_self _))
    | mcas words =>
      simp only [enter]
      cases hm : Word.merge? words with
      | none => exact .contradicted hb rfl hm
      | some ms => exact .of_merged hb rfl hm
    | contents announced =>
      cases n with
      | zero => exact .noContents rfl rfl
      | succ left => exact .contents rfl rfl

theorem Call.announces {fresh : Stamp} {n : Nat} {c : Call α} {note : Note}
    (h : note ∈ (c.start fresh n).notes) :
    ∃ i, note = .enterGet i ∨ note = .enterSet i ∨ note = .enterCas i ∨ note = .enterMcas i := by
  unfold start at h
  rcases List.mem_append.1 h with h | h
  · cases c with
    | get slot => exact ⟨slot, Or.inl (List.mem_singleton.1 h)⟩
    | set slot value => exact ⟨slot, Or.inr (Or.inl (List.mem_singleton.1 h))⟩
    | cas slot expected update => exact ⟨slot, Or.inr (Or.inr (Or.inl (List.mem_singleton.1 h)))⟩
    | mcas words => exact ⟨words.length, Or.inr (Or.inr (Or.inr (List.mem_singleton.1 h)))⟩
    | _ => exact absurd h List.not_mem_nil
  · cases hb : c.firstBeyond n with
    | some e =>
      rw [hb] at h
      exact absurd h List.not_mem_nil
    | none =>
      rw [hb] at h
      cases c with
      | mcas words =>
        simp only [enter] at h
        split at h
        · exact absurd h List.not_mem_nil
        · unfold Move.exchangeMerged at h
          split at h
          · exact absurd h List.not_mem_nil
          · exact absurd h List.not_mem_nil
          · exact ⟨_, Or.inr (Or.inr (Or.inr (List.mem_singleton.1 h)))⟩
      | contents announced =>
        cases n with
        | zero => exact absurd h List.not_mem_nil
        | succ n => exact ⟨0, Or.inl (Move.eq_of_mem_noteIf h)⟩
      | _ => exact absurd h List.not_mem_nil

theorem Outset.role_frames {fresh : Stamp} {n : Nat} {c : Call α} {next : Next α}
    (h : Outset fresh n c next) : ∀ g ∈ next.frames, g.role = .own := by
  intro g hg
  cases h <;> simp only [Next.frames, List.mem_singleton, List.not_mem_nil] at hg
  all_goals
    subst hg
    rfl

theorem Outset.aim_frames {fresh : Stamp} {n : Nat} {c : Call α} {next : Next α}
    (h : Outset fresh n c next) : ∀ g ∈ next.frames, g.aim = none := by
  intro g hg
  cases h with
  | get | set | contents | single | many =>
    cases List.mem_singleton.1 hg
    rfl
  | _ => exact absurd hg List.not_mem_nil

end MultiSwap
