import MultiSwap.Proofs.Linearizes
import MultiSwap.Proofs.Shift

/-! Where calls have their effect. A call that is answered at once, or at the last access of its own
frame, answers there what it would answer on the plain values. Nothing else is answered by a frame
of its own, and no access but a decision settles an operation. -/

namespace MultiSwap

variable {α : Type}

theorem Memory.value_of_plain {m : Memory α} {k : Nat} {c : Cell α} {v : α}
    (hc : m.slots[k]? = some c) (hv : c.content = .plain v) {vs : List α}
    (hvs : m.logical = vs.map some) : vs[k]? = some v := by
  have h := m.getElem?_logical k
  rw [hvs, hc, List.getElem?_map] at h
  simpa [logicalValue, hv] using h

theorem Memory.AtRest.logical {m : Memory α} {vs : List α} (h : m.AtRest vs) :
    m.logical = vs.map some := by
  apply List.ext_getElem?
  intro k
  have hk := congrArg (fun cs => cs[k]?) h
  simp only [List.getElem?_map, Array.getElem?_toList] at hk
  rw [m.getElem?_logical, List.getElem?_map]
  cases hc : m.slots[k]? with
  | none =>
    rw [hc, Option.map_none, eq_comm, Option.map_eq_none_iff] at hk
    rw [hk]
    rfl
  | some c =>
    rw [hc, Option.map_some, eq_comm, Option.map_eq_some_iff] at hk
    obtain ⟨v, hv, hp⟩ := hk
    simp [hv, logicalValue, ← hp]

namespace Call

theorem isAtomic_of_exchange {c : Call α} {ws : List (Word α)} (hc : c.exchange? = some ws) :
    c.isAtomic = true := by
  cases c with
  | contents announced => simp [exchange?] at hc
  | _ => rfl

variable [BEq α] {c : Call α} {ws ms : List (Word α)} {vs : List α}

theorem onList_of_inBounds (hb : c.firstBeyond vs.length = none) :
    c.onList vs = c.enterOnList vs := by
  rw [onList, hb]

theorem onList_of_exchange (hc : c.exchange? = some ws) (hb : c.firstBeyond vs.length = none) :
    c.onList vs = exchangeOnList ws vs := by
  rw [onList_of_inBounds hb]
  cases c with
  | cas slot expected update =>
    cases hc
    rfl
  | mcas words =>
    cases hc
    rfl
  | _ => simp [exchange?] at hc

theorem onList_of_merge? [PartialEquivBEq α] (hc : c.exchange? = some ws)
    (hm : Word.merge? ws = some ms) (hb : c.firstBeyond vs.length = none) :
    c.onList vs = exchangeOnList ms vs := by
  rw [onList_of_exchange hc hb, exchangeOnList_merge? hm]

theorem exchangeOnList_of_holds (h : allHold ws vs = true) :
    exchangeOnList ws vs = (writeAll ws vs, .flag true) := by
  rw [exchangeOnList, if_pos h]

theorem exchangeOnList_of_misses (h : allHold ws vs = false) :
    exchangeOnList ws vs = (vs, .flag false) := by
  rw [exchangeOnList, h]
  rfl

theorem flag_exchangeOnList (ws : List (Word α)) (vs : List α) :
    (exchangeOnList ws vs).2 = .flag (allHold ws vs) := by
  cases h : allHold ws vs with
  | true => rw [exchangeOnList_of_holds h]
  | false => rw [exchangeOnList_of_misses h]

theorem allHold_of_forall [ReflBEq α] (h : ∀ w ∈ ws, vs[w.index]? = some w.expected) :
    allHold ws vs = true := by
  apply List.all_eq_true.2
  intro w hw
  rw [h w hw, Option.any_some, beq_self_eq_true]

theorem not_allHold {w : Word α} (hw : w ∈ ws) {u : α} (hx : vs[w.index]? = some u)
    (hu : (u == w.expected) = false) : allHold ws vs = false := by
  apply List.all_eq_false.2
  exact ⟨w, hw, by simp [hx, hu]⟩

end Call

variable [BEq α]

theorem Call.Makes.onList [PartialEquivBEq α] {c : Call α} {owner : Nat} {d : Descriptor α}
    (hd : c.Makes owner d) {vs : List α} (hb : c.firstBeyond vs.length = none) :
    c.isAtomic = true ∧ c.onList vs = exchangeOnList d.words vs := by
  obtain ⟨-, ws, hc, hm⟩ := hd
  exact ⟨isAtomic_of_exchange hc, onList_of_merge? hc hm hb⟩

theorem Outset.onList_of_done [PartialEquivBEq α] {fresh : Stamp} {vs : List α} {c : Call α}
    {res : Result α} (h : Outset fresh vs.length c (.done res)) (hc : c.isAtomic = true) :
    c.onList vs = (vs, res) := by
  cases h with
  | refused hb => rw [Call.onList, hb]
  | len h =>
    subst h
    rfl
  | isEmpty h =>
    subst h
    cases vs <;> rfl
  | contradicted hb hx hm =>
    rw [Call.onList_of_exchange hx hb, Call.exchangeOnList_of_merge?_none hm]
  | nothing hb hx hm => rw [Call.onList_of_merge? hx hm hb, Call.exchangeOnList_of_holds rfl]; rfl
  | noContents h _ =>
    subst h
    simp [Call.isAtomic] at hc

namespace Deed

variable {L : Ledger α} {m m' : Memory α} {fresh : Stamp} {f : Frame α} {e : Event α}
  {move : Move α} {vs vs' : List α}

theorem Shift.eq_of_still {owner : Nat} (h : Shift m owner f e vs vs') (hr : f.role = .own)
    (he : e.overwrites = false) : vs' = vs := by
  cases h with
  | write hw =>
    rw [hw] at he
    simp [Event.overwrites] at he
  | commit hf =>
    rw [hf] at hr
    simp [Frame.role] at hr
  | still => rfl

theorem Shift.eq_of_write {owner : Nat} (h : Shift m owner f e vs vs') (hr : f.role = .own)
    {k : Nat} {s r : Stamp} {u v : α} (he : e = .swapped k ⟨s, .plain u⟩ true ⟨r, .plain v⟩) :
    vs' = vs.set k v := by
  subst he
  cases h with
  | write hw =>
    cases hw
    rfl
  | commit hf =>
    rw [hf] at hr
    simp [Frame.role] at hr
  | still he => simp [Event.overwrites] at he

/-- A call that its own frame answers is carried out at that access. -/
theorem onList_of_done [LawfulBEq α] (h : Deed m fresh f e m' move) (hm : m.Accords L)
    (hf : f.Sound L m fresh.owner) (hr : f.role = .own) {res : Result α}
    (hn : move.next = .done res) (hvs : m.logical = vs.map some)
    (hshift : Shift m fresh.owner f e vs vs') {c : Call α} (hs : f.Serves fresh.owner c)
    (hb : c.firstBeyond vs.length = none) :
    if c.isAtomic then c.onList vs = (vs', res) else vs' = vs := by
  cases h with
  | @got slot x v hc hv =>
    obtain rfl : c = .get slot := hs
    obtain rfl := hshift.eq_of_still hr rfl
    cases hn
    rw [Call.onList_of_inBounds hb, Call.enterOnList, Memory.value_of_plain hc hv hvs]
    rfl
  | @gotLast announced slot seen x v hc hv =>
    obtain rfl : c = .contents announced := hs
    exact hshift.eq_of_still hr rfl
  | @setWon slot value found x hc hx =>
    obtain rfl : c = .set slot value := hs
    obtain ⟨s, u, rfl, hl⟩ := hf
    obtain rfl := (hm.cell_eq hc hl hx).2
    obtain rfl := hshift.eq_of_write hr rfl
    cases hn
    rw [Call.onList_of_inBounds hb]
    rfl
  | @casRefused slot expected content onward x v hc hv he =>
    obtain rfl := hshift.eq_of_still hr rfl
    cases hn
    have hval := Memory.value_of_plain hc hv hvs
    cases hs with
    | single hx hm =>
      rw [if_pos (Call.isAtomic_of_exchange hx), Call.onList_of_merge? hx hm hb]
      exact Call.exchangeOnList_of_misses (Call.not_allHold List.mem_cons_self hval he)
    | @many d hd =>
      rw [if_pos (hd.onList hb).1, (hd.onList hb).2]
      exact Call.exchangeOnList_of_misses (Call.not_allHold d.first_mem hval he)
  | @casWon slot expected content found x hc hx =>
    obtain ⟨-, -, s, u, rfl, hl, he⟩ := hf
    cases hn
    obtain rfl := (hm.cell_eq hc hl hx).2
    cases hs with
    | @single ws w hex hw =>
      obtain rfl := hshift.eq_of_write hr rfl
      have hval : vs[w.index]? = some w.expected := by
        rw [Memory.value_of_plain hc rfl hvs, eq_of_beq he]
      rw [if_pos (Call.isAtomic_of_exchange hex), Call.onList_of_merge? hex hw hb]
      exact Call.exchangeOnList_of_holds (Call.allHold_of_forall (by simpa using hval))
  | _ => first | (cases hr; done) | cases hn

/-- Only the last access of a call writes a value over another. -/
theorem done_of_overwrites (h : Deed m fresh f e m' move) (hm : m.Accords L)
    (hf : f.Sound L m fresh.owner) (he : e.overwrites = true) : ∃ res, move.next = .done res := by
  cases h with
  | setWon => exact ⟨_, rfl⟩
  | casWon => exact ⟨_, rfl⟩
  | opened hc hs =>
    obtain ⟨-, hi, -⟩ := hf
    cases hi
    simp [Event.overwrites] at he
  | releaseWon => exact ⟨_, rfl⟩
  | clearWon hc hs =>
    rw [(hm.cell_eq hc hf.2 hs).2] at he
    simp [Event.overwrites] at he
  | _ => simp [Event.overwrites] at he

theorem verdict_eq (h : Deed m fresh f e m' move) (hm : m.Accords L)
    (hf : f.Sound L m fresh.owner) {d : Descriptor α} (hd : L.Opened d)
    (hn : ∀ p, f = .conclude d p → m.verdict d.stamp ≠ .pending) :
    m'.verdict d.stamp = m.verdict d.stamp := by
  cases h with
  | @concludeWon d' p hv =>
    refine Memory.verdict_propose_of_ne (fun he => ?_) p
    obtain rfl := hm.formed.eq_of_stamp hd hf.1 he
    exact hn p rfl hv
  | @ruleWon r g p hv =>
    refine Memory.verdict_propose_of_ne (fun he => ?_) p
    have hl := hm.formed.known hd
    rw [he, hf.1] at hl
    simp at hl
  | _ => rfl

theorem concluded {d : Descriptor α} {v : Verdict} (h : Deed m fresh (.conclude d v) e m' move)
    (hv : m.verdict d.stamp = .pending) :
    m'.verdict d.stamp = v ∧ move.next.frames ≠ [] := by
  have hclear {ws : List (Word α)} (hw : d.first ∈ ws) (takesEffect : Bool) :
      (Frame.clearFrom d takesEffect ws).frames ≠ [] := by
    cases ws with
    | nil => simp at hw
    | cons w rest => exact List.cons_ne_nil _ _
  cases h with
  | helps hw hc hg hd => simp [Frame.waits] at hw
  | concludeWon =>
    refine ⟨Memory.verdict_propose_self hv v, ?_⟩
    cases v with
    | commit => exact hclear d.first_mem true
    | pending => exact hclear (List.mem_reverse.2 d.first_mem) false
    | abort => exact hclear (List.mem_reverse.2 d.first_mem) false
  | concludeLost hv' hp => exact absurd (hv'.symm.trans hv) hp

end Deed

end MultiSwap
