import MultiSwap.Strand
import Mathlib.Tactic.Common

/-! What a frame does with its access, one rule for each outcome. This is the only place that opens
the requests of frames: whatever is shown of steps goes through these rules. -/

namespace MultiSwap

variable {α : Type}

namespace Next

def frames : Next α → List (Frame α)
  | goto f => [f]
  | call callee after => [callee, after]
  | done _ => []

def answer (below : List (Frame α)) : Next α → Option (Result α)
  | done r => if below.isEmpty then some r else none
  | _ => none

theorem answer_eq_none_iff (next : Next α) (below : List (Frame α)) :
    next.answer below = none ↔ next.frames ++ below ≠ [] := by
  cases next with
  | done r => cases below <;> simp [answer, frames]
  | _ => simp [answer, frames]

theorem answer_eq_some_iff (next : Next α) (below : List (Frame α)) (res : Result α) :
    next.answer below = some res ↔ next = .done res ∧ below = [] := by
  cases next with
  | done r => cases below <;> simp [answer]
  | _ => simp [answer]

end Next

theorem Strand.follow_eq (s : Strand α) (m : Memory α) (below : List (Frame α)) (move : Move α)
    (events : List (Event α)) :
    s.follow m below move events =
      ⟨m, s.advance (move.next.frames ++ below), events, move.next.answer below⟩ := by
  unfold follow Next.frames Next.answer
  cases move.next <;> rfl

theorem Move.eq_of_mem_noteIf {b : Bool} {n n' : Note} (h : n' ∈ noteIf b n) : n' = n := by
  cases b with
  | true => exact List.mem_singleton.1 h
  | false => exact absurd h List.not_mem_nil

theorem Cell.isHandoff_of_ne {c : Cell α} {r : Stamp} (h : c.stamp ≠ r) : c.isHandoff r = false := by
  unfold isHandoff
  split <;> simp [h]

namespace Frame

def touches : Frame α → Option Nat
  | get slot | contents _ slot _ _ | set slot _ | setOver slot _ _ => some slot
  | cas slot _ _ _ | casOver slot _ _ _ _ => some slot
  | claim _ word _ | offer _ word _ _ _ | clear _ _ word _ | clearOver _ _ word _ _ =>
    some word.index
  | release _ h _ | releaseOver _ h _ => some h.slot
  | drive _ | check _ _ _ | conclude _ _ | settle _ _ | weigh _ _ | rule _ _ _ => none

/-- The slot in which a frame may find work of another, and the frame that looks there again. -/
def waits : Frame α → Option (Nat × Frame α)
  | get slot => some (slot, get slot)
  | contents announced slot left seen => some (slot, contents announced slot left seen)
  | set slot value => some (slot, set slot value)
  | cas slot expected content onward => some (slot, cas slot expected content onward)
  | claim d word rest => some (word.index, check d word rest)
  | _ => none

/-- The cell that a frame is about to swap, by its slot and its stamp. -/
def aim : Frame α → Option (Nat × Stamp)
  | setOver slot _ found | casOver slot _ _ _ found => some (slot, found.stamp)
  | offer _ word _ seen _ | clearOver _ _ word _ seen => some (word.index, seen)
  | releaseOver ticket h _ => some (h.slot, ticket)
  | _ => none

theorem aim_of_waits {f after : Frame α} {k : Nat} (h : f.waits = some (k, after)) :
    after.aim = none := by
  cases f <;> simp only [waits, Option.some.injEq, Prod.mk.injEq, reduceCtorEq] at h
  all_goals
    obtain ⟨-, rfl⟩ := h
    rfl

theorem aim_of_assistance {c : Cell α} {note : Note} {g : Frame α}
    (h : c.assistance = some (note, g)) : g.aim = none := by
  rcases hx : c.content with v | w | d <;> simp only [Cell.assistance, hx] at h
  · simp at h
  all_goals
    cases h
    rfl

theorem mem_clearFrom {d : Descriptor α} (takesEffect : Bool) (ws : List (Word α)) {g : Frame α}
    (h : g ∈ (clearFrom d takesEffect ws).frames) :
    ∃ w rest, ws = w :: rest ∧ g = .clear d takesEffect w rest := by
  cases ws with
  | nil => exact absurd h List.not_mem_nil
  | cons w rest => exact ⟨w, rest, rfl, List.mem_singleton.1 h⟩

theorem aim_claimFrom (d : Descriptor α) (ws : List (Word α)) : (claimFrom d ws).aim = none := by
  cases ws <;> rfl

theorem mem_clearing {d : Descriptor α} {v : Verdict} {g : Frame α}
    (h : g ∈ (clearing d v).next.frames) :
    ∃ takesEffect w rest, g = .clear d takesEffect w rest ∧ ∀ x ∈ w :: rest, x ∈ d.words := by
  have hrev {w : Word α} {rest : List (Word α)} (hw : d.words.reverse = w :: rest) :
      ∀ x ∈ w :: rest, x ∈ d.words := fun x hx => List.mem_reverse.1 (hw ▸ hx)
  cases v with
  | commit =>
    obtain ⟨w, rest, hw, rfl⟩ := mem_clearFrom true d.words h
    exact ⟨true, w, rest, rfl, fun x hx => hw ▸ hx⟩
  | pending =>
    obtain ⟨w, rest, hw, rfl⟩ := mem_clearFrom false d.words.reverse h
    exact ⟨false, w, rest, rfl, hrev hw⟩
  | abort =>
    obtain ⟨w, rest, hw, rfl⟩ := mem_clearFrom false d.words.reverse h
    exact ⟨false, w, rest, rfl, hrev hw⟩

end Frame

variable [BEq α]

open MultiSwap.Frame in
inductive Deed (m : Memory α) (fresh : Stamp) :
    Frame α → Event α → Memory α → Move α → Prop where
  | got {slot c v} (hc : m.slots[slot]? = some c) (hv : c.content = .plain v) :
    Deed m fresh (get slot) (.loaded slot c) m (.done (.value v))
  | gotLast {announced slot seen c v} (hc : m.slots[slot]? = some c) (hv : c.content = .plain v) :
    Deed m fresh (contents announced slot 0 seen) (.loaded slot c) m
      (.done (.values (v :: seen).reverse))
  | gotNext {announced slot left seen c v} (hc : m.slots[slot]? = some c)
      (hv : c.content = .plain v) :
    Deed m fresh (contents announced slot (left + 1) seen) (.loaded slot c) m
      ⟨Move.noteIf announced (.enterGet (slot + 1)),
        .goto (contents announced (slot + 1) left (v :: seen))⟩
  | helps {f slot after c note g} (hf : f.waits = some (slot, after))
      (hc : m.slots[slot]? = some c) (hg : c.assistance = some (note, g))
      (hd : ∀ d word rest, f = claim d word rest → c.isClaimedBy d = false) :
    Deed m fresh f (.loaded slot c) m ⟨[note], .call g after⟩
  | setReady {slot value c v} (hc : m.slots[slot]? = some c) (hv : c.content = .plain v) :
    Deed m fresh (set slot value) (.loaded slot c) m (.goto (setOver slot value c))
  | setWon {slot value found c} (hc : m.slots[slot]? = some c) (hs : c.stamp = found.stamp) :
    Deed m fresh (setOver slot value found) (.swapped slot c true ⟨fresh, .plain value⟩)
      (m.place slot ⟨fresh, .plain value⟩) (.done .done)
  | setLost {slot value found c} (hc : m.slots[slot]? = some c) (hs : c.stamp ≠ found.stamp) :
    Deed m fresh (setOver slot value found) (.swapped slot found false c) m
      (.goto (set slot value))
  | casReady {slot expected content onward c v} (hc : m.slots[slot]? = some c)
      (hv : c.content = .plain v) (he : (v == expected) = true) :
    Deed m fresh (cas slot expected content onward) (.loaded slot c) m
      (.goto (casOver slot expected content onward c))
  | casRefused {slot expected content onward c v} (hc : m.slots[slot]? = some c)
      (hv : c.content = .plain v) (he : (v == expected) = false) :
    Deed m fresh (cas slot expected content onward) (.loaded slot c) m
      ⟨Move.noteIf onward.isSome (.mismatch slot), .done (.flag false)⟩
  | casWon {slot expected content found c} (hc : m.slots[slot]? = some c)
      (hs : c.stamp = found.stamp) :
    Deed m fresh (casOver slot expected content none found)
      (.swapped slot c true ⟨fresh, content⟩) (m.place slot ⟨fresh, content⟩)
      (.done (.flag true))
  | opened {slot expected content d found c} (hc : m.slots[slot]? = some c)
      (hs : c.stamp = found.stamp) :
    Deed m fresh (casOver slot expected content (some d) found)
      (.swapped slot c true ⟨fresh, content⟩) (m.place slot ⟨fresh, content⟩)
      (.goto (drive d))
  | casLost {slot expected content onward found c} (hc : m.slots[slot]? = some c)
      (hs : c.stamp ≠ found.stamp) :
    Deed m fresh (casOver slot expected content onward found) (.swapped slot found false c) m
      (.goto (cas slot expected content onward))
  | driveOpen {d} (hv : m.verdict d.stamp = .pending) :
    Deed m fresh (drive d) (.inspected d.stamp .pending) m
      ⟨[.enterClaim], .goto (claimFrom d d.others)⟩
  | driveSettled {d v} (hv : m.verdict d.stamp = v) (hp : v ≠ .pending) :
    Deed m fresh (drive d) (.inspected d.stamp v) m (clearing d v)
  | checkOpen {d word rest} (hv : m.verdict d.stamp = .pending) :
    Deed m fresh (check d word rest) (.inspected d.stamp .pending) m (.goto (claim d word rest))
  | checkSettled {d word rest v} (hv : m.verdict d.stamp = v) (hp : v ≠ .pending) :
    Deed m fresh (check d word rest) (.inspected d.stamp v) m (.goto (conclude d .abort))
  | claimHeld {d word rest c} (hc : m.slots[word.index]? = some c)
      (hd : c.isClaimedBy d = true) :
    Deed m fresh (claim d word rest) (.loaded word.index c) m
      ⟨[.alreadyClaimed word.index], .goto (claimFrom d rest)⟩
  | claimReady {d word rest c v} (hc : m.slots[word.index]? = some c)
      (hv : c.content = .plain v) (he : (v == word.expected) = true) :
    Deed m fresh (claim d word rest) (.loaded word.index c) m
      (.goto (offer d word rest c.stamp v))
  | claimRefused {d word rest c v} (hc : m.slots[word.index]? = some c)
      (hv : c.content = .plain v) (he : (v == word.expected) = false) :
    Deed m fresh (claim d word rest) (.loaded word.index c) m
      ⟨[.mismatch word.index], .goto (conclude d .abort)⟩
  | offerWon {d word rest seen kept c} (hc : m.slots[word.index]? = some c)
      (hs : c.stamp = seen) :
    Deed m fresh (offer d word rest seen kept)
      (.swapped word.index c true ⟨fresh, .reserved ⟨d, word.index, kept⟩⟩)
      (m.place word.index ⟨fresh, .reserved ⟨d, word.index, kept⟩⟩)
      ⟨[], .call (settle fresh ⟨d, word.index, kept⟩) (check d word rest)⟩
  | offerLost {d word rest seen kept c} (hc : m.slots[word.index]? = some c)
      (hs : c.stamp ≠ seen) :
    Deed m fresh (offer d word rest seen kept)
      (.swapped word.index ⟨seen, .plain kept⟩ false c) m (.goto (check d word rest))
  | concludeWon {d proposal} (hv : m.verdict d.stamp = .pending) :
    Deed m fresh (conclude d proposal) (.decided d.stamp proposal true proposal)
      (m.propose d.stamp proposal)
      ⟨.decided proposal :: (clearing d proposal).notes, (clearing d proposal).next⟩
  | concludeLost {d proposal v} (hv : m.verdict d.stamp = v) (hp : v ≠ .pending) :
    Deed m fresh (conclude d proposal) (.decided d.stamp proposal false v) m (clearing d v)
  | clearHeld {d takesEffect word rest c} (hc : m.slots[word.index]? = some c)
      (hd : c.isClaimedBy d = true) :
    Deed m fresh (clear d takesEffect word rest) (.loaded word.index c) m
      (.goto (clearOver d takesEffect word rest c.stamp))
  | clearGone {d takesEffect word rest c} (hc : m.slots[word.index]? = some c)
      (hd : c.isClaimedBy d = false) :
    Deed m fresh (clear d takesEffect word rest) (.loaded word.index c) m
      ⟨[], clearFrom d takesEffect rest⟩
  | clearWon {d takesEffect word rest seen c} (hc : m.slots[word.index]? = some c)
      (hs : c.stamp = seen) :
    Deed m fresh (clearOver d takesEffect word rest seen)
      (.swapped word.index c true ⟨fresh, .plain (word.target takesEffect)⟩)
      (m.place word.index ⟨fresh, .plain (word.target takesEffect)⟩)
      ⟨[clearedNote takesEffect word.index], clearFrom d takesEffect rest⟩
  | clearLost {d takesEffect word rest seen c} (hc : m.slots[word.index]? = some c)
      (hs : c.stamp ≠ seen) :
    Deed m fresh (clearOver d takesEffect word rest seen)
      (.swapped word.index ⟨seen, .claimed d⟩ false c) m ⟨[], clearFrom d takesEffect rest⟩
  | settleOpen {ticket h} (hv : m.verdict ticket = .pending) :
    Deed m fresh (settle ticket h) (.inspected ticket .pending) m (.goto (weigh ticket h))
  | settleSettled {ticket h v} (hv : m.verdict ticket = v) (hp : v ≠ .pending) :
    Deed m fresh (settle ticket h) (.inspected ticket v) m (.goto (release ticket h v))
  | weighOpen {ticket h} (hv : m.verdict h.operation.stamp = .pending) :
    Deed m fresh (weigh ticket h) (.inspected h.operation.stamp .pending) m
      (.goto (rule ticket h .commit))
  | weighSettled {ticket h v} (hv : m.verdict h.operation.stamp = v) (hp : v ≠ .pending) :
    Deed m fresh (weigh ticket h) (.inspected h.operation.stamp v) m
      (.goto (rule ticket h .abort))
  | ruleWon {ticket h proposal} (hv : m.verdict ticket = .pending) :
    Deed m fresh (rule ticket h proposal) (.decided ticket proposal true proposal)
      (m.propose ticket proposal)
      ⟨[.decided proposal], .goto (release ticket h proposal)⟩
  | ruleLost {ticket h proposal v} (hv : m.verdict ticket = v) (hp : v ≠ .pending) :
    Deed m fresh (rule ticket h proposal) (.decided ticket proposal false v) m
      (.goto (release ticket h v))
  | releaseHeld {ticket h v c} (hc : m.slots[h.slot]? = some c)
      (hd : c.isHandoff ticket = true) :
    Deed m fresh (release ticket h v) (.loaded h.slot c) m (.goto (releaseOver ticket h v))
  | releaseGone {ticket h v c} (hc : m.slots[h.slot]? = some c)
      (hd : c.isHandoff ticket = false) :
    Deed m fresh (release ticket h v) (.loaded h.slot c) m (.done (.flag (v == .commit)))
  | releaseWon {ticket h v c} (hc : m.slots[h.slot]? = some c) (hs : c.stamp = ticket) :
    Deed m fresh (releaseOver ticket h v)
      (.swapped h.slot c true ⟨fresh, released h v⟩)
      (m.place h.slot ⟨fresh, released h v⟩)
      ⟨[.handoffResolved h.slot v], .done (.flag (v == .commit))⟩
  | releaseLost {ticket h v c} (hc : m.slots[h.slot]? = some c) (hs : c.stamp ≠ ticket) :
    Deed m fresh (releaseOver ticket h v)
      (.swapped h.slot ⟨ticket, .reserved h⟩ false c) m (.done (.flag (v == .commit)))

theorem Deed.help {m : Memory α} {fresh : Stamp} {f : Frame α} {slot : Nat} {after : Frame α}
    {c : Cell α} (hf : f.waits = some (slot, after)) (hc : m.slots[slot]? = some c)
    (hx : ∀ v, c.content ≠ .plain v)
    (hd : ∀ d word rest, f = .claim d word rest → c.isClaimedBy d = false) :
    Deed m fresh f (.loaded slot c) m (Move.help c after) := by
  rcases h : c.content with v | g | d
  · exact absurd h (hx v)
  all_goals
    simp only [Move.help, Cell.assistance, h]
    exact .helps hf hc (by simp only [Cell.assistance, h]) hd

omit [BEq α] in
theorem Memory.propose_of_settled {m : Memory α} {s : Stamp} (h : m.verdict s ≠ .pending)
    (p : Verdict) : m.propose s p = m := by
  simp [propose, (Verdict.isOpen_eq_false_iff _).2 h]

namespace Frame

variable {m : Memory α} {fresh : Stamp}

theorem exists_deed_own {f : Frame α} (hr : f.role = .own)
    (hslot : ∀ k, f.touches = some k → ∃ c, m.slots[k]? = some c) :
    ∃ e m' move, (f.request fresh).perform m = (m', .ok (e, move)) ∧
      Deed m fresh f e m' move := by
  cases f with
  | get slot =>
    obtain ⟨c, hc⟩ := hslot slot rfl
    simp only [request, Request.perform, hc]
    refine ⟨_, _, _, rfl, ?_⟩
    rcases hx : c.content with v | g | d
    · exact .got hc hx
    all_goals exact .help rfl hc (by simp [hx]) (by simp)
  | contents announced slot left seen =>
    obtain ⟨c, hc⟩ := hslot slot rfl
    simp only [request, Request.perform, hc]
    refine ⟨_, _, _, rfl, ?_⟩
    rcases hx : c.content with v | g | d
    · cases left with
      | zero => exact .gotLast hc hx
      | succ left => exact .gotNext hc hx
    all_goals exact .help rfl hc (by simp [hx]) (by simp)
  | set slot value =>
    obtain ⟨c, hc⟩ := hslot slot rfl
    simp only [request, Request.perform, hc]
    refine ⟨_, _, _, rfl, ?_⟩
    rcases hx : c.content with v | g | d
    · exact .setReady hc hx
    all_goals exact .help rfl hc (by simp [hx]) (by simp)
  | setOver slot value found =>
    obtain ⟨c, hc⟩ := hslot slot rfl
    simp only [request, Request.perform, hc]
    by_cases hs : c.stamp = found.stamp
    · simp only [hs, if_true]
      exact ⟨_, _, _, rfl, .setWon hc hs⟩
    · simp only [hs, if_false]
      exact ⟨_, _, _, rfl, .setLost hc hs⟩
  | cas slot expected content onward =>
    obtain ⟨c, hc⟩ := hslot slot rfl
    simp only [request, Request.perform, hc]
    refine ⟨_, _, _, rfl, ?_⟩
    rcases hx : c.content with v | g | d
    · by_cases he : (v == expected) = true
      · simp only [he, if_true]
        exact .casReady hc hx he
      · simp only [he]
        exact .casRefused hc hx (by simpa using he)
    all_goals exact .help rfl hc (by simp [hx]) (by simp)
  | casOver slot expected content onward found =>
    obtain ⟨c, hc⟩ := hslot slot rfl
    simp only [request, Request.perform, hc]
    by_cases hs : c.stamp = found.stamp
    · simp only [hs, if_true]
      cases onward with
      | none => exact ⟨_, _, _, rfl, .casWon hc hs⟩
      | some d => exact ⟨_, _, _, rfl, .opened hc hs⟩
    · simp only [hs, if_false]
      exact ⟨_, _, _, rfl, .casLost hc hs⟩
  | _ => cases hr

theorem exists_deed_driving {f : Frame α} {d : Descriptor α} (hr : f.role = .driving d)
    (hslot : ∀ k, f.touches = some k → ∃ c, m.slots[k]? = some c) :
    ∃ e m' move, (f.request fresh).perform m = (m', .ok (e, move)) ∧
      Deed m fresh f e m' move := by
  cases f with
  | drive d =>
    refine ⟨_, _, _, rfl, ?_⟩
    cases h : m.verdict d.stamp with
    | pending => exact .driveOpen h
    | commit => exact .driveSettled h (by simp)
    | abort => exact .driveSettled h (by simp)
  | check d word rest =>
    refine ⟨_, _, _, rfl, ?_⟩
    cases h : m.verdict d.stamp with
    | pending => exact .checkOpen h
    | commit => exact .checkSettled h (by simp)
    | abort => exact .checkSettled h (by simp)
  | claim d word rest =>
    obtain ⟨c, hc⟩ := hslot word.index rfl
    simp only [request, Request.perform, hc]
    refine ⟨_, _, _, rfl, ?_⟩
    by_cases hd : c.isClaimedBy d = true
    · simp only [hd, if_true]
      exact .claimHeld hc hd
    · simp only [hd]
      rcases hx : c.content with v | g | d'
      · by_cases he : (v == word.expected) = true
        · simp only [he, if_true]
          exact .claimReady hc hx he
        · simp only [he]
          exact .claimRefused hc hx (by simpa using he)
      all_goals exact .help rfl hc (by simp [hx]) (by simpa using hd)
  | offer d word rest seen kept =>
    obtain ⟨c, hc⟩ := hslot word.index rfl
    simp only [request, Request.perform, hc]
    by_cases hs : c.stamp = seen
    · simp only [hs, if_true]
      exact ⟨_, _, _, rfl, .offerWon hc hs⟩
    · simp only [hs, if_false]
      exact ⟨_, _, _, rfl, .offerLost hc hs⟩
  | conclude d proposal =>
    refine ⟨_, _, _, rfl, ?_⟩
    by_cases h : m.verdict d.stamp = .pending
    · simp only [h, Verdict.isOpen_pending, Verdict.propose, if_true]
      exact .concludeWon h
    · rw [Verdict.propose_of_settled h, (Verdict.isOpen_eq_false_iff _).2 h,
        Memory.propose_of_settled h]
      exact .concludeLost rfl h
  | clear d takesEffect word rest =>
    obtain ⟨c, hc⟩ := hslot word.index rfl
    simp only [request, Request.perform, hc]
    refine ⟨_, _, _, rfl, ?_⟩
    by_cases hd : c.isClaimedBy d = true
    · simp only [hd, if_true]
      exact .clearHeld hc hd
    · simp only [hd]
      exact .clearGone hc (by simpa using hd)
  | clearOver d takesEffect word rest seen =>
    obtain ⟨c, hc⟩ := hslot word.index rfl
    simp only [request, Request.perform, hc]
    by_cases hs : c.stamp = seen
    · simp only [hs, if_true]
      exact ⟨_, _, _, rfl, .clearWon hc hs⟩
    · simp only [hs, if_false]
      exact ⟨_, _, _, rfl, .clearLost hc hs⟩
  | _ => cases hr

theorem exists_deed_settling {f : Frame α} {r : Stamp} {h : Handoff α}
    (hr : f.role = .settling r h)
    (hslot : ∀ k, f.touches = some k → ∃ c, m.slots[k]? = some c) :
    ∃ e m' move, (f.request fresh).perform m = (m', .ok (e, move)) ∧
      Deed m fresh f e m' move := by
  cases f with
  | settle ticket h =>
    refine ⟨_, _, _, rfl, ?_⟩
    cases hv : m.verdict ticket with
    | pending => exact .settleOpen hv
    | commit => exact .settleSettled hv (by simp)
    | abort => exact .settleSettled hv (by simp)
  | weigh ticket h =>
    refine ⟨_, _, _, rfl, ?_⟩
    cases hv : m.verdict h.operation.stamp with
    | pending => exact .weighOpen hv
    | commit => exact .weighSettled hv (by simp)
    | abort => exact .weighSettled hv (by simp)
  | rule ticket h proposal =>
    refine ⟨_, _, _, rfl, ?_⟩
    by_cases hv : m.verdict ticket = .pending
    · simp only [hv, Verdict.isOpen_pending, Verdict.propose, if_true]
      exact .ruleWon hv
    · rw [Verdict.propose_of_settled hv, (Verdict.isOpen_eq_false_iff _).2 hv,
        Memory.propose_of_settled hv]
      exact .ruleLost rfl hv
  | release ticket h v =>
    obtain ⟨c, hc⟩ := hslot h.slot rfl
    simp only [request, Request.perform, hc]
    refine ⟨_, _, _, rfl, ?_⟩
    by_cases hd : c.isHandoff ticket = true
    · simp only [hd, if_true]
      exact .releaseHeld hc hd
    · simp only [hd]
      exact .releaseGone hc (by simpa using hd)
  | releaseOver ticket h v =>
    obtain ⟨c, hc⟩ := hslot h.slot rfl
    simp only [request, Request.perform, hc]
    by_cases hs : c.stamp = ticket
    · simp only [hs, if_true]
      exact ⟨_, _, _, rfl, .releaseWon hc hs⟩
    · simp only [hs, if_false]
      exact ⟨_, _, _, rfl, .releaseLost hc hs⟩
  | _ => cases hr

theorem exists_deed (f : Frame α) (hf : ∀ k, f.touches = some k → k < m.size) :
    ∃ e m' move, (f.request fresh).perform m = (m', .ok (e, move)) ∧
      Deed m fresh f e m' move := by
  have hslot (k : Nat) (hk : f.touches = some k) : ∃ c, m.slots[k]? = some c :=
    ⟨_, Array.getElem?_eq_getElem (hf k hk)⟩
  cases hr : f.role with
  | own => exact exists_deed_own hr hslot
  | driving d => exact exists_deed_driving hr hslot
  | settling r h => exact exists_deed_settling hr hslot

end Frame

/-- A rule for an access says what the access does. -/
theorem Deed.perform {m m' : Memory α} {fresh : Stamp} {f : Frame α} {e : Event α} {move : Move α}
    (h : Deed m fresh f e m' move) : (f.request fresh).perform m = (m', .ok (e, move)) := by
  cases h with
  | @helps f slot after c note g hf hc hg hd =>
    have hx : ∀ v, c.content ≠ .plain v := by
      intro v hv
      simp [Cell.assistance, hv] at hg
    have hhelp : Move.help c after = ⟨[note], .call g after⟩ := by simp [Move.help, hg]
    cases f with
    | contents announced k left seen =>
      cases hf
      rcases hv : c.content with v | g' | d'
      · exact absurd hv (hx v)
      all_goals simp [Frame.request, Request.perform, hc, hv, hhelp]
    | claim d word rest =>
      cases hf
      rcases hv : c.content with v | g' | d'
      · exact absurd hv (hx v)
      all_goals simp [Frame.request, Request.perform, hc, hv, hhelp, hd d word rest rfl]
    | get | set | cas =>
      cases hf
      rcases hv : c.content with v | g' | d'
      · exact absurd hv (hx v)
      all_goals simp [Frame.request, Request.perform, hc, hv, hhelp]
    | _ => simp [Frame.waits] at hf
  | driveSettled hv hp | checkSettled hv hp | settleSettled hv hp | weighSettled hv hp =>
    subst hv
    simp only [Frame.request, Request.perform]
  | concludeLost hv hp | ruleLost hv hp =>
    have hopen := (Verdict.isOpen_eq_false_iff _).2 hp
    simp [Frame.request, Request.perform, Verdict.propose, Memory.propose, Move.noteIf, Move.goto, hv,
      hopen]
  | claimReady hc hv he | claimRefused hc hv he =>
    simp [Frame.request, Request.perform, Cell.isClaimedBy, hc, hv, he]
  | _ =>
    simp [Frame.request, Request.perform, Verdict.propose, Move.noteIf, Move.done, *]

namespace Deed

variable {m m' : Memory α} {fresh : Stamp} {f : Frame α} {e : Event α} {move : Move α}

theorem slot_of_loaded (h : Deed m fresh f e m' move) {k : Nat} {c : Cell α}
    (he : e = .loaded k c) : m' = m ∧ m.slots[k]? = some c := by
  cases h <;> cases he <;> exact ⟨rfl, ‹_›⟩

/-- A swap is made by the frame that aims at the cell, and wins just if that is in the slot. -/
theorem aims (h : Deed m fresh f e m' move) {k : Nat} {old now : Cell α} {won : Bool}
    (he : e = .swapped k old won now) :
    f.aim = some (k, old.stamp) ∧ ∃ c, m.slots[k]? = some c ∧ (won = true ↔ c.stamp = old.stamp) := by
  cases h with
  | setWon hc hs | casWon hc hs | opened hc hs | offerWon hc hs | clearWon hc hs | releaseWon hc hs =>
    cases he
    exact ⟨by rw [hs]; rfl, _, hc, iff_of_true rfl rfl⟩
  | setLost hc hs | casLost hc hs | offerLost hc hs | clearLost hc hs | releaseLost hc hs =>
    cases he
    exact ⟨rfl, _, hc, iff_of_false Bool.false_ne_true hs⟩
  | _ => cases he

/-- A frame aims only at the cell that it has just found. -/
theorem looks (h : Deed m fresh f e m' move) {g : Frame α} (hg : g ∈ move.next.frames) {k : Nat}
    {s : Stamp} (ha : g.aim = some (k, s)) :
    move.next = .goto g ∧ ∃ c, e = .loaded k c ∧ c.stamp = s := by
  have hnone {g' : Frame α} (hg' : g = g') (hn : g'.aim = none) : False := by
    rw [hg', hn] at ha
    cases ha
  cases h with
  | helps hw hc ha' hd =>
    rcases List.mem_cons.1 hg with hg | hg
    · exact (hnone hg (Frame.aim_of_assistance ha')).elim
    · exact (hnone (List.mem_singleton.1 hg) (Frame.aim_of_waits hw)).elim
  | driveOpen | claimHeld =>
    exact (hnone (List.mem_singleton.1 hg) (Frame.aim_claimFrom _ _)).elim
  | driveSettled | concludeWon | concludeLost =>
    obtain ⟨takesEffect, w, rest, rfl, -⟩ := Frame.mem_clearing hg
    cases ha
  | clearGone | clearWon | clearLost =>
    obtain ⟨w, rest, -, rfl⟩ := Frame.mem_clearFrom _ _ hg
    cases ha
  | setReady | casReady | claimReady | clearHeld =>
    cases List.mem_singleton.1 hg
    cases ha
    exact ⟨rfl, _, rfl, rfl⟩
  | @releaseHeld ticket g' v c hc hd =>
    cases List.mem_singleton.1 hg
    cases ha
    refine ⟨rfl, c, rfl, ?_⟩
    by_contra hne
    rw [Cell.isHandoff_of_ne hne] at hd
    cases hd
  | offerWon =>
    rcases List.mem_cons.1 hg with hg | hg
    · exact (hnone hg rfl).elim
    · exact (hnone (List.mem_singleton.1 hg) rfl).elim
  | got | gotLast | setWon | casWon | casRefused | releaseGone | releaseWon | releaseLost =>
    exact absurd hg List.not_mem_nil
  | _ => exact (hnone (List.mem_singleton.1 hg) rfl).elim

end Deed

end MultiSwap
