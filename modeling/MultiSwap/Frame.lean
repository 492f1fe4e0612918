import MultiSwap.Call
import MultiSwap.Memory
import MultiSwap.Note

/-! How a call gets its work done. A frame says where a thread stands: it stands just before one
access to the memory, its request, and what comes after depends on the answer alone. Whatever a
frame finds in a slot that is no plain value it first drives to its end, on a frame of its own, and
then looks again.

An exchange over several slots claims them in ascending order. The first slot is swapped from its
value to the descriptor at once. Every further slot is handed over in two swaps, and the second one
goes through only if the descriptor was still pending after the first. Then one decision settles the
exchange, and the slots are cleared of it. -/

namespace MultiSwap

variable {α : Type}

/-- A frame `fooOver` is about to swap what `foo` found. -/
inductive Frame (α : Type) where
  | get (slot : Nat)
  /-- `left` slots remain to be read after this one. The values seen are the last one first. -/
  | contents (announced : Bool) (slot left : Nat) (seen : List α)
  | set (slot : Nat) (value : α)
  | setOver (slot : Nat) (value : α) (found : Cell α)
  /-- Goes on to drive `onward` if the exchange is made. -/
  | cas (slot : Nat) (expected : α) (content : Content α) (onward : Option (Descriptor α))
  | casOver (slot : Nat) (expected : α) (content : Content α) (onward : Option (Descriptor α))
      (found : Cell α)
  | drive (d : Descriptor α)
  /-- Looks whether the slot of `word` still matters. The words in `rest` come after it. -/
  | check (d : Descriptor α) (word : Word α) (rest : List (Word α))
  | claim (d : Descriptor α) (word : Word α) (rest : List (Word α))
  /-- Swaps the value `kept`, in the cell `seen`, for a handoff. -/
  | offer (d : Descriptor α) (word : Word α) (rest : List (Word α)) (seen : Stamp) (kept : α)
  | conclude (d : Descriptor α) (proposal : Verdict)
  | clear (d : Descriptor α) (takesEffect : Bool) (word : Word α) (rest : List (Word α))
  | clearOver (d : Descriptor α) (takesEffect : Bool) (word : Word α) (rest : List (Word α))
      (seen : Stamp)
  | settle (ticket : Stamp) (h : Handoff α)
  | weigh (ticket : Stamp) (h : Handoff α)
  | rule (ticket : Stamp) (h : Handoff α) (proposal : Verdict)
  /-- Looks whether the handoff, on which the verdict is `v`, is still in its slot. -/
  | release (ticket : Stamp) (h : Handoff α) (v : Verdict)
  | releaseOver (ticket : Stamp) (h : Handoff α) (v : Verdict)
  deriving Repr

/-- What a frame does for its thread: work of its own call, an operation, or a handoff. -/
inductive Role (α : Type) where
  | own
  | driving (d : Descriptor α)
  | settling (ticket : Stamp) (h : Handoff α)

def Frame.role : Frame α → Role α
  | get _ | contents _ _ _ _ | set _ _ | setOver _ _ _ => .own
  | cas _ _ _ _ | casOver _ _ _ _ _ => .own
  | drive d | check d _ _ | claim d _ _ | offer d _ _ _ _ | conclude d _ => .driving d
  | clear d _ _ _ | clearOver d _ _ _ _ => .driving d
  | settle r h | weigh r h | rule r h _ | release r h _ | releaseOver r h _ => .settling r h

inductive Next (α : Type) where
  | goto (f : Frame α)
  | call (callee after : Frame α)
  | done (r : Result α)
  deriving Repr

structure Move (α : Type) where
  notes : List Note
  next : Next α
  deriving Repr

/-- One access to the memory, and how the thread goes on with its answer. A swap compares the cell
in the slot with `old` by stamp. A proposal is answered with whether it won and with what then
holds. -/
inductive Request (α : Type) where
  | load (slot : Nat) (onward : Cell α → Move α)
  | swap (slot : Nat) (old new : Cell α) (onward : Bool → Move α)
  | inspect (stamp : Stamp) (onward : Verdict → Move α)
  | propose (stamp : Stamp) (proposal : Verdict) (onward : Bool → Verdict → Move α)

namespace Move

def goto (f : Frame α) : Move α := ⟨[], .goto f⟩

def done (r : Result α) : Move α := ⟨[], .done r⟩

def noteIf (b : Bool) (n : Note) : List Note := if b then [n] else []

end Move

/-- The frame that brings what a cell holds to its end, with the note that announces it. A plain
value needs no help. -/
def Cell.assistance (c : Cell α) : Option (Note × Frame α) :=
  match c.content with
  | .plain _ => none
  | .reserved h => some (.helpsHandoff h.slot, .settle c.stamp h)
  | .claimed d => some (.helpsOperation d.words.length, .drive d)

def Move.help (c : Cell α) (after : Frame α) : Move α :=
  match c.assistance with
  | none => .goto after
  | some (note, f) => ⟨[note], .call f after⟩

namespace Frame

def claimFrom (d : Descriptor α) : List (Word α) → Frame α
  | [] => .conclude d .commit
  | w :: rest => .check d w rest

def clearFrom (d : Descriptor α) (takesEffect : Bool) : List (Word α) → Next α
  | [] => .done (.flag takesEffect)
  | w :: rest => .goto (.clear d takesEffect w rest)

/-- The last phase, in which a slot that still holds the descriptor gets a plain value again. -/
def clearing (d : Descriptor α) : Verdict → Move α
  | .commit => ⟨[.enterCommit], clearFrom d true d.words⟩
  | _ => ⟨[.enterRollback], clearFrom d false d.words.reverse⟩

def clearedNote (takesEffect : Bool) (slot : Nat) : Note :=
  if takesEffect then .committed slot else .rolledBack slot

def released (h : Handoff α) : Verdict → Content α
  | .commit => .claimed h.operation
  | _ => .plain h.kept

variable [BEq α]

/-- The access that a frame is about to make. `fresh` is the stamp of whatever is made there. -/
def request (fresh : Stamp) : Frame α → Request α
  | get slot => .load slot fun c =>
    match c.content with
    | .plain v => .done (.value v)
    | _ => .help c (.get slot)
  | contents announced slot left seen => .load slot fun c =>
    match c.content, left with
    | .plain v, 0 => .done (.values (v :: seen).reverse)
    | .plain v, left + 1 =>
      ⟨Move.noteIf announced (.enterGet (slot + 1)),
        .goto (.contents announced (slot + 1) left (v :: seen))⟩
    | _, _ => .help c (.contents announced slot left seen)
  | set slot value => .load slot fun c =>
    match c.content with
    | .plain _ => .goto (.setOver slot value c)
    | _ => .help c (.set slot value)
  | setOver slot value found => .swap slot found ⟨fresh, .plain value⟩ fun won =>
    if won then .done .done else .goto (.set slot value)
  | cas slot expected content onward => .load slot fun c =>
    match c.content with
    | .plain v =>
      if v == expected then .goto (.casOver slot expected content onward c)
      else ⟨Move.noteIf onward.isSome (.mismatch slot), .done (.flag false)⟩
    | _ => .help c (.cas slot expected content onward)
  | casOver slot expected content onward found => .swap slot found ⟨fresh, content⟩ fun won =>
    match won, onward with
    | true, none => .done (.flag true)
    | true, some d => .goto (.drive d)
    | false, _ => .goto (.cas slot expected content onward)
  | drive d => .inspect d.stamp fun v =>
    match v with
    | .pending => ⟨[.enterClaim], .goto (claimFrom d d.others)⟩
    | v => clearing d v
  | check d word rest => .inspect d.stamp fun v =>
    match v with
    | .pending => .goto (.claim d word rest)
    | _ => .goto (.conclude d .abort)
  | claim d word rest => .load word.index fun c =>
    if c.isClaimedBy d then ⟨[.alreadyClaimed word.index], .goto (claimFrom d rest)⟩
    else match c.content with
      | .plain v =>
        if v == word.expected then .goto (.offer d word rest c.stamp v)
        else ⟨[.mismatch word.index], .goto (.conclude d .abort)⟩
      | _ => .help c (.check d word rest)
  | offer d word rest seen kept =>
    let h : Handoff α := ⟨d, word.index, kept⟩
    .swap word.index ⟨seen, .plain kept⟩ ⟨fresh, .reserved h⟩ fun won =>
      if won then ⟨[], .call (.settle fresh h) (.check d word rest)⟩
      else .goto (.check d word rest)
  | conclude d proposal => .propose d.stamp proposal fun won v =>
    let m := clearing d v
    ⟨Move.noteIf won (.decided proposal) ++ m.notes, m.next⟩
  | clear d takesEffect word rest => .load word.index fun c =>
    if c.isClaimedBy d then .goto (.clearOver d takesEffect word rest c.stamp)
    else ⟨[], clearFrom d takesEffect rest⟩
  | clearOver d takesEffect word rest seen =>
    .swap word.index ⟨seen, .claimed d⟩ ⟨fresh, .plain (word.target takesEffect)⟩ fun won =>
      ⟨Move.noteIf won (clearedNote takesEffect word.index), clearFrom d takesEffect rest⟩
  | settle ticket h => .inspect ticket fun v =>
    match v with
    | .pending => .goto (.weigh ticket h)
    | v => .goto (.release ticket h v)
  | weigh ticket h => .inspect h.operation.stamp fun v =>
    match v with
    | .pending => .goto (.rule ticket h .commit)
    | _ => .goto (.rule ticket h .abort)
  | rule ticket h proposal => .propose ticket proposal fun won v =>
    ⟨Move.noteIf won (.decided proposal), .goto (.release ticket h v)⟩
  | release ticket h v => .load h.slot fun c =>
    if c.isHandoff ticket then .goto (.releaseOver ticket h v)
    else .done (.flag (v == .commit))
  | releaseOver ticket h v =>
    .swap h.slot ⟨ticket, .reserved h⟩ ⟨fresh, released h v⟩ fun won =>
      ⟨Move.noteIf won (.handoffResolved h.slot v), .done (.flag (v == .commit))⟩

end Frame

end MultiSwap
