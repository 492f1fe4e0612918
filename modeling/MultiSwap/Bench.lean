import MultiSwap.Alone

/-! A bench on which descriptors and handoffs are put into slots by hand, as a thread leaves them
that stalls. What is put there has a name, and the cells can be looked at as they are. -/

namespace MultiSwap

variable {α : Type}

structure Bench (α : Type) where
  memory : Memory α
  strand : Strand α
  operations : List (String × Descriptor α)
  handoffs : List (String × Stamp × Handoff α)
  marks : List (String × Cell α)

namespace Bench

inductive Command (α : Type) where
  | get (slot : Nat)
  | set (slot : Nat) (value : α)
  | cas (slot : Nat) (expected update : α)
  | mcas (words : List (Word α))
  | prepare (name : String) (words : List (Word α))
  | verdict (name : String)
  | decide (name : String) (proposal : Verdict)
  | words (name : String)
  | describe (name : String)
  | drive (name : String)
  | install (slot : Nat) (expected : α) (name : String)
  /-- Puts a handoff for the operation `name` into a slot that holds the expected value. -/
  | reserve (handoff : String) (slot : Nat) (expected : α) (name : String) (kept : α)
  | settle (handoff : String)
  | help (slot : Nat)
  | holdsOperation (slot : Nat) (name : String)
  | holdsHandoff (slot : Nat) (handoff : String)
  | mark (name : String) (slot : Nat)
  | replace (slot : Nat) (name : String) (value : α)
  deriving Repr

/-- `unknown` names something that is not on the bench, and `unfinished` is the reply to work that
turns in a circle. -/
inductive Reply (α : Type) where
  | result (r : Result α)
  | verdict (v : Verdict)
  | words (ws : List (Word α))
  | operation (d : Descriptor α) (v : Verdict)
  | unknown (name : String)
  | unfinished
  deriving Repr

/-- What can be seen of a cell from outside. Names are missing for what has none. -/
inductive Sight (α : Type) where
  | value (v : α)
  | operation (name : Option String) (v : Verdict)
  | handoff (name : Option String) (slot : Nat)
  deriving Repr

def ofValues (values : Array α) : Bench α := ⟨.ofValues values, .new 1, [], [], []⟩

def see (b : Bench α) (c : Cell α) : Sight α :=
  match c.content with
  | .plain v => .value v
  | .claimed d =>
    .operation ((b.operations.find? fun named => named.2.stamp = d.stamp).map (·.1))
      (b.memory.verdict d.stamp)
  | .reserved h => .handoff ((b.handoffs.find? fun named => named.2.1 = c.stamp).map (·.1)) h.slot

def sights (b : Bench α) : List (Sight α) := b.memory.slots.toList.map b.see

abbrev Outcome (α : Type) := Bench α × Reply α × List Note

def reply (b : Bench α) (r : Reply α) (notes : List Note) : Outcome α := (b, r, notes)

def answer (b : Bench α) (r : Result α) : Outcome α := b.reply (.result r) []

/-- Names `x`. What had the name before loses it. -/
def bind {β : Type} (items : List (String × β)) (name : String) (x : β) : List (String × β) :=
  (name, x) :: items.filter fun named => named.1 != name

def lookUp {β : Type} (b : Bench α) (items : List (String × β)) (name : String)
    (onward : β → Outcome α) : Outcome α :=
  match items.lookup name with
  | none => b.reply (.unknown name) []
  | some x => onward x

def withCell (b : Bench α) (slot : Nat) (onward : Cell α → Outcome α) : Outcome α :=
  match b.memory.slots[slot]? with
  | none => b.answer (.broken (.noSuchSlot b.memory.size slot))
  | some c => onward c

variable [BEq α]

def carryOut (b : Bench α) (m : Move α) : Outcome α :=
  let others := b.operations.length + b.handoffs.length
  let r := (Report.ofTurn (b.strand.follow b.memory [] m m.noted)).finish others
  reply { b with memory := r.memory, strand := r.strand }
    (r.answer.elim .unfinished .result) r.notes

/-- Keeps the handoff that was just put into a slot, if it was. -/
def nameHandoff (name : String) (slot : Nat) : Outcome α → Outcome α
  | (b, .result (.flag true), notes) =>
    match b.memory.slots[slot]? with
    | some ⟨stamp, .reserved h⟩ =>
      ({ b with handoffs := bind b.handoffs name (stamp, h) }, .result (.flag true), notes)
    | _ => (b, .result (.flag true), notes)
  | o => o

def execute (b : Bench α) : Command α → Outcome α
  | .get slot => b.carryOut (.goto (.get slot))
  | .set slot value => b.carryOut (.goto (.set slot value))
  | .cas slot expected update => b.carryOut (.goto (.cas slot expected (.plain update) none))
  | .mcas words => b.carryOut (.exchangeAll b.strand.fresh words)
  | .prepare name words =>
    match Descriptor.ofWords b.strand.fresh words with
    | .error breach => b.answer (.broken breach)
    | .ok d =>
      answer { b with strand := b.strand.advance [], operations := bind b.operations name d } .done
  | .verdict name => b.lookUp b.operations name fun d =>
    b.reply (.verdict (b.memory.verdict d.stamp)) []
  | .decide name proposal => b.lookUp b.operations name fun d =>
    let notes := Note.ofProposal (b.memory.verdict d.stamp) proposal
    let memory := b.memory.propose d.stamp proposal
    reply { b with memory := memory } (.verdict (memory.verdict d.stamp)) notes
  | .words name => b.lookUp b.operations name fun d => b.reply (.words d.words) []
  | .describe name => b.lookUp b.operations name fun d =>
    b.reply (.operation d (b.memory.verdict d.stamp)) []
  | .drive name => b.lookUp b.operations name fun d => b.carryOut (.goto (.drive d))
  | .install slot expected name => b.lookUp b.operations name fun d =>
    b.carryOut (.goto (.cas slot expected (.claimed d) none))
  | .reserve handoff slot expected name kept => b.lookUp b.operations name fun d =>
    nameHandoff handoff slot
      (b.carryOut (.goto (.cas slot expected (.reserved ⟨d, slot, kept⟩) none)))
  | .settle handoff => b.lookUp b.handoffs handoff fun (ticket, h) =>
    b.carryOut (.goto (.settle ticket h))
  | .help slot => b.withCell slot fun c =>
    match c.assistance with
    | none => b.answer .done
    | some (note, f) =>
      match b.carryOut ⟨[note], .goto f⟩ with
      | (b', .result (.flag _), notes) => (b', .result .done, notes)
      | o => o
  | .holdsOperation slot name => b.lookUp b.operations name fun d => b.withCell slot fun c =>
    b.answer (.flag (c.isClaimedBy d))
  | .holdsHandoff slot handoff => b.lookUp b.handoffs handoff fun (ticket, _) =>
    b.withCell slot fun c => b.answer (.flag (c.isHandoff ticket))
  | .mark name slot => b.withCell slot fun c =>
    answer { b with marks := bind b.marks name c } .done
  | .replace slot name value => b.lookUp b.marks name fun old => b.withCell slot fun c =>
    if c.stamp = old.stamp then
      let new : Cell α := ⟨b.strand.fresh, .plain value⟩
      answer { b with strand := b.strand.advance [], memory := b.memory.place slot new }
        (.flag true)
    else b.answer (.flag false)

end Bench

end MultiSwap
