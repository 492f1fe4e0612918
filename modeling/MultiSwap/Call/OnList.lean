import MultiSwap.Call

/-! What the calls mean on a plain list of values, where each is carried out at once. An exchange
asks of every word that its slot hold the expected value, and then writes the desired values in call
order, so that of two words on one slot the later one stays. -/

namespace MultiSwap.Call

variable {α : Type}

def allHold [BEq α] (words : List (Word α)) (vs : List α) : Bool :=
  words.all fun w => vs[w.index]?.any (· == w.expected)

def writeAll (words : List (Word α)) (vs : List α) : List α :=
  words.foldl (fun vs w => vs.set w.index w.desired) vs

@[simp] theorem length_writeAll (words : List (Word α)) (vs : List α) :
    (writeAll words vs).length = vs.length := by
  induction words generalizing vs with
  | nil => rfl
  | cons w rest ih =>
    rw [writeAll, List.foldl_cons]
    exact (ih _).trans List.length_set

variable [BEq α]

def exchangeOnList (words : List (Word α)) (vs : List α) : List α × Result α :=
  if allHold words vs then (writeAll words vs, .flag true) else (vs, .flag false)

/-- A call that names no missing slot. -/
def enterOnList (vs : List α) : Call α → List α × Result α
  | len => (vs, .size vs.length)
  | isEmpty => (vs, .flag vs.isEmpty)
  | get slot => (vs, vs[slot]?.elim .done .value)
  | set slot value => (vs.set slot value, .done)
  | cas slot expected update => exchangeOnList [⟨slot, expected, update⟩] vs
  | mcas words => exchangeOnList words vs
  | contents _ => (vs, .values vs)

/-- The list after a call, and the answer to it. -/
def onList (vs : List α) (c : Call α) : List α × Result α :=
  match c.firstBeyond vs.length with
  | some e => (vs, .refused e)
  | none => c.enterOnList vs

theorem length_exchangeOnList (words : List (Word α)) (vs : List α) :
    (exchangeOnList words vs).1.length = vs.length := by
  unfold exchangeOnList
  split
  · exact length_writeAll words vs
  · rfl

theorem length_onList (vs : List α) (c : Call α) : (c.onList vs).1.length = vs.length := by
  unfold onList
  split
  · rfl
  · cases c with
    | set slot value => exact List.length_set
    | cas slot expected update => exact length_exchangeOnList _ vs
    | mcas words => exact length_exchangeOnList words vs
    | _ => rfl

end MultiSwap.Call
