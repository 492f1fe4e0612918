import MultiSwap.Proofs.Service

/-! What calls do to a list of values while nobody else is at work, whatever their equality is. An
exchange of several slots writes into each slot that it claimed: the desired value if all its words
hold, else the expected one, which is equal to the value that was there but need not be the same. -/

namespace MultiSwap

variable {α : Type}

/-- The word that leaves behind what `w` does, by whether its exchange takes effect. -/
def Word.leaving (takesEffect : Bool) (w : Word α) : Word α :=
  { w with desired := w.target takesEffect }

@[simp] theorem Word.index_leaving (b : Bool) (w : Word α) : (w.leaving b).index = w.index := rfl

namespace Call

variable [BEq α]

def leading (ws : List (Word α)) (vs : List α) : List (Word α) := ws.takeWhile fun w => holds w vs

def exchangeAlone (ws : List (Word α)) (vs : List α) : List α × Result α :=
  match Word.merge? ws with
  | none => (vs, .flag false)
  | some ms =>
    let takesEffect := allHold ms vs
    (writeAll ((leading ms vs).map (Word.leaving takesEffect)) vs, .flag takesEffect)

/-- The values after a call that no other call meets, and the answer to it. -/
def alone (vs : List α) (c : Call α) : List α × Result α :=
  match c.firstBeyond vs.length, c.exchange? with
  | none, some ws => exchangeAlone ws vs
  | _, _ => c.onList vs

theorem alone_of_exchange {vs : List α} {c : Call α} {ws : List (Word α)}
    (hb : c.firstBeyond vs.length = none) (hc : c.exchange? = some ws) :
    c.alone vs = exchangeAlone ws vs := by
  simp only [alone, hb, hc]

theorem alone_of_exchange?_none {vs : List α} {c : Call α} (hc : c.exchange? = none) :
    c.alone vs = c.onList vs := by
  unfold alone
  rw [hc]
  cases c.firstBeyond vs.length <;> rfl

theorem alone_of_refused {vs : List α} {c : Call α} {e : OutOfBounds}
    (hb : c.firstBeyond vs.length = some e) : c.alone vs = (vs, .refused e) := by
  simp only [alone, onList, hb]

theorem length_exchangeAlone (ws : List (Word α)) (vs : List α) :
    (exchangeAlone ws vs).1.length = vs.length := by
  unfold exchangeAlone
  cases Word.merge? ws with
  | none => rfl
  | some ms => exact length_writeAll _ vs

theorem length_alone (vs : List α) (c : Call α) : (c.alone vs).1.length = vs.length := by
  unfold alone
  split
  · exact length_exchangeAlone _ vs
  · exact length_onList vs c

section

variable {ws ms : List (Word α)} {w : Word α} {vs : List α}

theorem exchangeAlone_of_merge? (h : Word.merge? ws = some ms) :
    exchangeAlone ws vs = (writeAll ((leading ms vs).map (Word.leaving (allHold ms vs))) vs,
      .flag (allHold ms vs)) := by
  rw [exchangeAlone, h]

theorem exchangeAlone_of_merge?_none (h : Word.merge? ws = none) :
    exchangeAlone ws vs = (vs, .flag false) := by
  rw [exchangeAlone, h]

theorem leading_cons_of_holds (h : holds w vs = true) :
    leading (w :: ws) vs = w :: leading ws vs := by
  simp [leading, h]

theorem leading_cons_of_misses (h : holds w vs = false) : leading (w :: ws) vs = [] := by
  simp [leading, h]

theorem leading_sublist (ws : List (Word α)) (vs : List α) : (leading ws vs).Sublist ws :=
  List.takeWhile_sublist _

theorem leading_of_allHold (h : allHold ws vs = true) : leading ws vs = ws := by
  induction ws with
  | nil => rfl
  | cons w rest ih =>
    rw [allHold_cons, Bool.and_eq_true] at h
    rw [leading_cons_of_holds h.1, ih h.2]

end

end Call

end MultiSwap
