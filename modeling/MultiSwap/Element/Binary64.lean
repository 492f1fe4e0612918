import MultiSwap.Decimal.Layout
import MultiSwap.Display.Doc

/-! Doubles, kept as their 64 bits. Equality is that of numbers: the zeros are equal, and what is no
number differs from everything, itself included. So equal doubles need not be the same bits, and the
same bits need not be equal. -/

namespace MultiSwap.Element

structure Binary64 where
  bits : UInt64
  deriving Repr

namespace Binary64

def isNegative (x : Binary64) : Bool := x.bits >>> 63 == 1

def exponentField (x : Binary64) : Nat := ((x.bits >>> 52) &&& 0x7FF).toNat

def fractionField (x : Binary64) : Nat := (x.bits &&& 0xFFFFFFFFFFFFF).toNat

def isNaN (x : Binary64) : Bool := x.exponentField == 0x7FF && x.fractionField != 0

def isInfinite (x : Binary64) : Bool := x.exponentField == 0x7FF && x.fractionField == 0

def isZero (x : Binary64) : Bool := x.exponentField == 0 && x.fractionField == 0

instance : BEq Binary64 where
  beq x y := !x.isNaN && !y.isNaN && (x.bits == y.bits || x.isZero && y.isZero)

theorem beq_iff (x y : Binary64) : (x == y) = true ↔ x.isNaN = false ∧ y.isNaN = false ∧
    (x.bits = y.bits ∨ x.isZero = true ∧ y.isZero = true) := by
  simp [BEq.beq, and_assoc]

theorem eq_of_bits {x y : Binary64} (h : x.bits = y.bits) : x = y := by
  cases x
  cases y
  exact congrArg mk h

/-- Doubles that equal the same one are equal, and numbers equal themselves. -/
instance : PartialEquivBEq Binary64 where
  symm h := by
    rw [beq_iff] at h ⊢
    exact ⟨h.2.1, h.1, h.2.2.imp Eq.symm And.symm⟩
  trans {x y z} h h' := by
    rw [beq_iff] at h h' ⊢
    refine ⟨h.1, h'.2.1, ?_⟩
    rcases h.2.2 with hb | ⟨hx, hy⟩
    · rw [eq_of_bits hb]
      exact h'.2.2
    · rcases h'.2.2 with hb | ⟨-, hz⟩
      · rw [← eq_of_bits hb]
        exact Or.inr ⟨hx, hy⟩
      · exact Or.inr ⟨hx, hz⟩

def magnitude (x : Binary64) : Decimal.Magnitude :=
  let e := x.exponentField
  let significand := if e = 0 then x.fractionField else 0x10000000000000 + x.fractionField
  let gap := Nat.pow 2 (e - 1)
  { units := significand * gap
    gap := gap
    narrow := x.fractionField == 0 && 1 < e
    ownsEnds := significand % 2 == 0 }

def digits (x : Binary64) : String :=
  if x.isInfinite then "inf"
  else if x.isZero then "0.0"
  else x.magnitude.shortest.text Decimal.layout

/-- What is no number is shown without a sign. -/
instance : Display.Shown Binary64 :=
  ⟨fun x => if x.isNaN then .decimal false "NaN" else .decimal x.isNegative x.digits⟩

example : Display.textOf .plain (⟨0x8000000000000000⟩ : Binary64) = "-0.0" := by decide +kernel

example : Display.textOf .plain (⟨0x444B1AE4D6E2EF50⟩ : Binary64) = "1e21" := by decide +kernel

example : Display.textOf .plain (⟨0x3E60000000000000⟩ : Binary64) = "2.9802322387695313e-8" := by
  decide +kernel

end Binary64

end MultiSwap.Element
