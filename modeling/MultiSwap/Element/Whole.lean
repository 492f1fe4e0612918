import MultiSwap.Display.Doc

/-! Integers that are kept in a number of bits. The width shows only in their hexadecimal text. -/

namespace MultiSwap.Element

structure Whole (bits : Nat) where
  value : Int
  deriving DecidableEq, Repr

instance {bits : Nat} : Display.Shown (Whole bits) := ⟨fun w => .whole bits w.value⟩

end MultiSwap.Element
