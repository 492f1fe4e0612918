import MultiSwap.Display.Basic
import MultiSwap.Element.Whole

/-! Records that are compared by their key alone. -/

namespace MultiSwap.Element

structure Keyed where
  key : Whole 32
  tag : String
  deriving Repr

instance : BEq Keyed := ⟨fun a b => a.key == b.key⟩

instance : Display.Shown Keyed :=
  ⟨fun a => .record "Keyed" [("k", Display.doc a.key), ("t", Display.doc a.tag)]⟩

end MultiSwap.Element
