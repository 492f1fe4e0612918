import MultiSwap.Display.Basic

/-! Text that is compared without regard to the case of the letters A to Z. The case of all other
letters counts. -/

namespace MultiSwap.Element

structure Caseless where
  text : String
  deriving Repr

namespace Caseless

/-- The characters, with A to Z in lower case. -/
def folded (s : Caseless) : List Char := s.text.toList.map Char.toLower

instance : BEq Caseless := ⟨fun s t => s.folded == t.folded⟩

instance : Display.Shown Caseless := ⟨fun s => .tuple "Ci" [Display.doc s.text]⟩

end Caseless

end MultiSwap.Element
