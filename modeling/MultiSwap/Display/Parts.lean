import MultiSwap.Cell
import MultiSwap.Call
import MultiSwap.Verdict
import MultiSwap.Display.Doc

/-! The texts of words, descriptors, verdicts and refusals. Slots and lengths are written as
integers of 64 bits, a verdict as its code of 8 bits. -/

namespace MultiSwap

open Display

variable {α : Type} [Shown α]

def sizeDoc (n : Nat) : Doc := .whole 64 n

instance : Shown (Word α) :=
  ⟨fun w => .record "CasnWord"
    [("index", sizeDoc w.index), ("expected", doc w.expected), ("desired", doc w.desired)]⟩

instance : Shown OutOfBounds :=
  ⟨fun e => .record "IndexOutOfBounds" [("index", sizeDoc e.index), ("len", sizeDoc e.len)]⟩

instance : Shown Verdict := ⟨fun v => .record "AtomicOutcome" [("raw", .whole 8 v.code)]⟩

/-- A descriptor is shown with the verdict on it. -/
def Descriptor.doc (d : Descriptor α) (v : Verdict) : Doc :=
  .record "CasnDescriptor" [("words", .list (d.words.map Shown.doc)), ("outcome", Shown.doc v)]

end MultiSwap
