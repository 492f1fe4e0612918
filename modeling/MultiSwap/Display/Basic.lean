import MultiSwap.Display.Doc
import MultiSwap.Display.Quoted

/-! The texts of truth values, strings, optional values and lists. -/

namespace MultiSwap.Display

instance : Shown Bool := ⟨fun b => .token (if b then "true" else "false")⟩

instance : Shown Unit := ⟨fun _ => .token "()"⟩

instance : Shown String := ⟨fun s => .verbatim (quote s)⟩

instance {α : Type} [Shown α] : Shown (Option α) :=
  ⟨fun
    | none => .verbatim "None"
    | some a => .tuple "Some" [doc a]⟩

instance {α : Type} [Shown α] : Shown (List α) := ⟨fun as => .list (as.map doc)⟩

end MultiSwap.Display
