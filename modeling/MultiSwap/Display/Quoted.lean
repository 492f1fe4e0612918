import MultiSwap.Display.Extending
import MultiSwap.Display.Ignorable
import MultiSwap.Display.Unprintable

/-! Text in double quotes. A quote, a backslash and the four commonest control characters are
written with a backslash and a letter. Other characters that would not show, or would not stand
alone, are written as their code in hexadecimal. -/

namespace MultiSwap.Display

/-- A character is hidden if it prints nothing, may be passed over, or needs another before it. -/
def isHidden (c : Char) : Bool :=
  covers unprintable c.toNat || covers ignorable c.toNat || covers extending c.toNat

theorem isHidden_iff (c : Char) :
    isHidden c = true ↔
      ∃ r ∈ unprintable ++ ignorable ++ extending, r.1 ≤ c.toNat ∧ c.toNat ≤ r.2 := by
  simp only [isHidden, Bool.or_eq_true, covers_iff ascending_unprintable,
    covers_iff ascending_ignorable, covers_iff ascending_extending, List.mem_append, or_and_right,
    exists_or]

def escape (c : Char) : List Char :=
  match c with
  | '\t' => ['\\', 't']
  | '\r' => ['\\', 'r']
  | '\n' => ['\\', 'n']
  | '\x00' => ['\\', '0']
  | '"' => ['\\', '"']
  | '\\' => ['\\', '\\']
  | c => if isHidden c then ['\\', 'u', '\x7b'] ++ Nat.toDigits 16 c.toNat ++ ['\x7d'] else [c]

def quote (s : String) : String := String.ofList ('"' :: s.toList.flatMap escape ++ ['"'])

end MultiSwap.Display
