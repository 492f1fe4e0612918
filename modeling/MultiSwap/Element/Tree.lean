import MultiSwap.Display.Doc

/-! Trees without labels. -/

namespace MultiSwap.Element

inductive Tree where
  | node (children : List Tree)
  deriving Repr

namespace Tree

mutual

def beq : Tree → Tree → Bool
  | node as, node bs => beqAll as bs

def beqAll : List Tree → List Tree → Bool
  | [], [] => true
  | a :: as, b :: bs => beq a b && beqAll as bs
  | _, _ => false

end

instance : BEq Tree := ⟨beq⟩

mutual

def toDoc : Tree → Display.Doc
  | node children => .tuple "Tree" [.list (toDocs children)]

def toDocs : List Tree → List Display.Doc
  | [] => []
  | t :: rest => toDoc t :: toDocs rest

end

instance : Display.Shown Tree := ⟨toDoc⟩

end Tree

end MultiSwap.Element
