/-! The text of structured values. A document says what a value is made of, and a style says how
that is written: on one line or with one part a line, and how numbers are. -/

namespace MultiSwap.Display

inductive Doc where
  | whole (bits : Nat) (value : Int)
  /-- A number whose digits are already chosen, with its sign apart. -/
  | decimal (negative : Bool) (digits : String)
  /-- A word that is filled up with blanks where numbers are filled up with zeros. -/
  | token (text : String)
  /-- Text that is written as it is in every style. -/
  | verbatim (text : String)
  | list (items : List Doc)
  | tuple (name : String) (items : List Doc)
  | record (name : String) (fields : List (String × Doc))
  deriving Repr

inductive Style where
  | plain
  | indented
  | hexadecimal
  | filled
  deriving DecidableEq, Repr

namespace Style

def width : Nat := 5

def signed (negative : Bool) (digits : String) : String :=
  if negative then "-" ++ digits else digits

/-- The zeros stand between the sign and the digits. -/
def zeroFilled (negative : Bool) (digits : String) : String :=
  let room := width - (if negative then 1 else 0) - digits.length
  signed negative (String.ofList (List.replicate room '0') ++ digits)

/-- Hexadecimal digits are those of the two's complement. -/
def whole (style : Style) (bits : Nat) (v : Int) : String :=
  let digits := toString v.natAbs
  match style with
  | plain | indented => signed (v < 0) digits
  | hexadecimal => String.ofList (Nat.toDigits 16 (v % Nat.pow 2 bits).toNat)
  | filled => zeroFilled (v < 0) digits

def decimal (style : Style) (negative : Bool) (digits : String) : String :=
  match style with
  | filled => zeroFilled negative digits
  | _ => signed negative digits

def token (style : Style) (text : String) : String :=
  match style with
  | filled => text ++ String.ofList (List.replicate (width - text.length) ' ')
  | _ => text

def indent (depth : Nat) : String := String.ofList (List.replicate (4 * depth) ' ')

/-- Parts between brackets. On one line the parts of a record stand off the brackets by a blank. -/
def group (style : Style) (depth : Nat) (opening gap closing : String) (parts : List String) :
    String :=
  match style, parts with
  | _, [] => opening ++ closing
  | indented, parts =>
    let lines := parts.map fun part => indent (depth + 1) ++ part ++ ",\n"
    opening ++ "\n" ++ String.join lines ++ indent depth ++ closing
  | _, parts => opening ++ gap ++ ", ".intercalate parts ++ gap ++ closing

end Style

namespace Doc

mutual

def render (style : Style) (depth : Nat) : Doc → String
  | whole bits v => style.whole bits v
  | decimal negative digits => style.decimal negative digits
  | token text => style.token text
  | verbatim text => text
  | list items => style.group depth "[" "" "]" (renderItems style (depth + 1) items)
  | tuple name items =>
    name ++ style.group depth "(" "" ")" (renderItems style (depth + 1) items)
  | record name fields =>
    name ++ style.group depth " \x7b" " " "\x7d" (renderFields style (depth + 1) fields)

def renderItems (style : Style) (depth : Nat) : List Doc → List String
  | [] => []
  | d :: rest => render style depth d :: renderItems style depth rest

def renderFields (style : Style) (depth : Nat) : List (String × Doc) → List String
  | [] => []
  | (name, d) :: rest => (name ++ ": " ++ render style depth d) :: renderFields style depth rest

end

def text (style : Style) (d : Doc) : String := d.render style 0

end Doc

class Shown (α : Type) where
  doc : α → Doc

export Shown (doc)

def textOf {α : Type} [Shown α] (style : Style) (a : α) : String := (doc a).text style

end MultiSwap.Display
