/-
Writing JSON.

A value is laid out on one line without blanks, or with every item and member on
a line of its own, two blanks further in than what it belongs to. It is written
in front of the text that follows it, so that writing takes time in proportion to
the text and "what was written, then the rest" is the form in which reading is
stated.

Inside a string only the quote, the backslash and the control characters are
escaped. A double is written with the fewest digits that read back, a tie going
to the even one, positionally between `1e-5` and `1e16` and with `.0` when whole.
-/
import DurableFlow.Json.Basic
import DurableFlow.Number.Shortest

set_option autoImplicit false

open DurableFlow.Number

namespace DurableFlow.Json

def quote : Char := '\x22'

def backslash : Char := '\x5c'

/-- How a character is written inside a string. -/
def escapeChar (c : Char) : List Char :=
  if c = quote then [backslash, quote]
  else if c = backslash then [backslash, backslash]
  else if c = '\n' then [backslash, 'n']
  else if c = '\r' then [backslash, 'r']
  else if c = '\t' then [backslash, 't']
  else if c = '\x08' then [backslash, 'b']
  else if c = '\x0c' then [backslash, 'f']
  else if c.toNat < 32 then backslash :: 'u' :: hexDigits 4 c.toNat
  else [c]

/-- A string in quotes, in front of `rest`. -/
def writeString (s : String) (rest : List Char) : List Char :=
  quote :: s.toList.foldr (fun c acc => escapeChar c ++ acc) (quote :: rest)

/-- The text of a positive decimal in a JSON number. -/
def decimalText (d : Decimal) : List Char :=
  let point := (Decimal.digitText d.digits).length + d.exponent
  if 0 ≤ d.exponent ∧ point ≤ 16 then d.positional ++ ['.', '0']
  else if -5 < point ∧ point ≤ 16 then d.positional
  else d.scientific

/-- The text of a finite double; one that is not finite is written as null. -/
def floatText (x : Float) : List Char :=
  match decode x with
  | .finite negative m q =>
    (if negative then ['-'] else []) ++
      (if m = 0 then ['0', '.', '0'] else decimalText (Decimal.shortest .even m q))
  | _ => "null".toList

def numberText : Json.Number → List Char
  | .int n => (if n < 0 then ['-'] else []) ++ Decimal.digitText n.natAbs
  | .float x => floatText x

/-! ## Values -/

/-- How a value is laid out. -/
inductive Layout where
  /-- On one line, without blanks. -/
  | compact
  /-- With every item and member on a line of its own. -/
  | indented
deriving DecidableEq, Inhabited

/-- Starts a line at a depth of nesting, in front of `rest`. -/
def Layout.startLine (layout : Layout) (depth : Nat) (rest : List Char) : List Char :=
  match layout with
  | .compact => rest
  | .indented => '\n' :: (List.replicate (2 * depth) ' ' ++ rest)

/-- What stands between a name and its value, in front of `rest`. -/
def Layout.colon (layout : Layout) (rest : List Char) : List Char :=
  match layout with
  | .compact => ':' :: rest
  | .indented => ':' :: ' ' :: rest

mutual

/-- Writes a value that is nested so deep in front of `rest`. -/
def write (layout : Layout) (depth : Nat) : Json → List Char → List Char
  | .null, rest => 'n' :: 'u' :: 'l' :: 'l' :: rest
  | .bool true, rest => 't' :: 'r' :: 'u' :: 'e' :: rest
  | .bool false, rest => 'f' :: 'a' :: 'l' :: 's' :: 'e' :: rest
  | .num n, rest => numberText n ++ rest
  | .str s, rest => writeString s rest
  | .arr [], rest => '[' :: ']' :: rest
  | .arr (item :: items), rest =>
    '[' :: layout.startLine (depth + 1)
      (write layout (depth + 1) item (writeItems layout depth items rest))
  | .obj [], rest => '\x7b' :: '\x7d' :: rest
  | .obj ((name, value) :: members), rest =>
    '\x7b' :: layout.startLine (depth + 1) (writeString name (layout.colon
      (write layout (depth + 1) value (writeMembers layout depth members rest))))

/-- Writes the further items of an array at this depth and its end. -/
def writeItems (layout : Layout) (depth : Nat) : List Json → List Char → List Char
  | [], rest => layout.startLine depth (']' :: rest)
  | item :: items, rest =>
    ',' :: layout.startLine (depth + 1)
      (write layout (depth + 1) item (writeItems layout depth items rest))

/-- Writes the further members of an object at this depth and its end. -/
def writeMembers (layout : Layout) (depth : Nat) : List (String × Json) → List Char → List Char
  | [], rest => layout.startLine depth ('\x7d' :: rest)
  | (name, value) :: members, rest =>
    ',' :: layout.startLine (depth + 1) (writeString name (layout.colon
      (write layout (depth + 1) value (writeMembers layout depth members rest))))

end

/-- The text of a value. -/
def render (layout : Layout) (json : Json) : String :=
  String.ofList (write layout 0 json [])

end DurableFlow.Json
