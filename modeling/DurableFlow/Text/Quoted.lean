/-
Text in quotes, as messages show it.

Quotes of both kinds and backslashes get a backslash in front, a few control
characters are written as letters behind one, and any other character that cannot
be shown is written as its number.
-/
import DurableFlow.Text.Printable

set_option autoImplicit false

namespace DurableFlow.Text

/-- The letter that stands for a character behind a backslash. -/
def escapeLetter? (c : Char) : Option Char :=
  if c = '\x00' then some '0'
  else if c = '\t' then some 't'
  else if c = '\r' then some 'r'
  else if c = '\n' then some 'n'
  else if c = '\x22' ∨ c = '\x27' ∨ c = '\x5c' then some c
  else none

/-- A character that cannot be shown: its number in braces, in base sixteen. -/
def numbered (c : Char) : List Char :=
  ['\x5c', 'u', '\x7b'] ++ (Nat.toDigits 16 c.toNat) ++ ['\x7d']

/-- What a character is written as inside quotes. -/
def escaped (c : Char) : List Char :=
  match escapeLetter? c with
  | some letter => ['\x5c', letter]
  | none => if isPrintable c then [c] else numbered c

/-- **A text in quotes.** -/
def quoted (text : String) : String :=
  "\x22" ++ String.ofList (text.toList.flatMap escaped) ++ "\x22"

end DurableFlow.Text
