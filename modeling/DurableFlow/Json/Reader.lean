/-
Reading JSON.

The reader accepts one value with blanks around it and gives it as a document;
what is nested more than 127 deep is well formed but not usable. A number without
a point or an exponent is an integer when it fits a signed or unsigned 64-bit
word. Any other number is the quotient or product of a significand of at most 64
bits and one power of ten, each rounded to a double: further digits of a longer
significand only shift the exponent, and a number beyond the largest double is not
usable. Minus zero is a double.
-/
import DurableFlow.Json.Document
import DurableFlow.Json.Printer

set_option autoImplicit false

open DurableFlow.Number

namespace DurableFlow.Json

/-- The deepest nesting of arrays and objects that is usable. -/
def maxDepth : Nat := 127

def isBlank (c : Char) : Bool :=
  c = ' ' || c = '\n' || c = '\t' || c = '\r'

def skipBlanks (input : List Char) : List Char :=
  input.dropWhile isBlank

def isDigit (c : Char) : Bool := '0' ≤ c && c ≤ '9'

def digitValue (c : Char) : Nat := c.toNat - 48

/-! ## Numbers -/

/-- Largest significand that is kept digit by digit. -/
def maxSignificand : Nat := Nat.pow 2 64 - 1

/-- Appends digits to a significand while it fits: the significand and the digits left over. -/
def accumulate : Nat → List Char → Nat × List Char
  | significand, [] => (significand, [])
  | significand, c :: rest =>
    let next := significand * 10 + digitValue c
    if next ≤ maxSignificand then accumulate next rest else (significand, c :: rest)

/-- Largest power of ten that is a double. -/
def maxPower : Nat := 308

def powerOfTen (n : Nat) : Float := Float.ofScientific 1 false n

/-- The double `x · 10^exponent`, dividing or multiplying by one power of ten at a time. -/
def scaleByTen : Nat → Float → Int → Option Float
  | 0, _, _ => none
  | fuel + 1, x, exponent =>
    if exponent.natAbs ≤ maxPower then
      if 0 ≤ exponent then
        let y := x * powerOfTen exponent.toNat
        if isFinite y then some y else none
      else some (x / powerOfTen (-exponent).toNat)
    else if x == 0.0 then some x
    else if 0 ≤ exponent then none
    else scaleByTen fuel (x / powerOfTen maxPower) (exponent + maxPower)

/-- The double of a significand and a decimal exponent. After three divisions by the largest
power of ten every significand has become zero. -/
def floatOfParts (significand : Nat) (exponent : Int) : Option Float :=
  scaleByTen 8 significand.toUInt64.toFloat exponent

/-- Largest exponent that is counted; beyond it only its sign matters. -/
def maxExponent : Nat := Nat.pow 2 31 - 1

def natOfDigits (digits : List Char) : Nat :=
  digits.foldl (fun n c => 10 * n + digitValue c) 0

/-- The exponent part of a number: its sign, its digits and the rest of the input; without
one, nothing. -/
def exponentPart (input : List Char) : Option (Option (Bool × List Char) × List Char) :=
  match input with
  | c :: rest =>
    if c = 'e' ∨ c = 'E' then
      let (negative, rest) := match rest with
        | '+' :: more => (false, more)
        | '-' :: more => (true, more)
        | more => (false, more)
      let digits := rest.takeWhile isDigit
      if digits.isEmpty then none
      else some (some (negative, digits), rest.dropWhile isDigit)
    else some (none, input)
  | [] => some (none, input)

/-- The fraction digits of a number, at least one after a point. -/
def fractionPart (input : List Char) : Option (Option (List Char) × List Char) :=
  match input with
  | '.' :: rest =>
    let digits := rest.takeWhile isDigit
    if digits.isEmpty then none else some (some digits, rest.dropWhile isDigit)
  | _ => some (none, input)

/-- An integer that fits a word, with its sign; minus zero and larger ones are doubles. -/
def integerNumber (negative : Bool) (significand : Nat) : Json.Number :=
  if negative then
    if 0 < significand ∧ significand ≤ Nat.pow 2 63 then .int (-(significand : Int))
    else .float (-significand.toUInt64.toFloat)
  else .int significand

/-- A number with a fraction, an exponent or too many digits. -/
def fractionalNumber (negative : Bool) (whole fraction : List Char)
    (power : Option (Bool × List Char)) : Option Json.Number := do
  let (significand, dropped) := accumulate 0 whole
  let (significand, unused) := accumulate significand fraction
  -- dropped digits count as zeros, digits of the fraction move the point
  let shift : Int := dropped.length - (fraction.length - unused.length : Nat)
  let magnitude ← match power with
    | none => floatOfParts significand shift
    | some (down, digits) =>
      let n := natOfDigits digits
      if n ≤ maxExponent then
        floatOfParts significand (if down then shift - n else shift + n)
      -- the exponent alone decides: beyond every double, or nearer to zero than any
      else if significand ≠ 0 ∧ !down then none
      else some 0.0
  return .float (if negative then -magnitude else magnitude)

/-- Reads a number, which has no value when it is too large. A leading zero stands alone. -/
def readNumber (input : List Char) : Option (Option Json.Number × List Char) := do
  let (negative, input) := match input with
    | '-' :: rest => (true, rest)
    | rest => (false, rest)
  let whole := match input with
    | '0' :: _ => ['0']
    | _ => input.takeWhile isDigit
  let rest := input.drop whole.length
  if whole.isEmpty || (whole == ['0'] && (rest.head?.any isDigit)) then failure
  let (fraction, rest) ← fractionPart rest
  let (power, rest) ← exponentPart rest
  let (significand, dropped) := accumulate 0 whole
  -- digits that did not fit make it a double
  if fraction.isNone && power.isNone && dropped.isEmpty then
    return (some (integerNumber negative significand), rest)
  return (fractionalNumber negative whole (fraction.getD []) power, rest)

/-! ## Strings -/

/-- The number of four hexadecimal digits. -/
def readHex4 : List Char → Option (Nat × List Char)
  | a :: b :: c :: d :: rest => do return (← ofHex? [a, b, c, d], rest)
  | _ => none

def isHighHalf (n : Nat) : Bool := 0xD800 ≤ n && n ≤ 0xDBFF

def isLowHalf (n : Nat) : Bool := 0xDC00 ≤ n && n ≤ 0xDFFF

/-- The second half of a pair, as an escape of its own. -/
def readLowHalf : List Char → Option (Nat × List Char)
  | b :: 'u' :: rest => if b = backslash then (readHex4 rest).filter (isLowHalf ·.1) else none
  | _ => none

/-- The character of an escape, behind its letter. The halves of a pair stand for one character
together and for none alone. -/
def readUnicode (input : List Char) : Option (Option Char × List Char) := do
  let (first, rest) ← readHex4 input
  if isHighHalf first then
    match readLowHalf rest with
    | some (second, rest) =>
      return (some (Char.ofNat (0x10000 + (first - 0xD800) * 0x400 + (second - 0xDC00))), rest)
    | none => return (none, rest)
  else if isLowHalf first then return (none, rest)
  else return (some (Char.ofNat first), rest)

/-- The character that a one-letter escape stands for. -/
def simpleEscape? (c : Char) : Option Char :=
  if c = quote then some quote
  else if c = backslash then some backslash
  else if c = '/' then some '/'
  else if c = 'b' then some '\x08'
  else if c = 'f' then some '\x0c'
  else if c = 'n' then some '\n'
  else if c = 'r' then some '\r'
  else if c = 't' then some '\t'
  else none

/-- Reads the characters of a string up to its closing quote, in front of those that were read,
if these are known. One unit of fuel for each character of the input is enough. -/
def readChars : Nat → Option (List Char) → List Char → Option (Option String × List Char)
  | 0, _, _ => none
  | _ + 1, _, [] => none
  | fuel + 1, acc, c :: rest =>
    if c = quote then some (acc.map fun cs => String.ofList cs.reverse, rest)
    else if c = backslash then
      match rest with
      | [] => none
      | e :: more =>
        if e = 'u' then
          match readUnicode more with
          | none => none
          | some (d, more) => readChars fuel (do return (← d) :: (← acc)) more
        else
          match simpleEscape? e with
          | none => none
          | some d => readChars fuel (acc.map (d :: ·)) more
    -- control characters are only written as escapes
    else if c.toNat < 32 then none
    else readChars fuel (acc.map (c :: ·)) rest

/-- Reads a string in quotes, which has no value when half of a pair stands alone in it. -/
def readString (fuel : Nat) (input : List Char) : Option (Option String × List Char) :=
  match input with
  | c :: rest => if c = quote then readChars fuel (some []) rest else none
  | [] => none

/-- Reads the name of a member. It is written without escapes when the input starts with the same
characters in quotes. -/
def readName (fuel : Nat) (input : List Char) : Option (Option Document.Name × List Char) :=
  (readString fuel input).map fun (text, rest) =>
    (text.map fun text => ⟨text, (quote :: text.toList ++ [quote]).isPrefixOf input⟩, rest)

/-! ## Values -/

/-- Removes `word` from the front of the input. -/
def readWord : List Char → List Char → Option (List Char)
  | [], input => some input
  | c :: word, d :: input => if c = d then readWord word input else none
  | _ :: _, [] => none

/-- A document where so many more levels may be nested. -/
def within (depth : Nat) (d : Document) : Document :=
  if depth = 0 then .unusable else d

/-- An object of members in reverse order, if their names are known. -/
def objectOf (members : Option (List (Document.Name × Document))) : Document :=
  match members with
  | some members => .obj members.reverse
  | none => .unusable

mutual

/-- Reads one value at the given remaining depth, after any blanks. Two units of fuel for each
character of the input are enough. -/
def readValue : Nat → Nat → List Char → Option (Document × List Char)
  | 0, _, _ => none
  | fuel + 1, depth, input =>
    match skipBlanks input with
    | 'n' :: rest => (readWord "ull".toList rest).map (Document.null, ·)
    | 't' :: rest => (readWord "rue".toList rest).map (Document.bool true, ·)
    | 'f' :: rest => (readWord "alse".toList rest).map (Document.bool false, ·)
    | '\x22' :: rest =>
      (readString fuel (quote :: rest)).map fun r => (r.1.elim .unusable .str, r.2)
    | '[' :: rest =>
      match skipBlanks rest with
      | ']' :: more => some (within depth (.arr []), more)
      | more =>
        (readItems fuel (depth - 1) [] more).map fun r => (within depth (.arr r.1), r.2)
    | '\x7b' :: rest =>
      match skipBlanks rest with
      | '\x7d' :: more => some (within depth (.obj []), more)
      | more =>
        (readMembers fuel (depth - 1) (some []) more).map fun r => (within depth r.1, r.2)
    | more => (readNumber more).map fun r => (r.1.elim .unusable .num, r.2)

/-- Reads the items of an array up to its end. -/
def readItems : Nat → Nat → List Document → List Char → Option (List Document × List Char)
  | 0, _, _, _ => none
  | fuel + 1, depth, acc, input =>
    match readValue fuel depth input with
    | none => none
    | some (item, rest) =>
      match skipBlanks rest with
      | ',' :: more => readItems fuel depth (item :: acc) more
      | ']' :: more => some ((item :: acc).reverse, more)
      | _ => none

/-- Reads the members of an object up to its end. -/
def readMembers : Nat → Nat → Option (List (Document.Name × Document)) → List Char →
    Option (Document × List Char)
  | 0, _, _, _ => none
  | fuel + 1, depth, acc, input =>
    match readName fuel (skipBlanks input) with
    | none => none
    | some (name, rest) =>
      match skipBlanks rest with
      | ':' :: more =>
        match readValue fuel depth more with
        | none => none
        | some (value, rest) =>
          -- one unusable name makes the object unusable; its end is looked for all the same
          let acc := do return (← name, value) :: (← acc)
          match skipBlanks rest with
          | ',' :: more => readMembers fuel depth acc more
          | '\x7d' :: more => some (objectOf acc, more)
          | _ => none
      | _ => none

end

/-- **The document of a JSON text.** -/
def document? (text : String) : Option Document := do
  let input := text.toList
  let (document, rest) ← readValue (2 * input.length + 2) maxDepth input
  if (skipBlanks rest).isEmpty then return document else failure

/-- The value of a JSON text. -/
def parse? (text : String) : Option Json := do (← document? text).json?

/-! ## Places inside a value -/

/-- The steps of a pointer: the names between slashes, with `~1` for a slash and `~0` for a
tilde. The empty pointer is the whole value; any other starts with a slash. -/
def pointerSteps? (pointer : String) : Option (List String) :=
  if pointer.isEmpty then some []
  else
    match pointer.splitOn "/" with
    -- in this order, so that `~01` is `~1`
    | "" :: steps => some (steps.map fun step => (step.replace "~1" "/").replace "~0" "~")
    | _ => none

/-- The array index that a step names: digits without a sign or a leading zero. -/
def stepIndex? (step : String) : Option Nat :=
  let digits := step.toList
  if digits.isEmpty || !digits.all isDigit || (digits.head? == some '0' && 1 < digits.length)
  then none else some (natOfDigits digits)

/-- Replaces the value at a place that exists. -/
def replaceAt (value : Json) : List String → Json → Option Json
  | [], _ => some value
  | step :: steps, .obj members =>
    match Table.find? step members with
    | none => none
    | some inner =>
      (replaceAt value steps inner).map fun inner => .obj (Table.insert step inner members)
  | step :: steps, .arr items =>
    match stepIndex? step with
    | none => none
    | some i =>
      match items[i]? with
      | none => none
      | some inner => (replaceAt value steps inner).map fun inner => .arr (items.set i inner)
  | _ :: _, _ => none

end DurableFlow.Json
