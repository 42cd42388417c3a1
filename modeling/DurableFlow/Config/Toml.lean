/-
Reading configuration files.

A file is a list of lines: a table heading, or a key with a value, or nothing
but a comment. Keys may be dotted. A table may be given once: a heading for a
table that already had one, or that dotted keys already made, is refused, and so
are a key given twice and a dotted key that reaches into a table with a heading
of its own. Values nest, and keys have names, at most 79 deep.

The reader takes fuel, one unit for each value, key or line; the length of the
text is enough.
-/
import DurableFlow.Data.Table
import DurableFlow.Number.Binary
import DurableFlow.Text.Timestamp

set_option autoImplicit false

namespace DurableFlow.Config

open Text

/-- How a table came to be, which decides what may still be added to it. -/
inductive TableOrigin where
  /-- By its own heading. -/
  | heading
  /-- On the way to a heading below it. -/
  | passing
  /-- By a dotted key. -/
  | dotted
deriving DecidableEq

/-- A configuration value. -/
inductive Toml where
  | str (s : String)
  | int (n : Int)
  | float
  | bool (b : Bool)
  | time
  | array (items : List Toml)
  | inline (members : List (String × Toml))
  | table (origin : TableOrigin) (members : List (String × Toml))
  /-- Tables under a repeated heading, the newest first. -/
  | tables (members : List (List (String × Toml)))

namespace Toml

/-- The members of a value that is a table of either form. -/
def members? : Toml → Option (List (String × Toml))
  | .inline members => some members
  | .table _ members => some members
  | _ => none

/-- Whether a value is a list or a table without contents. -/
def isEmpty : Toml → Bool
  | .array items => items.isEmpty
  | value => value.members?.any List.isEmpty

/-! ## Building tables -/

abbrev Members := List (String × Toml)

/-- Binds a dotted key, in members that are open to new names or not. Tables on its way are made,
or must not have a heading. Only tables that dotted keys made are open to them; those on the way
to a heading or under a repeated one let keys pass into tables below. -/
def bindPath (value : Toml) : Bool → List String → Members → Option Members
  | _, [], _ => none
  | isOpen, [name], members =>
    if !isOpen || Table.contains name members then none
    else some (Table.insert name value members)
  | _, name :: path, members =>
    match Table.find? name members with
    | none => (bindPath value true path []).map fun inner =>
        Table.insert name (.table .dotted inner) members
    | some (.table origin inner) =>
      if origin = .heading then none
      else (bindPath value (origin = .dotted) path inner).map fun inner =>
        Table.insert name (.table origin inner) members
    | some (.tables (newest :: older)) =>
      (bindPath value false path newest).map fun newest =>
        Table.insert name (.tables (newest :: older)) members
    | some _ => none

/-- Binds a dotted key in the members it was written for. -/
def bindKey (value : Toml) (path : List String) (members : Members) : Option Members :=
  bindPath value true path members

/-- Applies `f` to the table that a path leads to; tables on its way are made. -/
def descend (f : Members → Option Members) : List String → Members → Option Members
  | [], members => f members
  | name :: path, members =>
    match Table.find? name members with
    | none => (descend f path []).map fun inner =>
        Table.insert name (.table .passing inner) members
    | some (.table origin inner) => (descend f path inner).map fun inner =>
        Table.insert name (.table origin inner) members
    | some (.tables (newest :: older)) => (descend f path newest).map fun newest =>
        Table.insert name (.tables (newest :: older)) members
    | some _ => none

/-- Opens the table of a heading. -/
def openTable (path : List String) (root : Members) : Option Members :=
  match path.getLast? with
  | none => none
  | some name =>
    descend (fun members =>
      match Table.find? name members with
      | none => some (Table.insert name (.table .heading []) members)
      -- a table that other headings led through may get its own heading once
      | some (.table .passing inner) => some (Table.insert name (.table .heading inner) members)
      | some _ => none) path.dropLast root

/-- Opens one more table of a repeated heading. -/
def openTables (path : List String) (root : Members) : Option Members :=
  match path.getLast? with
  | none => none
  | some name =>
    descend (fun members =>
      match Table.find? name members with
      | none => some (Table.insert name (.tables [[]]) members)
      | some (.tables older) => some (Table.insert name (.tables ([] :: older)) members)
      | some _ => none) path.dropLast root

/-! ## Characters -/

/-- The deepest nesting of values and the greatest number of names in a key. -/
def maxDepth : Nat := 79

def isBlank (c : Char) : Bool := c = ' ' || c = '\t'

def isDigit (c : Char) : Bool := '0' ≤ c && c ≤ '9'

/-- What a key without quotes is made of. -/
def isBare (c : Char) : Bool :=
  ('a' ≤ c && c ≤ 'z') || ('A' ≤ c && c ≤ 'Z') || isDigit c || c = '_' || c = '-'

/-- What a word or a number is made of. -/
def isToken (c : Char) : Bool := isBare c || c = '+' || c = '.' || c = ':'

def quote : Char := '\x22'

def apostrophe : Char := '\x27'

def backslash : Char := '\x5c'

def isControl (c : Char) : Bool := (c.toNat < 32 && c ≠ '\t') || c.toNat == 127

def skipBlanks (cs : List Char) : List Char := cs.dropWhile isBlank

/-- Consumes the end of a line: blanks, a comment, a line break or the end of the file. -/
def endLine (cs : List Char) : Option (List Char) :=
  let rest := match skipBlanks cs with
    | '#' :: comment => comment.dropWhile fun c => !isControl c
    | rest => rest
  match rest with
  | [] => some []
  | '\n' :: more => some more
  | '\r' :: '\n' :: more => some more
  | _ => none

/-- Skips blanks, line breaks and comments between the items of an array. -/
def skipLines : Nat → List Char → List Char
  | 0, cs => cs
  | fuel + 1, cs =>
    match skipBlanks cs with
    | '\n' :: more => skipLines fuel more
    | '\r' :: '\n' :: more => skipLines fuel more
    | '#' :: comment => skipLines fuel (comment.dropWhile fun c => !isControl c)
    | rest => rest

/-! ## Strings -/

/-- The character of so many hexadecimal digits. -/
def unicode (n : Nat) (cs : List Char) : Option (Char × List Char) :=
  let digits := cs.take n
  if digits.length < n then none
  else
    match Number.ofHex? digits with
    | some v =>
      if v < 0xD800 ∨ (0xDFFF < v ∧ v < 0x110000) then some (Char.ofNat v, cs.drop n) else none
    | none => none

/-- The character of an escape, behind its backslash. -/
def escape : List Char → Option (Char × List Char)
  | 'b' :: cs => some ('\x08', cs)
  | 't' :: cs => some ('\t', cs)
  | 'n' :: cs => some ('\n', cs)
  | 'f' :: cs => some ('\x0c', cs)
  | 'r' :: cs => some ('\r', cs)
  | 'u' :: cs => unicode 4 cs
  | 'U' :: cs => unicode 8 cs
  | c :: cs => if c = quote ∨ c = backslash then some (c, cs) else none
  | [] => none

/-- Whether the text starts with three of a mark. -/
def startsTriple (mark : Char) : List Char → Bool
  | a :: b :: c :: _ => a = mark && b = mark && c = mark
  | _ => false

/-- Skips blanks and line breaks. -/
def skipBlankLines : Nat → List Char → List Char
  | 0, cs => cs
  | fuel + 1, cs =>
    match skipBlanks cs with
    | '\n' :: rest | '\r' :: '\n' :: rest => skipBlankLines fuel rest
    | rest => rest

/-- A backslash at the end of a line hides the line break and all blanks behind it. -/
def hidesLine (cs : List Char) : Option (List Char) :=
  match skipBlanks cs with
  | '\n' :: rest | '\r' :: '\n' :: rest => some (skipBlankLines (rest.length + 1) rest)
  | _ => none

/-- The characters of a string on one line. -/
def lineChars (mark : Char) : Nat → List Char → List Char → Option (String × List Char)
  | 0, _, _ => none
  | _ + 1, _, [] => none
  | fuel + 1, acc, c :: cs =>
    if c = mark then some (String.ofList acc.reverse, cs)
    else if c = backslash ∧ mark = quote then
      match escape cs with
      | some (d, cs) => lineChars mark fuel (d :: acc) cs
      | none => none
    else if isControl c then none
    else lineChars mark fuel (c :: acc) cs

/-- The characters of a string over several lines. Up to two marks may stand before the three
that end it. -/
def blockChars (mark : Char) : Nat → List Char → List Char → Option (String × List Char)
  | 0, _, _ => none
  | _ + 1, _, [] => none
  | fuel + 1, acc, c :: cs =>
    if startsTriple mark (c :: cs) then
      let marks := ((c :: cs).take 5).takeWhile (· = mark)
      some (String.ofList (acc.reverse ++ marks.drop 3), (c :: cs).drop marks.length)
    else if c = backslash ∧ mark = quote then
      match hidesLine cs with
      | some cs => blockChars mark fuel acc cs
      | none =>
        match escape cs with
        | some (d, cs) => blockChars mark fuel (d :: acc) cs
        | none => none
    else if isControl c ∧ c ≠ '\n' ∧ ¬ (c = '\r' ∧ cs.head? = some '\n') then none
    else blockChars mark fuel (c :: acc) cs

/-- Reads a string; the mark at the front says which kind it is. -/
def readString (mark : Char) (cs : List Char) : Option (String × List Char) :=
  if startsTriple mark cs then
    -- a line break right behind the marks is no part of the text
    let body := match cs.drop 3 with
      | '\n' :: rest => rest
      | '\r' :: '\n' :: rest => rest
      | rest => rest
    blockChars mark (body.length + 1) [] body
  else lineChars mark (cs.length + 1) [] (cs.drop 1)

/-! ## Keys -/

/-- Reads one name of a key. -/
def readName (cs : List Char) : Option (String × List Char) :=
  match cs with
  | c :: rest =>
    if c = quote ∨ c = apostrophe then lineChars c (rest.length + 1) [] rest
    else
      let name := cs.takeWhile isBare
      if name.isEmpty then none else some (String.ofList name, cs.drop name.length)
  | [] => none

/-- Reads names with dots between them. -/
def readNames : Nat → List Char → Option (List String × List Char)
  | 0, _ => none
  | fuel + 1, cs =>
    match readName (skipBlanks cs) with
    | none => none
    | some (name, rest) =>
      match skipBlanks rest with
      | '.' :: more => (readNames fuel more).map fun r => (name :: r.1, r.2)
      | more => some ([name], more)

/-- Reads a key, which has not too many names. -/
def readKey (cs : List Char) : Option (List String × List Char) :=
  (readNames (cs.length + 1) cs).filter fun r => r.1.length ≤ maxDepth

/-! ## Values without quotes -/

/-- Removes single underscores between digits of a base. -/
def joinDigits (isDigit : Char → Bool) : List Char → Option (List Char)
  | [] => some []
  | [c] => if isDigit c then some [c] else none
  | c :: '_' :: d :: rest =>
    if isDigit c && isDigit d then (joinDigits isDigit (d :: rest)).map (c :: ·) else none
  | c :: rest => if isDigit c then (joinDigits isDigit rest).map (c :: ·) else none

/-- An integer that fits a signed 64-bit word. -/
def inRange (n : Int) : Option Int :=
  let bound : Int := Nat.pow 2 63
  if -bound ≤ n ∧ n < bound then some n else none

/-- Digits of a base. -/
def ofBase (base : Nat) (isDigit : Char → Bool) (cs : List Char) : Option Int :=
  match joinDigits isDigit cs with
  | none | some [] => none
  | some digits =>
    inRange (digits.foldl (fun n c => base * n + (Number.hexValue? c).getD 0) 0 : Nat)

/-- Decimal digits without a leading zero. -/
def decimal? (cs : List Char) : Option Nat :=
  match joinDigits isDigit cs with
  | none | some [] => none
  | some digits =>
    if digits.head? = some '0' ∧ 1 < digits.length then none
    else some (digits.foldl (fun n c => 10 * n + (c.toNat - 48)) 0)

/-- An integer, in base ten with a sign or in another base without one. -/
def integer? : List Char → Option Int
  | '0' :: 'x' :: cs => ofBase 16 (fun c => (Number.hexValue? c).isSome) cs
  | '0' :: 'o' :: cs => ofBase 8 (fun c => '0' ≤ c && c ≤ '7') cs
  | '0' :: 'b' :: cs => ofBase 2 (fun c => c = '0' || c = '1') cs
  | '+' :: cs => (decimal? cs).bind fun n => inRange n
  | '-' :: cs => (decimal? cs).bind fun n => inRange (-(n : Int))
  | cs => (decimal? cs).bind fun n => inRange n

/-- A sign at the front: whether it is a minus, and what follows. -/
def sign : List Char → Bool × List Char
  | '+' :: rest => (false, rest)
  | '-' :: rest => (true, rest)
  | rest => (false, rest)

/-- The digits behind a mark, at least one; none without the mark. -/
def digitsAfterMark? : List Char → Option (List Char)
  | [] => some []
  | _ :: cs => (joinDigits isDigit cs).filter fun ds => !ds.isEmpty

/-- The exponent behind its mark. -/
def power? : List Char → Option Int
  | [] => some 0
  | mark :: cs => do
    let (negative, cs) := sign cs
    let n : Nat := Timestamp.numberOf (← digitsAfterMark? (mark :: cs))
    return if negative then -(n : Int) else n

/-- Whether a token is a number with a fraction or an exponent. A positive one is not too
large for a double. -/
def isFloat (token : List Char) : Bool :=
  let (negative, body) := sign token
  if body == "inf".toList || body == "nan".toList then true
  else
    let mantissa := body.takeWhile fun c => c != 'e' && c != 'E'
    let whole := mantissa.takeWhile (· ≠ '.')
    let fraction := mantissa.drop whole.length
    match decimal? whole, digitsAfterMark? fraction, power? (body.drop mantissa.length) with
    | some n, some ds, some power =>
      whole.length < body.length && (negative ||
        !Number.roundsToInfinity (ds.foldl (fun n c => 10 * n + (c.toNat - 48)) n)
          (power - ds.length))
    | _, _, _ => false

/-- What a word or a number stands for. -/
def ofToken (token : List Char) : Option Toml :=
  if token == "true".toList then some (.bool true)
  else if token == "false".toList then some (.bool false)
  else
    match integer? token with
    | some n => some (.int n)
    | none => if isFloat token then some .float else none

/-! ## Dates and times of day -/

/-- Reads exactly so many digits whose number lies between two bounds. -/
def readDigits (count low high : Nat) (cs : List Char) : Option (Nat × List Char) :=
  (Timestamp.digits? count cs).filter fun r => low ≤ r.1 && r.1 ≤ high

/-- Passes over a year, a month and a day that the month has. -/
def skipDate (cs : List Char) : Option (List Char) := do
  let (year, cs) ← readDigits 4 0 9999 cs
  let cs ← Timestamp.mark? ['-'] cs
  let (month, cs) ← readDigits 2 1 12 cs
  let cs ← Timestamp.mark? ['-'] cs
  let (_, cs) ← readDigits 2 1 (Timestamp.monthLength year month) cs
  return cs

/-- Passes over an hour and a minute. -/
def skipMinutes (cs : List Char) : Option (List Char) := do
  let (_, cs) ← readDigits 2 0 23 cs
  let cs ← Timestamp.mark? [':'] cs
  let (_, cs) ← readDigits 2 0 59 cs
  return cs

/-- Passes over a time of day, which has seconds and may have a fraction of one. -/
def skipTime (cs : List Char) : Option (List Char) := do
  let cs ← Timestamp.mark? [':'] (← skipMinutes cs)
  let (_, cs) ← readDigits 2 0 60 cs
  match cs with
  | '.' :: d :: rest =>
    return if isDigit d then rest.dropWhile isDigit else cs
  | _ => return cs

/-- Passes over the distance from universal time, if there is one. -/
def skipOffset (cs : List Char) : List Char :=
  ((Timestamp.mark? ['Z', 'z'] cs).or ((Timestamp.mark? ['+', '-'] cs).bind skipMinutes)).getD cs

/-- Passes over a date, a time of day, or a date with a time of day behind it. -/
def skipMoment (cs : List Char) : Option (List Char) :=
  match skipDate cs with
  | some rest =>
    some ((((Timestamp.mark? ['T', 't', ' '] rest).bind skipTime).map skipOffset).getD rest)
  | none => skipTime cs

/-! ## Values -/

/-- Reads a value without quotes: a date or a time of day, a word or a number. -/
def readPlain (cs : List Char) : Option (Toml × List Char) :=
  -- a date starts like a number, so it is tried first
  match skipMoment cs with
  | some rest => some (.time, rest)
  | none =>
    let token := cs.takeWhile isToken
    (ofToken token).map fun value => (value, cs.drop token.length)

mutual

/-- Reads a value at the given remaining depth. -/
def readValue : Nat → Nat → List Char → Option (Toml × List Char)
  | 0, _, _ => none
  | fuel + 1, depth, cs =>
    match depth, cs with
    | depth + 1, '[' :: rest => readItems fuel depth [] rest
    | depth + 1, '\x7b' :: rest =>
      match skipBlanks rest with
      | '\x7d' :: more => some (.inline [], more)
      | more => readInline fuel depth [] more
    | _, c :: _ =>
      if c = quote ∨ c = apostrophe then (readString c cs).map fun r => (.str r.1, r.2)
      else readPlain cs
    | _, [] => none

/-- Reads the items of an array up to its end. -/
def readItems : Nat → Nat → List Toml → List Char → Option (Toml × List Char)
  | 0, _, _, _ => none
  | fuel + 1, depth, acc, cs =>
    match skipLines (cs.length + 1) cs with
    | ']' :: rest => some (.array acc.reverse, rest)
    | cs =>
      match readValue fuel depth cs with
      | none => none
      | some (item, rest) =>
        match skipLines (rest.length + 1) rest with
        | ',' :: more => readItems fuel depth (item :: acc) more
        | ']' :: more => some (.array (item :: acc).reverse, more)
        | _ => none

/-- Reads the members of an inline table up to its end. -/
def readInline : Nat → Nat → Members → List Char → Option (Toml × List Char)
  | 0, _, _, _ => none
  | fuel + 1, depth, acc, cs =>
    match readKey cs with
    | some (key, '=' :: rest) =>
      match readValue fuel depth (skipBlanks rest) with
      | none => none
      | some (value, rest) =>
        match bindKey value key acc with
        | none => none
        | some acc =>
          match skipBlanks rest with
          | ',' :: more => readInline fuel depth acc more
          | '\x7d' :: more => some (.inline acc, more)
          | _ => none
    | _ => none

end

/-! ## Files -/

/-- Reads the lines of a file: the table of the last heading and the root so far. -/
def readLines : Nat → List String → Members → List Char → Option Members
  | 0, _, _, _ => none
  | _ + 1, _, root, [] => some root
  | fuel + 1, heading, root, cs =>
    match skipBlanks cs with
    | '[' :: '[' :: rest =>
      match readKey rest with
      | some (key, ']' :: ']' :: rest) =>
        match openTables key root, endLine rest with
        | some root, some rest => readLines fuel key root rest
        | _, _ => none
      | _ => none
    | '[' :: rest =>
      match readKey rest with
      | some (key, ']' :: rest) =>
        match openTable key root, endLine rest with
        | some root, some rest => readLines fuel key root rest
        | _, _ => none
      | _ => none
    | line =>
      match endLine line with
      | some rest => readLines fuel heading root rest
      | none =>
        match readKey line with
        | some (key, '=' :: rest) =>
          match readValue (rest.length + 1) maxDepth (skipBlanks rest) with
          | none => none
          | some (value, rest) =>
            match descend (bindKey value key) heading root, endLine rest with
            | some root, some rest => readLines fuel heading root rest
            | _, _ => none
        | _ => none

/-- The root table of a configuration text, which may start with a byte order mark. -/
def parse? (text : String) : Option Members :=
  let cs := match text.toList with
    | '\ufeff' :: cs => cs
    | cs => cs
  readLines (cs.length + 2) [] [] cs

end Toml

end DurableFlow.Config
