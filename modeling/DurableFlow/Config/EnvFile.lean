/-
Files of environment variables.

A line is `NAME=value`, perhaps after the word `export`; a line may go on over
line breaks inside quotes. In single quotes everything is plain, elsewhere a
backslash escapes and a dollar sign inserts a variable: one of the environment,
or else one that stood earlier in the file. Without quotes the value ends at a
blank, behind which only a comment may follow.

The variables before the first bad line count, that line and all behind it do
not.
-/
import DurableFlow.Data.Table
import DurableFlow.Text.Alphanumeric
import DurableFlow.Text.Blank

set_option autoImplicit false

namespace DurableFlow.Config.EnvFile

open Text

def quote : Char := '\x22'

def apostrophe : Char := '\x27'

def backslash : Char := '\x5c'

/-! ## Lines -/

/-- Where in a line the reader is. -/
inductive LineState where
  | complete | escape | strong | strongEscape | weak | weakEscape | blank | comment
deriving DecidableEq

/-- The state behind one more character. -/
def LineState.next (s : LineState) (c : Char) : LineState :=
  let opening : LineState :=
    if c = backslash then .escape
    else if c = quote then .weak
    else if c = apostrophe then .strong
    else .complete
  match s with
  | .blank => if c = '#' then .comment else opening
  | .escape => .complete
  -- a comment starts only behind a blank
  | .complete => if isWhiteSpace c && c ≠ '\n' && c ≠ '\r' then .blank else opening
  | .weak => if c = backslash then .weakEscape else if c = quote then .complete else .weak
  | .weakEscape => .weak
  | .strong =>
    if c = backslash then .strongEscape else if c = apostrophe then .complete else .strong
  | .strongEscape => .strong
  | .comment => .comment

/-- The characters up to and with the next line break, and those behind it. -/
def takeLine : List Char → List Char × List Char
  | [] => ([], [])
  | '\n' :: rest => (['\n'], rest)
  | c :: rest =>
    let (line, rest) := takeLine rest
    (c :: line, rest)

/-- Runs over a line until a comment starts: the state and the characters before that. -/
def scan : LineState → List Char → LineState × List Char
  | s, [] => (s, [])
  | s, c :: rest =>
    match s.next c with
    | .comment => (.comment, [])
    | s =>
      let (final, kept) := scan s rest
      (final, c :: kept)

/-- A line without its line break. -/
def chomp (line : List Char) : List Char :=
  match line.reverse with
  | '\n' :: '\r' :: rest => rest.reverse
  | '\n' :: rest => rest.reverse
  | _ => line

/-- Reads one logical line, which goes on while quotes are open. Nothing is left over when a
file ends inside one. -/
def readLine : Nat → LineState → List Char → List Char → Option (List Char × List Char)
  | 0, _, _, _ => none
  | _ + 1, _, _, [] => none
  | fuel + 1, s, before, input =>
    let (line, rest) := takeLine input
    -- quotes in a comment do not hold the line open
    if (trimStart (before ++ line)).head? = some '#' then some ([], rest)
    else
      match scan s line with
      | (.complete, _) => some (chomp (before ++ line), rest)
      | (.comment, kept) => some (before ++ kept, rest)
      | (s, _) => readLine fuel s (before ++ line) rest

/-! ## Values -/

/-- How a variable is being inserted. -/
inductive Insertion where
  | no
  /-- Behind a dollar sign. -/
  | name
  /-- Between braces. -/
  | braced
deriving DecidableEq

/-- What is known while a value is read. -/
structure ValueState where
  output : List Char := []
  strong : Bool := false
  weak : Bool := false
  escaped : Bool := false
  ended : Bool := false
  insertion : Insertion := .no
  named : List Char := []

/-- Inserts the variable named so far. -/
def ValueState.insert (lookup : String → String) (s : ValueState) : ValueState :=
  { s with
    output := s.output ++ (lookup (String.ofList s.named)).toList
    named := [] }

/-- Whether a character may be part of a variable behind a dollar sign. -/
def isNamePart (c : Char) : Bool := isAlphanumeric c

/-- The state behind one more character of a value; none where the value is bad. -/
def ValueState.next (lookup : String → String) (s : ValueState) (c : Char) :
    Option ValueState :=
  let push (s : ValueState) : Option ValueState := some { s with output := s.output ++ [c] }
  if s.ended then if c = ' ' ∨ c = '\t' then some s else none
  else if s.escaped then
    if c = backslash ∨ c = apostrophe ∨ c = quote ∨ c = '$' ∨ c = ' ' then
      push { s with escaped := false }
    else if c = 'n' then some { s with escaped := false, output := s.output ++ ['\n'] }
    else none
  else if s.strong then
    -- up to the next apostrophe nothing else has a meaning
    if c = apostrophe then some { s with strong := false } else push s
  else if s.insertion ≠ .no then
    if isNamePart c then some { s with named := s.named ++ [c] }
    else if s.insertion = .braced then
      if c = '\x7d' then some { s.insert lookup with insertion := .no }
      else some { s with named := s.named ++ [c] }
    else if c = '\x7b' ∧ s.named.isEmpty then some { s with insertion := .braced }
    else if c = '$' then some (s.insert lookup)
    else push { s.insert lookup with insertion := .no }
  else if c = '$' then some { s with insertion := .name }
  else if s.weak then
    if c = quote then some { s with weak := false }
    else if c = backslash then some { s with escaped := true }
    else push s
  else if c = apostrophe then some { s with strong := true }
  else if c = quote then some { s with weak := true }
  else if c = backslash then some { s with escaped := true }
  else if c = ' ' ∨ c = '\t' then some { s with ended := true }
  else push s

/-- Reads a value; behind its end a comment may follow. -/
def readValue (lookup : String → String) : ValueState → List Char → Option String
  | s, [] =>
    if s.insertion = .braced ∨ s.strong ∨ s.weak then none
    else some (String.ofList (s.insert lookup).output)
  | s, c :: rest =>
    if s.ended ∧ c = '#' then some (String.ofList (s.insert lookup).output)
    else
      match s.next lookup c with
      | none => none
      | some s => readValue lookup s rest

/-! ## Variables -/

def isKeyStart (c : Char) : Bool := c.isAlpha || c = '_'

def isKeyChar (c : Char) : Bool := c.isAlphanum || c = '_' || c = '.'

/-- Reads the name of a variable and the blanks behind it. -/
def readKey (cs : List Char) : Option (String × List Char) :=
  if cs.head?.any isKeyStart then
    some (String.ofList (cs.takeWhile isKeyChar), trimStart (cs.dropWhile isKeyChar))
  else none

/-- Reads a name and the equals sign behind it; the word `export` may stand in front. -/
def readAssignment (cs : List Char) : Option (String × List Char) :=
  match readKey cs with
  | none => none
  | some (key, '=' :: rest) => some (key, rest)
  | some (key, rest) =>
    if key = "export" then
      match readKey rest with
      | some (key, '=' :: rest) => some (key, rest)
      | _ => none
    else none

/-- Whether nothing but a comment is left. -/
def isOver (cs : List Char) : Bool := cs.isEmpty || cs.head? == some '#'

/-- Loads the lines of a file into an environment, whose own variables stay as they are.
`earlier` holds what the file said so far. -/
def load : Nat → Table String String → Table String String → List Char → Table String String
  | 0, environment, _, _ => environment
  | fuel + 1, environment, earlier, input =>
    match readLine (input.length + 1) .complete [] input with
    | none => environment
    | some (line, rest) =>
      let line := trim line
      if isOver line then load fuel environment earlier rest
      else
        match readAssignment line with
        | none => environment
        | some (key, text) =>
          -- variables of the environment come before those of the file here too
          let lookup (name : String) : String :=
            ((Table.find? name environment).or (Table.find? name earlier)).getD ""
          let text := trimStart text
          match if isOver text then some "" else readValue lookup {} text with
          | none => environment
          | some value =>
            let environment :=
              if Table.contains key environment then environment
              else Table.insert key value environment
            load fuel environment (Table.insert key value earlier) rest

/-- Adds the variables of a file to an environment that keeps its own. -/
def loadText (text : String) (environment : Table String String) : Table String String :=
  let cs := match text.toList with
    | '\ufeff' :: rest => rest
    | cs => cs
  load (cs.length + 1) environment [] cs

end DurableFlow.Config.EnvFile
