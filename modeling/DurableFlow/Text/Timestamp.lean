/-
Points in time, as saved files hold them.

A timestamp is a number of milliseconds since the beginning of 1970 in universal
time. It is written as date, time and `Z`. Reading is lenient: numbers need not be
filled up with zeros, white space may stand before each number and each mark but
the one between date and time, and the offset from universal time may be a name or
lack its colon.
-/
import DurableFlow.Text.Blank

set_option autoImplicit false

namespace DurableFlow.Text

/-- A point in time: milliseconds since the beginning of 1970. -/
structure Timestamp where
  millis : Int
deriving DecidableEq, Inhabited

namespace Timestamp

/-- Days before a date of the Gregorian calendar, counted from the beginning of 1970. Years
are taken to begin in March, so that the leap day comes last. -/
def daysOfDate (year month day : Int) : Int :=
  let y := if month ≤ 2 then year - 1 else year
  let era := y.fdiv 400
  let yearOfEra := y - era * 400
  let shifted := (month + 9) % 12
  -- from March on, five months have 153 days
  let dayOfYear := (153 * shifted + 2) / 5 + day - 1
  let dayOfEra := yearOfEra * 365 + yearOfEra / 4 - yearOfEra / 100 + dayOfYear
  -- 400 years have 146097 days, and the first of March of the year 0 is 719468 days before 1970
  era * 146097 + dayOfEra - 719468

/-- The date that so many days after the beginning of 1970 is. -/
def dateOfDays (days : Int) : Int × Int × Int :=
  let z := days + 719468
  let era := z.fdiv 146097
  let dayOfEra := z - era * 146097
  -- without the leap days before it, each year has 365 days
  let yearOfEra := (dayOfEra - dayOfEra / 1460 + dayOfEra / 36524 - dayOfEra / 146096) / 365
  let dayOfYear := dayOfEra - (365 * yearOfEra + yearOfEra / 4 - yearOfEra / 100)
  let shifted := (5 * dayOfYear + 2) / 153
  let day := dayOfYear - (153 * shifted + 2) / 5 + 1
  let month := if shifted < 10 then shifted + 3 else shifted - 9
  let year := yearOfEra + era * 400 + (if month ≤ 2 then 1 else 0)
  (year, month, day)

def isLeap (year : Int) : Bool := year % 4 == 0 && (year % 100 != 0 || year % 400 == 0)

/-- The number of days of a month. -/
def monthLength (year : Int) (month : Nat) : Nat :=
  if month = 2 then (if isLeap year then 29 else 28)
  else if month = 4 ∨ month = 6 ∨ month = 9 ∨ month = 11 then 30 else 31

/-! ## Text -/

/-- The text of a year: four digits, or a sign and at least four digits outside that range. -/
def yearText (year : Int) : String :=
  if year < 0 then "-" ++ padded 4 year.natAbs
  else if 9999 < year then "+" ++ padded 4 year.natAbs
  else padded 4 year.natAbs

/-- The text of a timestamp. -/
def text (t : Timestamp) : String :=
  let days := t.millis.fdiv 86400000
  let inDay := (t.millis - days * 86400000).toNat
  let (year, month, day) := dateOfDays days
  yearText year ++ "-" ++ padded 2 month.toNat ++ "-" ++ padded 2 day.toNat ++ "T"
    ++ padded 2 (inDay / 3600000) ++ ":" ++ padded 2 (inDay / 60000 % 60) ++ ":"
    ++ padded 2 (inDay / 1000 % 60) ++ "." ++ padded 3 (inDay % 1000) ++ "Z"

def isDigit (c : Char) : Bool := '0' ≤ c && c ≤ '9'

/-- The number that digits write. -/
def numberOf (ds : List Char) : Nat := ds.foldl (fun v c => 10 * v + (c.toNat - 48)) 0

/-- Exactly `n` digits at the front, as a number. -/
def digits? (n : Nat) (cs : List Char) : Option (Nat × List Char) :=
  let ds := cs.take n
  if ds.length = n ∧ ds.all isDigit then some (numberOf ds, cs.drop n) else none

/-- One of some characters at the front. -/
def mark? (allowed : List Char) : List Char → Option (List Char)
  | c :: rest => if allowed.contains c then some rest else none
  | [] => none

/-- All digits at the front, at least one, as a number. -/
def digits1? (cs : List Char) : Option (Nat × List Char) :=
  let ds := cs.takeWhile isDigit
  if ds.isEmpty then none else some (numberOf ds, cs.drop ds.length)

/-- A number of at most `width` digits, after white space. -/
def number? (width : Nat) (cs : List Char) : Option (Nat × List Char) :=
  let cs := trimStart cs
  (digits1? (cs.take width)).map fun r => (r.1, r.2 ++ cs.drop width)

/-- The milliseconds of a fraction of a second, further digits being dropped. -/
def fraction? : List Char → Option (Nat × List Char)
  | '.' :: rest =>
    let ds := rest.takeWhile isDigit
    if ds.isEmpty then none
    else some (numberOf ((ds ++ ['0', '0', '0']).take 3), rest.drop ds.length)
  | cs => some (0, cs)

/-- A year, after white space: at most four digits, or a sign and any number of digits. -/
def year? (cs : List Char) : Option (Int × List Char) :=
  match trimStart cs with
  | '+' :: rest => (digits1? rest).map fun r => (r.1, r.2)
  | '-' :: rest => (digits1? rest).map fun r => (-(r.1 : Int), r.2)
  | cs => (number? 4 cs).map fun r => (r.1, r.2)

/-- Hours and minutes of an offset, with colons and white space between them, in minutes. -/
def distance? (cs : List Char) : Option (Int × List Char) := do
  let (hours, cs) ← digits? 2 cs
  let (minutes, cs) ← digits? 2 (cs.dropWhile fun c => c = ':' || isWhiteSpace c)
  if hours < 24 ∧ minutes < 60 then return (hours * 60 + minutes, cs) else none

/-- The minutes of an offset from universal time. -/
def offset? : List Char → Option (Int × List Char)
  | 'Z' :: rest | 'z' :: rest => some (0, rest)
  | '+' :: rest => distance? rest
  | '-' :: rest | '\u2212' :: rest => (distance? rest).map fun r => (-r.1, r.2)
  | a :: b :: c :: rest =>
    if [a, b, c].map Char.toUpper = ['U', 'T', 'C'] then some (0, rest) else none
  | _ => none

/-- The days of the years that a timestamp can be in. -/
def firstDay : Int := daysOfDate (-262143) 1 1

def lastDay : Int := daysOfDate 262142 12 31

/-- Whether a day counted from the beginning of 1970 is within range. -/
def isDay (day : Int) : Bool := firstDay ≤ day && day ≤ lastDay

/-- **Reads a timestamp.** -/
def parse? (s : String) : Option Timestamp := do
  let (year, cs) ← year? s.toList
  let cs ← mark? ['-'] (trimStart cs)
  let (month, cs) ← number? 2 cs
  let cs ← mark? ['-'] (trimStart cs)
  let (day, cs) ← number? 2 cs
  let cs ← mark? ['T', 't', ' '] cs
  let (hour, cs) ← number? 2 cs
  let cs ← mark? [':'] (trimStart cs)
  let (minute, cs) ← number? 2 cs
  let cs ← mark? [':'] (trimStart cs)
  let (second, cs) ← number? 2 cs
  let (ms, cs) ← fraction? cs
  let (offset, cs) ← offset? (trimStart cs)
  let days := daysOfDate year month day
  let minutes := days * 1440 + hour * 60 + minute - offset
  -- the offset may lead into another day, which has to be in range as well
  if 1 ≤ month ∧ month ≤ 12 ∧ 1 ≤ day ∧ day ≤ monthLength year month ∧ hour < 24
      ∧ minute < 60 ∧ second ≤ 60 ∧ isDay days ∧ isDay (minutes.fdiv 1440)
      ∧ (trimStart cs).isEmpty then
    return ⟨(minutes * 60 + second) * 1000 + ms⟩
  else none

end Timestamp

end DurableFlow.Text
