/-
The shortest decimal that reads back as a given double.

A decimal reads back as `m · 2^q` when it lies between the midpoints to the two
neighbouring doubles, the midpoints included when `m` is even. For one digit,
two digits, and so on, the two neighbours of the value on the grid of decimals
with that many digits are tested in exact arithmetic: a grid has a point in the
interval only if one of these two is in it, so the first grid with a hit has the
fewest digits, and of two hits the nearer one is taken. Where the value lies
halfway between them, whoever writes the number says which one it is.
-/
import DurableFlow.Number.Binary

set_option autoImplicit false

namespace DurableFlow.Number

/-- A positive decimal `digits · 10^exponent`. -/
structure Decimal where
  digits : Nat
  exponent : Int
deriving DecidableEq, Inhabited

namespace Decimal

/-- A positive rational number. -/
structure Ratio where
  num : Nat
  den : Nat

namespace Ratio

/-- The number `n · 2^two · 10^ten`. -/
def scaled (n : Nat) (two ten : Int) : Ratio :=
  { num := n * Nat.pow 2 two.toNat * Nat.pow 10 ten.toNat
    den := Nat.pow 2 (-two).toNat * Nat.pow 10 (-ten).toNat }

def le (a b : Ratio) : Bool := a.num * b.den ≤ b.num * a.den

def lt (a b : Ratio) : Bool := a.num * b.den < b.num * a.den

end Ratio

/-- The decimals that read back as one double, in quarters of its last place: bounds and
whether the bounds belong to it. -/
structure Interval where
  low : Nat
  value : Nat
  high : Nat
  closed : Bool
  /-- The scale: a quarter of the last place is `2^scale`. -/
  scale : Int

/-- The interval of the double `mantissa · 2^exponent`. Below a power of two the neighbour
is only half as far away. -/
def Interval.ofDouble (mantissa : Nat) (exponent : Int) : Interval :=
  { low := if mantissa = hiddenBit ∧ leastExponent < exponent
      then 4 * mantissa - 1 else 4 * mantissa - 2
    value := 4 * mantissa
    high := 4 * mantissa + 2
    closed := mantissa % 2 == 0
    scale := exponent - 2 }

/-- Whether `n · 10^ten` lies in the interval. -/
def Interval.contains (i : Interval) (n : Nat) (ten : Int) : Bool :=
  let point := Ratio.scaled n 0 0
  let low := Ratio.scaled i.low i.scale (-ten)
  let high := Ratio.scaled i.high i.scale (-ten)
  if i.closed then low.le point && point.le high else low.lt point && point.lt high

/-- The exponent of ten of the leading decimal digit of a positive `n · 2^two`. -/
def leadingExponent (n : Nat) (two : Int) : Int :=
  -- 0.30103 is nearly the decimal logarithm of two, so the guess is off by one at most
  let guess := ((n.log2 : Int) + two) * 30103 / 100000
  let value := Ratio.scaled n two 0
  if (Ratio.scaled 1 0 (guess + 1)).le value then guess + 1
  else if value.lt (Ratio.scaled 1 0 guess) then guess - 1
  else guess

/-- Which of two decimals a value halfway between them is written as. -/
inductive Tie where
  | larger
  | even
deriving DecidableEq, Inhabited

/-- Whether a remainder is to be dropped from `below + remainder / den`. -/
def Tie.roundsDown (tie : Tie) (below remainder den : Nat) : Bool :=
  2 * remainder < den || (2 * remainder == den && tie == .even && below % 2 == 0)

/-- The nearer of the value's two neighbours on the grid of multiples of `10^ten`, of those
that lie in the interval. -/
def Interval.onGrid? (tie : Tie) (i : Interval) (ten : Int) : Option Nat :=
  let value := Ratio.scaled i.value i.scale (-ten)
  let below := value.num / value.den
  let above := below + 1
  match 0 < below && i.contains below ten, i.contains above ten with
  | true, true =>
    if tie.roundsDown below (value.num % value.den) value.den then some below else some above
  | true, false => some below
  | false, true => some above
  | false, false => none

/-- The first grid, from the coarsest on, that has a point in the interval. -/
def Interval.search (tie : Tie) (i : Interval) (leading : Int) : Nat → Nat → Decimal
  -- not reached, as one of the grids before has a point
  | 0, places => ⟨i.value, leading - places⟩
  | fuel + 1, places =>
    let ten := leading - places
    match i.onGrid? tie ten with
    | some n => ⟨n, ten⟩
    | none => i.search tie leading fuel (places + 1)

/-- Moves trailing zeros of the digits into the exponent. -/
def trim : Nat → Decimal → Decimal
  | 0, d => d
  | fuel + 1, d =>
    if d.digits % 10 = 0 ∧ d.digits ≠ 0 then trim fuel ⟨d.digits / 10, d.exponent + 1⟩ else d

/-- The shortest decimal that reads back as the double `mantissa · 2^exponent`. Seventeen
digits always suffice. -/
def shortest (tie : Tie) (mantissa : Nat) (exponent : Int) : Decimal :=
  let i := Interval.ofDouble mantissa exponent
  trim 20 (i.search tie (leadingExponent i.value i.scale) 17 0)

/-! ## Writing decimals -/

/-- The decimal digits of a number. -/
def digitText (n : Nat) : List Char := Nat.toDigits 10 n

/-- A decimal written out with all its places and no exponent. -/
def positional (d : Decimal) : List Char :=
  let digits := digitText d.digits
  if 0 ≤ d.exponent then digits ++ List.replicate d.exponent.toNat '0'
  else
    let places := (-d.exponent).toNat
    if places < digits.length then
      digits.take (digits.length - places) ++ '.' :: digits.drop (digits.length - places)
    else '0' :: '.' :: List.replicate (places - digits.length) '0' ++ digits

/-- A decimal written with an exponent, one digit before the point. -/
def scientific (d : Decimal) : List Char :=
  let digits := digitText d.digits
  let power := d.exponent + (digits.length - 1 : Nat)
  let fraction := digits.drop 1
  digits.take 1 ++ (if fraction.isEmpty then [] else '.' :: fraction)
    ++ 'e' :: (toString power).toList

end Decimal

/-- The sign written before a number. -/
def signText (negative : Bool) : String := if negative then "-" else ""

/-- **Plain text of a number**: all its places, no exponent, no trailing point. A tie goes to the
larger decimal. -/
def plainText (x : Float) : String :=
  match decode x with
  | .nan => "NaN"
  | .infinite negative => signText negative ++ "inf"
  | .finite negative 0 _ => signText negative ++ "0"
  | .finite negative m q =>
    signText negative ++ String.ofList (Decimal.shortest .larger m q).positional

/-- The double nearest to `digits · 10^exponent`, as the reader of source text takes it. -/
def ofDecimal (digits : Nat) (exponent : Int) : Float :=
  if exponent < 0 then Float.ofScientific digits true (-exponent).toNat
  else Float.ofScientific digits false exponent.toNat

end DurableFlow.Number
