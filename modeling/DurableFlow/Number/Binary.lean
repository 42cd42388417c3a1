/-
Binary floating point seen as exact integers.

A finite double is `± m · 2^q` with a natural number `m < 2^53`. This file takes
a double apart into that form and puts it together again; everything else the
library computes about numbers (their shortest decimal, the exact remainder,
their integer part) is arithmetic on `m` and `q`, so it is exact by
construction and says nothing about rounding.
-/
set_option autoImplicit false

namespace DurableFlow.Number

/-- What a double stands for. -/
inductive Magnitude where
  | nan
  | infinite (negative : Bool)
  /-- The number `± mantissa · 2^exponent`, a zero keeping its sign. -/
  | finite (negative : Bool) (mantissa : Nat) (exponent : Int)
deriving DecidableEq, Inhabited

/-- The exponent of the smallest positive double. -/
def leastExponent : Int := -1074

/-- The mantissa of a normal double is at least this and less than twice this. -/
def hiddenBit : Nat := Nat.pow 2 52

/-- The sign, mantissa and exponent that the 64 bits of a double encode. -/
def ofBits (bits : Nat) : Magnitude :=
  let negative := bits / Nat.pow 2 63 % 2 == 1
  let biased := bits / Nat.pow 2 52 % Nat.pow 2 11
  let fraction := bits % Nat.pow 2 52
  if biased = 2047 then
    if fraction = 0 then .infinite negative else .nan
  -- small numbers have no hidden bit
  else if biased = 0 then .finite negative fraction leastExponent
  else .finite negative (hiddenBit + fraction) (leastExponent + (biased - 1 : Nat))

/-- Takes a double apart. -/
def decode (x : Float) : Magnitude :=
  ofBits x.toBits.toNat

/-- Moves `mantissa · 2^exponent` to the scale at which a double stores it: a full mantissa,
or the least exponent. The fuel is the width of a mantissa. -/
def normalize : Nat → Nat → Int → Nat × Int
  | 0, mantissa, exponent => (mantissa, exponent)
  | fuel + 1, mantissa, exponent =>
    if hiddenBit ≤ mantissa ∨ exponent ≤ leastExponent then (mantissa, exponent)
    else normalize fuel (2 * mantissa) (exponent - 1)

/-- The double `± mantissa · 2^exponent`, for a value that is one exactly. -/
def encode (negative : Bool) (mantissa : Nat) (exponent : Int) : Float :=
  let sign := if negative then Nat.pow 2 63 else 0
  let (m, q) := normalize 53 mantissa exponent
  -- a mantissa without the hidden bit is the one of a small number
  let bits :=
    if m < hiddenBit then m
    else (q - leastExponent + 1).toNat * Nat.pow 2 52 + (m - hiddenBit)
  Float.ofBits (sign + bits).toUInt64

/-- Whether the double is neither infinite nor a NaN. -/
def isFinite (x : Float) : Bool :=
  match decode x with
  | .finite .. => true
  | _ => false

/-- The integer part of a finite double, cut toward zero. -/
def truncate? (x : Float) : Option Int :=
  match decode x with
  | .finite negative mantissa exponent =>
    let magnitude : Nat :=
      if 0 ≤ exponent then mantissa * Nat.pow 2 exponent.toNat
      else mantissa / Nat.pow 2 (-exponent).toNat
    some (if negative then -(magnitude : Int) else magnitude)
  | _ => none

/-- Whether a double is a whole number. -/
def isWhole (x : Float) : Bool :=
  match decode x with
  | .finite _ mantissa exponent =>
    0 ≤ exponent || mantissa % Nat.pow 2 (-exponent).toNat == 0
  | _ => false

/-- The remainder of a division whose quotient is cut toward zero. It has the sign of the
dividend and is exact: at the smaller of the two scales both numbers are integers. -/
def remainder (a b : Float) : Float :=
  match decode a, decode b with
  | .finite negative ma qa, .finite _ mb qb =>
    if mb = 0 then 0.0 / 0.0
    else
      let q := min qa qb
      let left := ma * Nat.pow 2 (qa - q).toNat
      let right := mb * Nat.pow 2 (qb - q).toNat
      encode negative (left % right) q
  | .finite .., .infinite _ => a
  | _, _ => 0.0 / 0.0

/-- Whether `significand · 10^exponent` is too large for a double. The number of its digits in
front of the point decides, unless it is near that of the largest double. -/
def roundsToInfinity (significand : Nat) (exponent : Int) : Bool :=
  let size := (toString significand).length + exponent
  if significand = 0 ∨ size < 300 then false
  else if 400 < size then true
  else !isFinite (Float.ofScientific significand (exponent < 0) exponent.natAbs)

/-- The lower-case hexadecimal digit of a number below sixteen. -/
def hexDigit (n : Nat) : Char :=
  if n < 10 then Char.ofNat (48 + n) else Char.ofNat (87 + n)

/-- The last `width` hexadecimal digits of a number, most significant first. -/
def hexDigits (width n : Nat) : List Char :=
  (List.range width).map fun i => hexDigit (n / Nat.pow 16 (width - 1 - i) % 16)

/-- The value of a hexadecimal digit of either case. -/
def hexValue? (c : Char) : Option Nat :=
  if '0' ≤ c ∧ c ≤ '9' then some (c.toNat - 48)
  else if 'a' ≤ c ∧ c ≤ 'f' then some (c.toNat - 87)
  else if 'A' ≤ c ∧ c ≤ 'F' then some (c.toNat - 55)
  else none

/-- The value of a text of hexadecimal digits. -/
def ofHex? (digits : List Char) : Option Nat :=
  digits.foldl (fun acc c => do return 16 * (← acc) + (← hexValue? c)) (some 0)

end DurableFlow.Number
