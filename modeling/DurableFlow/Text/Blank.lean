/-
White space, as text is trimmed by it: the characters with the Unicode property
`White_Space`.
-/
set_option autoImplicit false

namespace DurableFlow.Text

/-- Whether a character is white space. -/
def isWhiteSpace (c : Char) : Bool :=
  let n := c.toNat
  (0x09 ≤ n && n ≤ 0x0D) || n == 0x20 || n == 0x85 || n == 0xA0 || n == 0x1680
    || (0x2000 ≤ n && n ≤ 0x200A) || n == 0x2028 || n == 0x2029 || n == 0x202F || n == 0x205F
    || n == 0x3000

/-- Characters without the white space at their start. -/
def trimStart (cs : List Char) : List Char := cs.dropWhile isWhiteSpace

/-- Characters without the white space at both ends. -/
def trim (cs : List Char) : List Char :=
  (trimStart (trimStart cs).reverse).reverse

/-- The number written with decimal digits, after a plus sign if there is one, when it is
below `bound`. -/
def natOfChars? (bound : Nat) (cs : List Char) : Option Nat :=
  let digits := match cs with
    | '+' :: rest => rest
    | cs => cs
  if digits.isEmpty || !digits.all (fun c => '0' ≤ c && c ≤ '9') then none
  else
    let n := digits.foldl (fun n c => 10 * n + (c.toNat - 48)) 0
    if n < bound then some n else none

/-- The number that a text writes in this way. -/
def natBelow? (bound : Nat) (text : String) : Option Nat := natOfChars? bound text.toList

/-- Decimal digits of a number, filled up with zeros in front. -/
def padded (width n : Nat) : String :=
  let digits := toString n
  String.ofList (List.replicate (width - digits.length) '0') ++ digits

end DurableFlow.Text
