/-
The text of a value is read as the value.

A value is written in front of the text that follows it, and that is how it is read:
what was written is consumed, and the rest is left. Blanks are put in front of items,
members and closing brackets only, where the reader skips them. The induction is on the
value, with as much fuel as twice the text that is consumed; each character that is
written pays for the calls that lead to it.

Doubles are left out, and so are names that need escapes, since a document remembers
whether a name was written as it is.
-/
import Mathlib.Algebra.Group.Nat.Defs
import Mathlib.Algebra.Group.Int.Defs
import DurableFlow.Json.Reader
import DurableFlow.Proofs.Data.Members
import DurableFlow.Proofs.Json.Document

set_option autoImplicit false

open DurableFlow.Number
open scoped DurableFlow.Members

namespace DurableFlow.Json

variable {cs rest : List Char}

/-! ## Blanks -/

theorem skipBlanks_cons {c : Char} (h : isBlank c = false) (cs : List Char) : skipBlanks (c :: cs) = c :: cs := by
  rw [skipBlanks, List.dropWhile_cons, h]
  rfl

theorem skipBlanks_spaces (n : Nat) (cs : List Char) :
    skipBlanks (List.replicate n ' ' ++ cs) = skipBlanks cs := by
  induction n with
  | zero => rfl
  | succ n ih =>
    rw [List.replicate_succ, List.cons_append, skipBlanks, List.dropWhile_cons]
    exact ih

/-- The start of a line is passed over. -/
theorem skipBlanks_startLine (layout : Layout) (depth : Nat) (cs : List Char) :
    skipBlanks (layout.startLine depth cs) = skipBlanks cs := by
  cases layout with
  | compact => rfl
  | indented => exact skipBlanks_spaces (2 * depth) cs

theorem length_startLine (layout : Layout) (depth : Nat) (cs : List Char) :
    cs.length ≤ (layout.startLine depth cs).length := by
  cases layout with
  | compact => exact Nat.le_refl _
  | indented =>
    rw [Layout.startLine, List.length_cons, List.length_append]
    omega

/-! ## Strings -/

/-- The four digits of a control character are its number. -/
theorem readHex4_hexDigits {n : Nat} (h : n < 32) (rest : List Char) :
    readHex4 (hexDigits 4 n ++ rest) = some (n, rest) := by
  have hall : ∀ n < 32, ofHex? (hexDigits 4 n) = some n := by decide
  have hvalue := hall n h
  have hdigits : hexDigits 4 n = [hexDigit (n / Nat.pow 16 3 % 16), hexDigit (n / Nat.pow 16 2 % 16),
    hexDigit (n / Nat.pow 16 1 % 16), hexDigit (n / Nat.pow 16 0 % 16)] := rfl
  rw [hdigits] at hvalue ⊢
  simp only [List.cons_append, List.nil_append, readHex4, hvalue]
  rfl

theorem readUnicode_hexDigits {c : Char} (h : c.toNat < 32) (rest : List Char) :
    readUnicode (hexDigits 4 c.toNat ++ rest) = some (some c, rest) := by
  -- a control character is no half of a pair, so that one escape is the whole of it
  have hhigh : isHighHalf c.toNat = false := by
    simp only [isHighHalf, Bool.and_eq_false_iff, decide_eq_false_iff_not]
    omega
  have hlow : isLowHalf c.toNat = false := by
    simp only [isLowHalf, Bool.and_eq_false_iff, decide_eq_false_iff_not]
    omega
  unfold readUnicode
  rw [readHex4_hexDigits h]
  simp [hhigh, hlow]

/-- What an escape stands for is the character that was escaped. -/
theorem readChars_escapeChar (fuel : Nat) (acc : List Char) (c : Char) (rest : List Char) :
    readChars (fuel + 1) (some acc) (escapeChar c ++ rest) = readChars fuel (some (c :: acc)) rest := by
  unfold escapeChar
  -- the characters that have an escape of their own come first, in the order of `escapeChar`
  by_cases hquote : c = quote
  · subst hquote
    rfl
  by_cases hbackslash : c = backslash
  · subst hbackslash
    rfl
  by_cases hnewline : c = '\n'
  · subst hnewline
    rfl
  by_cases hreturn : c = '\r'
  · subst hreturn
    rfl
  by_cases htab : c = '\t'
  · subst htab
    rfl
  by_cases hback : c = '\x08'
  · subst hback
    rfl
  by_cases hfeed : c = '\x0c'
  · subst hfeed
    rfl
  -- of the rest the control characters are written by number, and others as they are
  simp only [if_neg hquote, if_neg hbackslash, if_neg hnewline, if_neg hreturn, if_neg htab, if_neg hback,
    if_neg hfeed]
  by_cases hcontrol : c.toNat < 32
  · have hslash : backslash ≠ quote := by decide
    rw [if_pos hcontrol, List.cons_append, List.cons_append, readChars.eq_def]
    simp only [if_neg hslash, if_true, readUnicode_hexDigits hcontrol]
    rfl
  · rw [if_neg hcontrol, List.singleton_append, readChars.eq_def]
    simp only [if_neg hquote, if_neg hbackslash, if_neg hcontrol, Option.map_some]

/-- **The characters of a string** are read up to the quote that ends it. -/
theorem readChars_escaped (text acc rest : List Char) {fuel : Nat} (h : text.length < fuel) :
    readChars fuel (some acc) (text.foldr (fun c more => escapeChar c ++ more) (quote :: rest)) =
      some (some (String.ofList (acc.reverse ++ text)), rest) := by
  induction text generalizing acc fuel with
  | nil =>
    obtain ⟨fuel, rfl⟩ : ∃ n, fuel = n + 1 := ⟨fuel - 1, by simp at h; omega⟩
    rw [List.foldr_nil, readChars.eq_def, List.append_nil]
    simp only [if_true, Option.map_some]
  | cons c text ih =>
    rw [List.length_cons] at h
    obtain ⟨fuel, rfl⟩ : ∃ n, fuel = n + 1 := ⟨fuel - 1, by omega⟩
    rw [List.foldr_cons, readChars_escapeChar, ih (c :: acc) (by omega)]
    simp

theorem readString_writeString (s : String) (rest : List Char) {fuel : Nat} (h : s.toList.length < fuel) :
    readString fuel (writeString s rest) = some (some s, rest) := by
  rw [writeString, readString, if_pos rfl, readChars_escaped s.toList [] rest h]
  simp

theorem length_escaped (text rest : List Char) :
    text.length + rest.length ≤ (text.foldr (fun c more => escapeChar c ++ more) rest).length := by
  have hone : ∀ c, 1 ≤ (escapeChar c).length := by
    intro c
    unfold escapeChar
    repeat' split
    all_goals simp
  induction text with
  | nil => simp
  | cons c text ih =>
    have hc := hone c
    rw [List.foldr_cons, List.length_append, List.length_cons]
    omega

theorem length_writeString (s : String) (rest : List Char) :
    s.toList.length + 2 + rest.length ≤ (writeString s rest).length := by
  have hescaped := length_escaped s.toList (quote :: rest)
  rw [writeString, List.length_cons]
  rw [List.length_cons] at hescaped
  omega

/-- Whether a name is written without escapes. -/
def IsPlain (name : String) : Prop := ∀ c ∈ name.toList, escapeChar c = [c]

theorem writeString_of_isPlain {name : String} (h : IsPlain name) (rest : List Char) :
    writeString name rest = quote :: (name.toList ++ quote :: rest) := by
  have hall : ∀ text : List Char, (∀ c ∈ text, escapeChar c = [c]) →
      text.foldr (fun c more => escapeChar c ++ more) (quote :: rest) = text ++ quote :: rest := by
    intro text htext
    induction text with
    | nil => rfl
    | cons c text ih =>
      rw [List.foldr_cons, htext c List.mem_cons_self, ih fun d hd => htext d (List.mem_cons_of_mem c hd)]
      rfl
  rw [writeString, hall _ h]

/-- **A plain name** is read as one. -/
theorem readName_writeString {name : String} (h : IsPlain name) (rest : List Char) {fuel : Nat}
    (hfuel : name.toList.length < fuel) :
    readName fuel (writeString name rest) = some (some ⟨name, true⟩, rest) := by
  have hstarts : (quote :: name.toList ++ [quote]).isPrefixOf (writeString name rest) = true := by
    rw [writeString_of_isPlain h]
    exact List.isPrefixOf_iff_prefix.mpr ⟨rest, by simp⟩
  rw [readName, readString_writeString name rest hfuel]
  simp only [Option.map_some, hstarts]

/-! ## Integers -/

/-- Whether no number goes on at the start of a text. -/
def Ends (cs : List Char) : Prop := ∀ c ∈ cs.head?, c ∈ [',', ']', '\x7d', '\n']

theorem ends_cons {c : Char} (h : c ∈ [',', ']', '\x7d', '\n']) (cs : List Char) : Ends (c :: cs) := by
  intro d hd
  rw [← Option.some.inj hd]
  exact h

theorem ends_startLine (layout : Layout) (depth : Nat) {c : Char} (h : c ∈ [',', ']', '\x7d', '\n']) :
    Ends (layout.startLine depth (c :: cs)) := by
  cases layout with
  | compact => exact ends_cons h cs
  | indented => exact ends_cons (by simp) _

theorem isDigit_of_mem_digits {n : Nat} {c : Char} (h : c ∈ Nat.toDigits 10 n) : isDigit c = true := by
  have hdigit := Nat.isDigit_of_mem_toDigits (by decide) (by decide) h
  simpa [isDigit, Char.isDigit, Char.le_def] using hdigit

/-- The digits of a number fit its significand if the number does. -/
theorem accumulate_eq (digits : List Char) (significand : Nat)
    (h : digits.foldl (fun n c => n * 10 + digitValue c) significand ≤ maxSignificand) :
    accumulate significand digits = (digits.foldl (fun n c => n * 10 + digitValue c) significand, []) := by
  -- so no step before the last one passes the bound either
  have hgrows : ∀ (digits : List Char) (n : Nat), n ≤ digits.foldl (fun n c => n * 10 + digitValue c) n := by
    intro digits
    induction digits with
    | nil => exact fun n => Nat.le_refl n
    | cons c digits ih =>
      intro n
      have hstep := ih (n * 10 + digitValue c)
      rw [List.foldl_cons]
      omega
  induction digits generalizing significand with
  | nil => rfl
  | cons c digits ih =>
    rw [List.foldl_cons] at h
    have hnext := Nat.le_trans (hgrows digits _) h
    rw [accumulate, if_pos hnext, ih _ h, List.foldl_cons]

theorem foldl_digits (n : Nat) : (Nat.toDigits 10 n).foldl (fun n c => n * 10 + digitValue c) 0 = n := by
  have hvalue : (Nat.toDigits 10 n).foldl (fun n c => 10 * n + (c.toNat - 48)) 0 = n :=
    Nat.ofDigitChars_ten_toDigits
  have hsame : (fun n (c : Char) => n * 10 + digitValue c) = fun n c => 10 * n + (c.toNat - 48) := by
    funext n c
    rw [Nat.mul_comm, digitValue]
  rw [hsame]
  exact hvalue

/-- A leading zero stands alone. -/
theorem head_digits {n : Nat} (h : 0 < n) (tail : List Char) : Nat.toDigits 10 n ≠ '0' :: tail := by
  induction n using Nat.strongRecOn generalizing tail with
  | ind n ih =>
    intro heq
    by_cases hsmall : n < 10
    · rw [Nat.toDigits_of_lt_base hsmall] at heq
      have hchar : ∀ n < 10, 0 < n → n.digitChar ≠ '0' := by decide
      exact hchar n hsmall h (List.cons.inj heq).1
    · rw [Nat.toDigits_of_base_le (by decide) (by omega)] at heq
      rcases hsplit : Nat.toDigits 10 (n / 10) with _ | ⟨c, digits⟩
      · exact Nat.toDigits_ne_nil hsplit
      · rw [hsplit] at heq
        obtain rfl := (List.cons.inj heq).1
        exact ih (n / 10) (by omega) (by omega) digits hsplit

/-- The digits in front of the point. -/
def wholePart (input : List Char) : List Char :=
  match input with
  | '0' :: _ => ['0']
  | _ => input.takeWhile isDigit

/-- A number behind its sign. -/
def readUnsigned (negative : Bool) (input : List Char) : Option (Option Json.Number × List Char) := do
  let whole := wholePart input
  let rest := input.drop whole.length
  if whole.isEmpty || (whole == ['0'] && (rest.head?.any isDigit)) then failure
  let (fraction, rest) ← fractionPart rest
  let (power, rest) ← exponentPart rest
  let (significand, dropped) := accumulate 0 whole
  if fraction.isNone && power.isNone && dropped.isEmpty then
    return (some (integerNumber negative significand), rest)
  return (fractionalNumber negative whole (fraction.getD []) power, rest)

theorem readNumber_minus (cs : List Char) : readNumber ('-' :: cs) = readUnsigned true cs := rfl

theorem readNumber_cons {c : Char} (h : c ≠ '-') (cs : List Char) :
    readNumber (c :: cs) = readUnsigned false (c :: cs) := by
  unfold readNumber
  split
  · next heq =>
    split at heq
    · next hminus => exact absurd (List.cons.inj hminus).1 h
    · cases heq
      rfl

/-- The digits that a number starts with are all of them. -/
theorem wholePart_eq (n : Nat) (hrest : Ends rest) : wholePart (Nat.toDigits 10 n ++ rest) = Nat.toDigits 10 n := by
  have hend : ∀ c ∈ rest.head?, isDigit c = false := by
    intro c hc
    have hno : ∀ c ∈ [',', ']', '\x7d', '\n'], isDigit c = false := by decide
    exact hno c (hrest c hc)
  -- a zero is a whole part by itself, which is a case of its own in the reader
  by_cases hzero : n = 0
  · subst hzero
    rfl
  · rcases hsplit : Nat.toDigits 10 n with _ | ⟨c, digits⟩
    · exact absurd hsplit Nat.toDigits_ne_nil
    · have hc : c ≠ '0' := by
        rintro rfl
        exact head_digits (Nat.pos_of_ne_zero hzero) digits hsplit
      have hdigits : ∀ d ∈ c :: digits, isDigit d = true := fun d hd => isDigit_of_mem_digits (hsplit ▸ hd)
      have hnone : rest.takeWhile isDigit = [] := by
        obtain _ | ⟨d, rest⟩ := rest
        · rfl
        · rw [List.takeWhile_cons, hend d rfl]
          rfl
      unfold wholePart
      split
      · next heq => exact absurd (List.cons.inj heq).1 hc
      · rw [List.takeWhile_append_of_pos hdigits, hnone, List.append_nil]

/-- Digits are read up to where no number goes on. -/
theorem readUnsigned_digits {n : Nat} (h : n < 2 ^ 64) (negative : Bool) (hrest : Ends rest) :
    readUnsigned negative (Nat.toDigits 10 n ++ rest) = some (some (integerNumber negative n), rest) := by
  have hend : ∀ c ∈ rest.head?, c ≠ '.' ∧ c ≠ 'e' ∧ c ≠ 'E' ∧ isDigit c = false := by
    intro c hc
    have hno : ∀ c ∈ [',', ']', '\x7d', '\n'], c ≠ '.' ∧ c ≠ 'e' ∧ c ≠ 'E' ∧ isDigit c = false := by decide
    exact hno c (hrest c hc)
  have hfraction : fractionPart rest = some (none, rest) := by
    unfold fractionPart
    split
    · exact absurd rfl (hend '.' rfl).1
    · rfl
  have hexponent : exponentPart rest = some (none, rest) := by
    obtain _ | ⟨c, rest⟩ := rest
    · rfl
    · obtain ⟨-, hlower, hupper, -⟩ := hend c rfl
      simp only [exponentPart, hlower, hupper, or_self, if_false]
  have hzero : (rest.head?.any isDigit) = false := by
    obtain _ | ⟨c, rest⟩ := rest
    · rfl
    · exact (hend c rfl).2.2.2
  -- below 2 ^ 64 nothing is dropped, and the number stays an integer
  have hfits : accumulate 0 (Nat.toDigits 10 n) = (n, []) := by
    have hmax : (Nat.toDigits 10 n).foldl (fun n c => n * 10 + digitValue c) 0 ≤ maxSignificand := by
      rw [foldl_digits, maxSignificand, Nat.pow_eq]
      omega
    rw [accumulate_eq _ 0 hmax, foldl_digits]
  have hempty : (Nat.toDigits 10 n).isEmpty = false := by
    rw [List.isEmpty_eq_false_iff]
    exact Nat.toDigits_ne_nil
  unfold readUnsigned
  simp only [wholePart_eq n hrest, List.drop_left, hempty, hzero, Bool.and_false, Bool.or_false,
    Bool.false_eq_true, if_false]
  rw [hfraction]
  simp [hexponent, hfits]

/-- Whether an integer fits a word, signed or not. -/
def IsWord (n : Int) : Prop := -(2 ^ 63) ≤ n ∧ n < 2 ^ 64

/-- **An integer is read** up to where no number goes on. -/
theorem readNumber_numberText {n : Int} (h : IsWord n) (hrest : Ends rest) :
    readNumber (numberText (.int n) ++ rest) = some (some (.int n), rest) := by
  obtain ⟨hlow, hhigh⟩ := h
  rw [numberText, Decimal.digitText]
  by_cases hnegative : n < 0
  · have hinteger : integerNumber true n.natAbs = .int n := by
      rw [integerNumber, if_pos rfl, if_pos ⟨by omega, by rw [Nat.pow_eq]; omega⟩]
      congr 1
      omega
    rw [if_pos hnegative, List.singleton_append, List.cons_append, readNumber_minus,
      readUnsigned_digits (by omega) true hrest, hinteger]
  · have hinteger : integerNumber false n.natAbs = .int n := by
      rw [integerNumber, if_neg Bool.false_ne_true]
      congr 1
      omega
    -- the reader looks for a minus sign, and a digit is none
    have hread := readUnsigned_digits (n := n.natAbs) (by omega) false hrest
    rw [if_neg hnegative, List.nil_append]
    rcases hsplit : Nat.toDigits 10 n.natAbs with _ | ⟨c, digits⟩
    · exact absurd hsplit Nat.toDigits_ne_nil
    · have hc : c ≠ '-' := by
        rintro rfl
        have hdigit : isDigit '-' = true := isDigit_of_mem_digits (hsplit ▸ List.mem_cons_self)
        cases hdigit
      rw [List.cons_append, readNumber_cons hc, ← List.cons_append, ← hsplit, hread, hinteger]

/-- A number starts with its sign or with a digit. -/
theorem head_numberText (n : Int) (rest : List Char) :
    ∃ c more, numberText (.int n) ++ rest = c :: more ∧ (c = '-' ∨ isDigit c = true) := by
  rw [numberText, Decimal.digitText]
  by_cases hnegative : n < 0
  · rw [if_pos hnegative]
    exact ⟨'-', _, rfl, .inl rfl⟩
  · rw [if_neg hnegative, List.nil_append]
    rcases hsplit : Nat.toDigits 10 n.natAbs with _ | ⟨c, digits⟩
    · exact absurd hsplit Nat.toDigits_ne_nil
    · exact ⟨c, digits ++ rest, rfl, .inr (isDigit_of_mem_digits (hsplit ▸ List.mem_cons_self))⟩

/-! ## What is read back -/

mutual

/-- Whether a value is read back where so many levels may be nested: its integers are words, its names
are plain, and no number is a double. -/
def Fits : Nat → Json → Prop
  | _, .null => True
  | _, .bool _ => True
  | _, .num (.int n) => IsWord n
  | _, .num (.float _) => False
  | _, .str _ => True
  | depth, .arr items => 0 < depth ∧ FitsItems (depth - 1) items
  | depth, .obj members => 0 < depth ∧ FitsMembers (depth - 1) members

def FitsItems : Nat → List Json → Prop
  | _, [] => True
  | depth, item :: items => Fits depth item ∧ FitsItems depth items

def FitsMembers : Nat → List (String × Json) → Prop
  | _, [] => True
  | depth, (name, value) :: members => IsPlain name ∧ Fits depth value ∧ FitsMembers depth members

end

section

variable (layout : Layout)

theorem length_colon (rest : List Char) : rest.length < (layout.colon rest).length := by
  cases layout with
  | compact =>
    rw [Layout.colon, List.length_cons]
    omega
  | indented =>
    rw [Layout.colon, List.length_cons, List.length_cons]
    omega

/-- A name on a line of its own, with the colon behind it. -/
theorem length_name (level : Nat) (name : String) (rest : List Char) :
    name.toList.length + 2 + rest.length < (layout.startLine level (writeString name (layout.colon rest))).length := by
  have hcolon := length_colon layout rest
  have hname := length_writeString name (layout.colon rest)
  have hline := length_startLine layout level (writeString name (layout.colon rest))
  omega

mutual

/-- Every value has a text. -/
theorem length_write : ∀ (j : Json) {depth : Nat} (level : Nat) (rest : List Char), j.Fits depth →
    rest.length < (write layout level j rest).length
  | .null, _, _, _, _ => by
    rw [write]
    simp only [List.length_cons]
    omega
  | .bool true, _, _, _, _ => by
    rw [write]
    simp only [List.length_cons]
    omega
  | .bool false, _, _, _, _ => by
    rw [write]
    simp only [List.length_cons]
    omega
  | .num (.int n), _, _, rest, _ => by
    obtain ⟨c, more, htext, -⟩ := head_numberText n []
    rw [List.append_nil] at htext
    rw [write, htext, List.length_append, List.length_cons]
    omega
  -- what fits has no doubles in it
  | .num (.float _), _, _, _, h => by
    rw [Fits] at h
    exact h.elim
  | .str s, _, _, rest, _ => by
    have hlength := length_writeString s rest
    rw [write]
    omega
  | .arr [], _, _, _, _ => by
    rw [write]
    simp only [List.length_cons]
    omega
  | .arr (item :: items), _, level, rest, h => by
    rw [Fits, FitsItems] at h
    have hitems := length_writeItems items level rest h.2.2
    have hitem := length_write item (level + 1) (writeItems layout level items rest) h.2.1
    have hline := length_startLine layout (level + 1)
      (write layout (level + 1) item (writeItems layout level items rest))
    rw [write, List.length_cons]
    omega
  | .obj [], _, _, _, _ => by
    rw [write]
    simp only [List.length_cons]
    omega
  | .obj ((name, value) :: members), _, level, rest, h => by
    rw [Fits, FitsMembers] at h
    have hmembers := length_writeMembers members level rest h.2.2.2
    have hvalue := length_write value (level + 1) (writeMembers layout level members rest) h.2.2.1
    have hname := length_name layout (level + 1) name
      (write layout (level + 1) value (writeMembers layout level members rest))
    rw [write, List.length_cons]
    omega

theorem length_writeItems : ∀ (items : List Json) {depth : Nat} (level : Nat) (rest : List Char),
    FitsItems depth items → rest.length < (writeItems layout level items rest).length
  | [], _, level, rest, _ => by
    have hline := length_startLine layout level (']' :: rest)
    rw [writeItems]
    rw [List.length_cons] at hline
    omega
  | item :: items, _, level, rest, h => by
    rw [FitsItems] at h
    have hitems := length_writeItems items level rest h.2
    have hitem := length_write item (level + 1) (writeItems layout level items rest) h.1
    have hline := length_startLine layout (level + 1)
      (write layout (level + 1) item (writeItems layout level items rest))
    rw [writeItems, List.length_cons]
    omega

theorem length_writeMembers : ∀ (members : List (String × Json)) {depth : Nat} (level : Nat) (rest : List Char),
    FitsMembers depth members → rest.length < (writeMembers layout level members rest).length
  | [], _, level, rest, _ => by
    have hline := length_startLine layout level ('\x7d' :: rest)
    rw [writeMembers]
    rw [List.length_cons] at hline
    omega
  | (name, value) :: members, _, level, rest, h => by
    rw [FitsMembers] at h
    have hmembers := length_writeMembers members level rest h.2.2
    have hvalue := length_write value (level + 1) (writeMembers layout level members rest) h.2.1
    have hname := length_name layout (level + 1) name
      (write layout (level + 1) value (writeMembers layout level members rest))
    rw [writeMembers, List.length_cons]
    omega

end

/-! ## Reading what was written -/

/-- What follows an item ends it. -/
theorem ends_writeItems (items : List Json) (level : Nat) (rest : List Char) :
    Ends (writeItems layout level items rest) := by
  cases items with
  | nil =>
    rw [writeItems]
    exact ends_startLine layout level (by simp)
  | cons item items =>
    rw [writeItems]
    exact ends_cons (by simp) _

/-- What follows a member ends it. -/
theorem ends_writeMembers (members : List (String × Json)) (level : Nat) (rest : List Char) :
    Ends (writeMembers layout level members rest) := by
  cases members with
  | nil =>
    rw [writeMembers]
    exact ends_startLine layout level (by simp)
  | cons member members =>
    obtain ⟨name, value⟩ := member
    rw [writeMembers]
    exact ends_cons (by simp) _

/-- The colon behind a name. -/
theorem skipBlanks_colon (rest : List Char) :
    ∃ more, skipBlanks (layout.colon rest) = ':' :: more ∧ skipBlanks more = skipBlanks rest := by
  cases layout with
  | compact => exact ⟨rest, rfl, rfl⟩
  | indented => exact ⟨' ' :: rest, rfl, rfl⟩

theorem skipBlanks_writeString (name : String) (rest : List Char) :
    skipBlanks (writeString name rest) = writeString name rest :=
  skipBlanks_cons (by decide) _

/-- A number is tried when nothing else can start. -/
theorem readValue_number {fuel depth : Nat} {input : List Char} {c : Char} {more : List Char}
    (hinput : skipBlanks input = c :: more) (hc : c = '-' ∨ isDigit c = true) :
    readValue (fuel + 1) depth input =
      (readNumber (c :: more)).map fun r => (r.1.elim .unusable .num, r.2) := by
  -- each other kind of value starts with one of these
  have hno : ∀ d ∈ ['n', 't', 'f', '\x22', '[', '\x7b'], c ≠ d := by
    rintro d hd rfl
    have hclass : ∀ d ∈ ['n', 't', 'f', '\x22', '[', '\x7b'], ¬(d = '-' ∨ isDigit d = true) := by decide
    exact hclass _ hd hc
  rw [readValue, hinput]
  split
  · next heq => exact absurd (List.cons.inj heq).1 (hno _ (by simp))
  · next heq => exact absurd (List.cons.inj heq).1 (hno _ (by simp))
  · next heq => exact absurd (List.cons.inj heq).1 (hno _ (by simp))
  · next heq => exact absurd (List.cons.inj heq).1 (hno _ (by simp))
  · next heq => exact absurd (List.cons.inj heq).1 (hno _ (by simp))
  · next heq => exact absurd (List.cons.inj heq).1 (hno _ (by simp))
  · rfl

/-- What a value starts with is no blank and closes nothing. -/
theorem head_write {depth : Nat} {j : Json} (h : j.Fits depth) (level : Nat) (rest : List Char) :
    ∃ c more, write layout level j rest = c :: more ∧ isBlank c = false ∧ c ≠ ']' ∧ c ≠ '\x7d' := by
  cases j with
  | null => exact ⟨'n', _, by rw [write], by decide⟩
  | bool b =>
    cases b with
    | true => exact ⟨'t', _, by rw [write], by decide⟩
    | false => exact ⟨'f', _, by rw [write], by decide⟩
  | num n =>
    cases n with
    | int n =>
      obtain ⟨c, more, htext, hc⟩ := head_numberText n rest
      refine ⟨c, more, by rw [write, htext], ?_, ?_, ?_⟩
      · rw [← Bool.not_eq_true]
        intro hblank
        simp only [isBlank, Bool.or_eq_true, decide_eq_true_eq] at hblank
        rcases hblank with ((rfl | rfl) | rfl) | rfl
        all_goals exact absurd hc (by decide)
      · rintro rfl
        exact absurd hc (by decide)
      · rintro rfl
        exact absurd hc (by decide)
    | float x =>
      rw [Fits] at h
      exact h.elim
  | str s => exact ⟨quote, _, by rw [write]; rfl, by decide⟩
  | arr items =>
    cases items with
    | nil => exact ⟨'[', _, by rw [write], by decide⟩
    | cons item items => exact ⟨'[', _, by rw [write], by decide⟩
  | obj members =>
    cases members with
    | nil => exact ⟨'\x7b', _, by rw [write], by decide⟩
    | cons member members =>
      obtain ⟨name, value⟩ := member
      exact ⟨'\x7b', _, by rw [write], by decide⟩

theorem skipBlanks_write {depth : Nat} {j : Json} (h : j.Fits depth) (level : Nat) (rest : List Char) :
    skipBlanks (write layout level j rest) = write layout level j rest := by
  obtain ⟨c, more, htext, hblank, -⟩ := head_write layout h level rest
  rw [htext, skipBlanks_cons hblank]

theorem within_of_pos {depth : Nat} (h : 0 < depth) (d : Document) : within depth d = d := by
  rw [within, if_neg (by omega)]

section

variable {fuel depth : Nat} {input later more text : List Char}

theorem readValue_items {c : Char} (hinput : skipBlanks input = '[' :: more) (hmore : skipBlanks more = c :: text)
    (hc : c ≠ ']') : readValue (fuel + 1) depth input =
      (readItems fuel (depth - 1) [] (c :: text)).map fun r => (within depth (.arr r.1), r.2) := by
  rw [readValue, hinput]
  simp only [hmore]
  split
  · next heq => exact absurd (List.cons.inj heq).1 hc
  · rfl

theorem readValue_members {c : Char} (hinput : skipBlanks input = '\x7b' :: more)
    (hmore : skipBlanks more = c :: text) (hc : c ≠ '\x7d') : readValue (fuel + 1) depth input =
      (readMembers fuel (depth - 1) (some []) (c :: text)).map fun r => (within depth r.1, r.2) := by
  rw [readValue, hinput]
  simp only [hmore]
  split
  · next heq => exact absurd (List.cons.inj heq).1 hc
  · rfl

/-- The ways in which items go on behind one that is read. -/
theorem readItems_succ {acc : List Document} {first : Document}
    (hfirst : readValue fuel depth input = some (first, later)) :
    (skipBlanks later = ']' :: more → readItems (fuel + 1) depth acc input = some ((first :: acc).reverse, more)) ∧
      (skipBlanks later = ',' :: more →
        readItems (fuel + 1) depth acc input = readItems fuel depth (first :: acc) more) := by
  rw [readItems, hfirst]
  refine ⟨fun hlater => ?_, fun hlater => ?_⟩
  · simp only [hlater]
  · simp only [hlater]

/-- The ways in which members go on behind one that is read. -/
theorem readMembers_succ {rest : List Char} {acc : List (Document.Name × Document)} {name : Document.Name}
    {value : Document} (hname : readName fuel (skipBlanks input) = some (some name, later))
    (hlater : skipBlanks later = ':' :: text) (hvalue : readValue fuel depth text = some (value, rest)) :
    (skipBlanks rest = '\x7d' :: more →
        readMembers (fuel + 1) depth (some acc) input = some (.obj ((name, value) :: acc).reverse, more)) ∧
      (skipBlanks rest = ',' :: more →
        readMembers (fuel + 1) depth (some acc) input = readMembers fuel depth (some ((name, value) :: acc)) more) := by
  rw [readMembers, hname]
  simp only [hlater, hvalue]
  refine ⟨fun hrest => ?_, fun hrest => ?_⟩
  · simp only [hrest]
    rfl
  · simp only [hrest]
    rfl

end

mutual

/-- **A value is read back** from its text, behind any blanks and in front of whatever ends it. -/
theorem readValue_write : ∀ (j : Json) {depth : Nat} (level : Nat) {rest input : List Char} {fuel : Nat},
    j.Fits depth → Ends rest → 2 * (write layout level j rest).length ≤ fuel + 2 * rest.length →
    skipBlanks input = skipBlanks (write layout level j rest) →
    readValue fuel depth input = some (Document.ofJson j, rest)
  | .null, depth, level, rest, input, fuel, _, _, hfuel, hinput => by
    rw [write] at hfuel hinput
    simp only [List.length_cons] at hfuel
    obtain ⟨fuel, rfl⟩ : ∃ n, fuel = n + 1 := ⟨fuel - 1, by omega⟩
    rw [readValue, hinput, Document.ofJson]
    rfl
  | .bool true, depth, level, rest, input, fuel, _, _, hfuel, hinput => by
    rw [write] at hfuel hinput
    simp only [List.length_cons] at hfuel
    obtain ⟨fuel, rfl⟩ : ∃ n, fuel = n + 1 := ⟨fuel - 1, by omega⟩
    rw [readValue, hinput, Document.ofJson]
    rfl
  | .bool false, depth, level, rest, input, fuel, _, _, hfuel, hinput => by
    rw [write] at hfuel hinput
    simp only [List.length_cons] at hfuel
    obtain ⟨fuel, rfl⟩ : ∃ n, fuel = n + 1 := ⟨fuel - 1, by omega⟩
    rw [readValue, hinput, Document.ofJson]
    rfl
  | .num (.int n), depth, level, rest, input, fuel, h, hrest, hfuel, hinput => by
    have hlength := length_write layout (.num (.int n)) level rest h
    obtain ⟨fuel, rfl⟩ : ∃ n, fuel = n + 1 := ⟨fuel - 1, by omega⟩
    rw [skipBlanks_write layout h, write] at hinput
    rw [Fits] at h
    obtain ⟨c, more, htext, hc⟩ := head_numberText n rest
    rw [readValue_number (hinput.trans htext) hc, ← htext, readNumber_numberText h hrest, Document.ofJson]
    rfl
  | .num (.float _), depth, level, rest, input, fuel, h, _, _, _ => by
    rw [Fits] at h
    exact h.elim
  | .str s, depth, level, rest, input, fuel, h, _, hfuel, hinput => by
    have hlength := length_writeString s rest
    rw [skipBlanks_write layout h, write] at hinput
    rw [write] at hfuel
    obtain ⟨fuel, rfl⟩ : ∃ n, fuel = n + 1 := ⟨fuel - 1, by omega⟩
    have hstring := readString_writeString s rest (by omega : s.toList.length < fuel)
    rw [writeString] at hinput hstring
    rw [readValue, hinput, Document.ofJson]
    show (readString fuel (quote :: _)).map _ = _
    rw [hstring]
    rfl
  | .arr [], depth, level, rest, input, fuel, h, _, hfuel, hinput => by
    rw [write] at hfuel hinput
    rw [Fits] at h
    simp only [List.length_cons] at hfuel
    obtain ⟨fuel, rfl⟩ : ∃ n, fuel = n + 1 := ⟨fuel - 1, by omega⟩
    rw [readValue, hinput.trans (skipBlanks_cons (by decide) _)]
    show some (within depth (.arr []), rest) = _
    rw [within_of_pos h.1, Document.ofJson, Document.ofItems]
  | .arr (item :: items), depth, level, rest, input, fuel, h, _, hfuel, hinput => by
    rw [Fits, FitsItems] at h
    obtain ⟨hdepth, hitem, hitems⟩ := h
    have hmore := length_writeItems layout items level rest hitems
    have hfirst := length_write layout item (level + 1) (writeItems layout level items rest) hitem
    have hline := length_startLine layout (level + 1)
      (write layout (level + 1) item (writeItems layout level items rest))
    rw [write] at hfuel hinput
    rw [List.length_cons] at hfuel
    -- one call for the array and one for its items, which the bracket and the first item pay for
    obtain ⟨fuel, rfl⟩ : ∃ n, fuel = n + 1 + 1 := ⟨fuel - 2, by omega⟩
    obtain ⟨c, text, htext, hblank, hclose, -⟩ :=
      head_write layout hitem (level + 1) (writeItems layout level items rest)
    have hvalue : readValue fuel (depth - 1) (c :: text) =
        some (Document.ofJson item, writeItems layout level items rest) :=
      readValue_write item (level + 1) hitem (ends_writeItems layout items level rest) (by omega) (by rw [htext])
    have hitems := readItems_write items [] level hitems (by omega) hvalue
    -- the line that is started only puts blanks in front of the item
    have hskip : skipBlanks (layout.startLine (level + 1)
        (write layout (level + 1) item (writeItems layout level items rest))) = c :: text := by
      rw [skipBlanks_startLine, htext, skipBlanks_cons hblank]
    rw [readValue_items (hinput.trans (skipBlanks_cons (by decide) _)) hskip hclose, hitems, Option.map_some,
      within_of_pos hdepth, Document.ofJson, Document.ofItems]
    rfl
  | .obj [], depth, level, rest, input, fuel, h, _, hfuel, hinput => by
    rw [write] at hfuel hinput
    rw [Fits] at h
    simp only [List.length_cons] at hfuel
    obtain ⟨fuel, rfl⟩ : ∃ n, fuel = n + 1 := ⟨fuel - 1, by omega⟩
    rw [readValue, hinput.trans (skipBlanks_cons (by decide) _)]
    show some (within depth (.obj []), rest) = _
    rw [within_of_pos h.1, Document.ofJson, Document.ofMembers]
  | .obj ((name, value) :: members), depth, level, rest, input, fuel, h, _, hfuel, hinput => by
    rw [Fits, FitsMembers] at h
    obtain ⟨hdepth, hplain, hvalue, hmembers⟩ := h
    have hmore := length_writeMembers layout members level rest hmembers
    have hfirst := length_write layout value (level + 1) (writeMembers layout level members rest) hvalue
    have hname := length_name layout (level + 1) name
      (write layout (level + 1) value (writeMembers layout level members rest))
    rw [write] at hfuel hinput
    rw [List.length_cons] at hfuel
    -- the name and the colon pay for the calls too, so the same fuel is enough
    obtain ⟨fuel, rfl⟩ : ∃ n, fuel = n + 1 + 1 := ⟨fuel - 2, by omega⟩
    obtain ⟨more, hcolonText, hmoreText⟩ :=
      skipBlanks_colon layout (write layout (level + 1) value (writeMembers layout level members rest))
    have hread : readValue fuel (depth - 1) more =
        some (Document.ofJson value, writeMembers layout level members rest) :=
      readValue_write value (level + 1) hvalue (ends_writeMembers layout members level rest) (by omega) hmoreText
    have hnames := readName_writeString hplain (layout.colon
      (write layout (level + 1) value (writeMembers layout level members rest)))
      (by omega : name.toList.length < fuel)
    rw [← skipBlanks_writeString] at hnames
    have hobject := readMembers_write members [] level hmembers (by omega) hnames hcolonText hread
    rw [readValue_members (hinput.trans (skipBlanks_cons (by decide) _))
      ((skipBlanks_startLine layout (level + 1) _).trans (skipBlanks_writeString name _)) (by decide)]
    show (readMembers fuel.succ (depth - 1) (some []) (writeString name _)).map _ = _
    rw [hobject, Option.map_some, within_of_pos hdepth, Document.ofJson, Document.ofMembers]
    rfl

/-- The items behind one that is read. -/
theorem readItems_write : ∀ (items : List Json) (acc : List Document) {depth : Nat} (level : Nat)
    {rest input : List Char} {fuel : Nat} {first : Document}, FitsItems depth items →
    2 * (writeItems layout level items rest).length ≤ fuel + 2 * rest.length →
    readValue fuel depth input = some (first, writeItems layout level items rest) →
    readItems (fuel + 1) depth acc input = some (acc.reverse ++ first :: Document.ofItems items, rest)
  | [], acc, depth, level, rest, input, fuel, first, _, _, hfirst => by
    rw [writeItems] at hfirst
    -- no more items: the bracket stands on a line of its own
    have hclose : skipBlanks (layout.startLine level (']' :: rest)) = ']' :: rest := by
      rw [skipBlanks_startLine, skipBlanks_cons (by decide)]
    rw [(readItems_succ hfirst).1 hclose, Document.ofItems, List.reverse_cons]
  | item :: items, acc, depth, level, rest, input, fuel, first, h, hfuel, hfirst => by
    rw [FitsItems] at h
    have hmore := length_writeItems layout items level rest h.2
    have hnext := length_write layout item (level + 1) (writeItems layout level items rest) h.1
    have hline := length_startLine layout (level + 1)
      (write layout (level + 1) item (writeItems layout level items rest))
    rw [writeItems] at hfuel hfirst
    rw [List.length_cons] at hfuel
    obtain ⟨fuel, rfl⟩ : ∃ n, fuel = n + 1 := ⟨fuel - 1, by omega⟩
    have hvalue := readValue_write item (level + 1) h.1 (ends_writeItems layout items level rest)
      (by omega : _ ≤ fuel + _) (skipBlanks_startLine layout (level + 1) _)
    have hitems := readItems_write items (first :: acc) level h.2 (by omega) hvalue
    rw [(readItems_succ hfirst).2 (skipBlanks_cons (by decide) _), hitems, Document.ofItems, List.reverse_cons,
      List.append_assoc]
    rfl

/-- The members behind one that is read. -/
theorem readMembers_write : ∀ (members : List (String × Json)) (acc : List (Document.Name × Document))
    {depth : Nat} (level : Nat) {rest input later more : List Char} {fuel : Nat} {name : Document.Name}
    {value : Document}, FitsMembers depth members →
    2 * (writeMembers layout level members rest).length ≤ fuel + 2 * rest.length →
    readName fuel (skipBlanks input) = some (some name, later) → skipBlanks later = ':' :: more →
    readValue fuel depth more = some (value, writeMembers layout level members rest) →
    readMembers (fuel + 1) depth (some acc) input =
      some (.obj (acc.reverse ++ (name, value) :: Document.ofMembers members), rest)
  | [], acc, depth, level, rest, input, later, more, fuel, name, value, _, _, hname, hlater, hvalue => by
    rw [writeMembers] at hvalue
    have hclose : skipBlanks (layout.startLine level ('\x7d' :: rest)) = '\x7d' :: rest := by
      rw [skipBlanks_startLine, skipBlanks_cons (by decide)]
    rw [(readMembers_succ hname hlater hvalue).1 hclose, Document.ofMembers, List.reverse_cons]
  | (next, following) :: members, acc, depth, level, rest, input, later, more, fuel, name, value, h, hfuel, hname,
      hlater, hvalue => by
    rw [FitsMembers] at h
    obtain ⟨hplain, hfits, hmembers⟩ := h
    have hlength := length_writeMembers layout members level rest hmembers
    have hfirst := length_write layout following (level + 1) (writeMembers layout level members rest) hfits
    have htext := length_name layout (level + 1) next
      (write layout (level + 1) following (writeMembers layout level members rest))
    rw [writeMembers] at hfuel hvalue
    rw [List.length_cons] at hfuel
    obtain ⟨fuel, rfl⟩ : ∃ n, fuel = n + 1 := ⟨fuel - 1, by omega⟩
    obtain ⟨again, hcolonText, hmoreText⟩ :=
      skipBlanks_colon layout (write layout (level + 1) following (writeMembers layout level members rest))
    have hread := readValue_write following (level + 1) hfits (ends_writeMembers layout members level rest)
      (by omega : _ ≤ fuel + _) hmoreText
    have hnames := readName_writeString hplain (layout.colon
      (write layout (level + 1) following (writeMembers layout level members rest)))
      (by omega : next.toList.length < fuel)
    rw [← skipBlanks_writeString, ← skipBlanks_startLine layout (level + 1)] at hnames
    have hobject := readMembers_write members ((name, value) :: acc) level hmembers (by omega) hnames hcolonText
      hread
    rw [(readMembers_succ hname hlater hvalue).2 (skipBlanks_cons (by decide) _), hobject, Document.ofMembers,
      List.reverse_cons, List.append_assoc]
    rfl

end

end

/-- **The text of a value is read as the value.** -/
theorem document?_render (layout : Layout) {j : Json} (h : j.Fits maxDepth) :
    document? (j.render layout) = some (Document.ofJson j) := by
  have hread : readValue (2 * (write layout 0 j []).length + 2) maxDepth (write layout 0 j []) =
      some (Document.ofJson j, []) :=
    readValue_write layout j 0 h (by simp [Ends]) (by simp) rfl
  unfold document? render
  rw [String.toList_ofList]
  dsimp only
  rw [hread]
  rfl

end DurableFlow.Json
