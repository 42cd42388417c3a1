/-
Numbers and timestamps are read back from their texts.

A number is written with its decimal digits, filled up with zeros where a field has a
width. The text of a timestamp is a row of such fields with a mark behind each of them,
so its reader takes them off one by one. That the date it finds is the day that was
written is arithmetic: within a cycle of four hundred years a day and its date determine
each other.
-/
import DurableFlow.Text.Timestamp

set_option autoImplicit false

namespace DurableFlow.Text

/-! ## Digits -/

/-- A reader goes on behind what it has taken off. -/
theorem bind_eq_of_some {α β : Type} {x : Option α} {a : α} {f : α → Option β} (h : x = some a) :
    (x >>= f) = f a := by
  rw [h]
  rfl

/-- The characters of a number in a field. -/
def field (width n : Nat) : List Char := (padded width n).toList

theorem field_eq (width n : Nat) :
    field width n =
      List.replicate (width - (Nat.toDigits 10 n).length) '0' ++ Nat.toDigits 10 n := by
  rw [field, padded, String.toList_append, String.toList_ofList, Nat.toString_eq_repr,
    Nat.toList_repr, ← String.length_toList, Nat.toList_repr]

theorem isDigit_of_mem_digits {n : Nat} {c : Char} (h : c ∈ Nat.toDigits 10 n) :
    Timestamp.isDigit c = true := by
  have hdigit := Nat.isDigit_of_mem_toDigits (by decide) (by decide) h
  simpa [Timestamp.isDigit, Char.isDigit, Char.le_def] using hdigit

theorem isDigit_of_mem_field {width n : Nat} {c : Char} (h : c ∈ field width n) :
    Timestamp.isDigit c = true := by
  rw [field_eq, List.mem_append] at h
  rcases h with h | h
  · rw [List.eq_of_mem_replicate h]
    decide
  · exact isDigit_of_mem_digits h

theorem numberOf_field (width n : Nat) : Timestamp.numberOf (field width n) = n := by
  show Nat.ofDigitChars 10 (field width n) 0 = n
  rw [field_eq, Nat.ofDigitChars_append, Nat.ofDigitChars_replicate_zero, Nat.mul_zero,
    Nat.ofDigitChars_ten_toDigits]

theorem field_ne_nil (width n : Nat) : field width n ≠ [] := by
  rw [field_eq]
  simp [Nat.toDigits_ne_nil]

/-- A number that is small enough fills its field. -/
theorem length_field {width n : Nat} (hpos : 0 < width) (h : n < Nat.pow 10 width) :
    (field width n).length = width := by
  have hle := (Nat.length_toDigits_le_iff (by decide) hpos).mpr h
  rw [field_eq, List.length_append, List.length_replicate]
  omega

/-- **A number is read back from its digits.** -/
theorem natBelow?_toString {bound n : Nat} (h : n < bound) :
    natBelow? bound (toString n) = some n := by
  have hdigits : ((Nat.toDigits 10 n).all fun c => '0' ≤ c && c ≤ '9') = true :=
    List.all_eq_true.mpr fun c hc => isDigit_of_mem_digits hc
  have hvalue : (Nat.toDigits 10 n).foldl (fun n c => 10 * n + (c.toNat - 48)) 0 = n :=
    Nat.ofDigitChars_ten_toDigits
  have hne : Nat.toDigits 10 n ≠ [] := Nat.toDigits_ne_nil
  -- a plus sign is no digit
  have hplus : ∀ rest, Nat.toDigits 10 n = '+' :: rest → False := by
    intro rest heq
    have hmem : '+' ∈ Nat.toDigits 10 n := heq ▸ List.mem_cons_self
    cases isDigit_of_mem_digits hmem
  rw [natBelow?, Nat.toString_eq_repr, Nat.toList_repr, natOfChars?]
  · simp [hne, hdigits, hvalue, h]
  · exact hplus

theorem toString_injective : Function.Injective (toString : Nat → String) := by
  intro m n heq
  have hm : natBelow? (m + n + 1) (toString m) = some m := natBelow?_toString (by omega)
  rw [heq, natBelow?_toString (by omega)] at hm
  exact (Option.some.inj hm).symm

namespace Timestamp

/-! ## Reading fields -/

theorem isWhiteSpace_of_isDigit {c : Char} (h : isDigit c = true) : isWhiteSpace c = false := by
  have hrange : 48 ≤ c.toNat ∧ c.toNat ≤ 57 := by
    simpa [isDigit, Char.le_def, UInt32.le_iff_toNat_le] using h
  simp only [isWhiteSpace, Bool.or_eq_false_iff, Bool.and_eq_false_iff, decide_eq_false_iff_not,
    beq_eq_false_iff_ne]
  omega

/-- A field has no white space in front. -/
theorem trimStart_field (width n : Nat) (rest : List Char) :
    trimStart (field width n ++ rest) = field width n ++ rest := by
  cases hfield : field width n with
  | nil => exact absurd hfield (field_ne_nil width n)
  | cons c cs =>
    have hmem : c ∈ field width n := hfield ▸ List.mem_cons_self
    have hdigit := isDigit_of_mem_field hmem
    rw [trimStart, List.cons_append, List.dropWhile_cons, isWhiteSpace_of_isDigit hdigit]
    rfl

theorem takeWhile_field (width n : Nat) {mark : Char} (hmark : isDigit mark = false)
    (rest : List Char) :
    (field width n ++ mark :: rest).takeWhile isDigit = field width n := by
  rw [List.takeWhile_append_of_pos fun c hc => isDigit_of_mem_field hc, List.takeWhile_cons,
    hmark]
  simp

/-- All digits of a field are taken off. -/
theorem digits1?_field (width n : Nat) {mark : Char} (hmark : isDigit mark = false)
    (rest : List Char) :
    digits1? (field width n ++ mark :: rest) = some (n, mark :: rest) := by
  simp [digits1?, takeWhile_field width n hmark, field_ne_nil, numberOf_field]

/-- **A field of a width is taken off.** -/
theorem number?_field {width n : Nat} (hpos : 0 < width) (h : n < Nat.pow 10 width)
    (rest : List Char) :
    number? width (field width n ++ rest) = some (n, rest) := by
  have hlength := length_field hpos h
  have htake : (field width n ++ rest).take width = field width n := List.take_left' hlength
  have hall : (field width n).takeWhile isDigit = field width n := by
    have happend : (field width n ++ []).takeWhile isDigit =
        field width n ++ [].takeWhile isDigit :=
      List.takeWhile_append_of_pos fun c hc => isDigit_of_mem_field hc
    simpa using happend
  have hdrop : (field width n ++ rest).drop width = rest := List.drop_left' hlength
  rw [number?, trimStart_field, htake, digits1?, hall, hdrop]
  simp [field_ne_nil, numberOf_field]

/-! ## Dates -/

/-- Where a day of a cycle of four hundred years lies: in a year of the cycle and on a day of
that year, the last day being there in leap years only. -/
theorem yearOfEra_spec {day cycles centuries eras year quads hundreds : Int}
    (hday : 0 ≤ day ∧ day ≤ 146096) (hcycles : 1460 * cycles ≤ day ∧ day < 1460 * cycles + 1460)
    (hcenturies : 36524 * centuries ≤ day ∧ day < 36524 * centuries + 36524)
    (heras : 146096 * eras ≤ day ∧ day < 146096 * eras + 146096)
    (hyear : 365 * year ≤ day - cycles + centuries - eras ∧
      day - cycles + centuries - eras < 365 * year + 365)
    (hquads : 4 * quads ≤ year ∧ year < 4 * quads + 4)
    (hhundreds : 100 * hundreds ≤ year ∧ year < 100 * hundreds + 100) :
    0 ≤ year ∧ year ≤ 399 ∧ 0 ≤ day - (365 * year + quads - hundreds) ∧
      day - (365 * year + quads - hundreds) ≤ 365 ∧
      (day - (365 * year + quads - hundreds) = 365 →
        year = 4 * quads + 3 ∧ (year ≠ 100 * hundreds + 99 ∨ year = 399)) := by
  have hlow : 0 ≤ year := by omega
  have hhigh : year ≤ 399 := by omega
  have hcycle : quads ≤ cycles ∧ cycles ≤ quads + 1 := by omega
  have hcentury : hundreds ≤ centuries ∧ centuries ≤ hundreds + 1 := by omega
  refine ⟨hlow, hhigh, ?_, ?_, fun hlast => ⟨?_, ?_⟩⟩
  · omega
  · omega
  · rcases (by omega : eras = 0 ∨ day = 146096) with hera | hera
    · clear hcenturies
      omega
    · have hyear : year = 399 := by omega
      omega
  · rcases (by omega : eras = 0 ∨ day = 146096) with hera | hera
    · omega
    · exact .inr (by omega)

/-- The day of a month is within the month. Years begin in March here. -/
theorem day_le_monthLength {rest shifted month year era : Int} (hlow : 0 ≤ shifted)
    (hhigh : shifted ≤ 11) (hshifted : (5 * rest + 2) / 153 = shifted)
    (hmonth : (if shifted < 10 then shifted + 3 else shifted - 9) = month) (hrest : rest ≤ 365)
    (hleap : rest = 365 → year = 4 * (year / 4) + 3 ∧ (year ≠ 100 * (year / 100) + 99 ∨ year = 399)) :
    rest - (153 * shifted + 2) / 5 + 1 ≤
      monthLength (year + era * 400 + (if month ≤ 2 then 1 else 0)) month.toNat := by
  by_cases hlast : shifted = 11
  · -- February has its last day in a leap year only
    subst hlast
    subst hmonth
    have hleap' : rest = 365 → isLeap (year + era * 400 + 1) = true := by
      intro h
      simp only [isLeap, Bool.and_eq_true, Bool.or_eq_true, beq_iff_eq, bne_iff_ne]
      have := hleap h
      omega
    by_cases hday : rest = 365
    · simp [monthLength, hleap' hday]
      omega
    · have hmin : 28 ≤ monthLength (year + era * 400 + 1) 2 := by
        rw [monthLength, if_pos rfl]
        split <;> decide
      show rest - (153 * 11 + 2) / 5 + 1 ≤ ((monthLength (year + era * 400 + 1) 2 : Nat) : Int)
      omega
  · have hcases : shifted = 0 ∨ shifted = 1 ∨ shifted = 2 ∨ shifted = 3 ∨ shifted = 4 ∨
        shifted = 5 ∨ shifted = 6 ∨ shifted = 7 ∨ shifted = 8 ∨ shifted = 9 ∨ shifted = 10 := by
      omega
    rcases hcases with rfl | rfl | rfl | rfl | rfl | rfl | rfl | rfl | rfl | rfl | rfl <;>
      subst hmonth <;> simp [monthLength] <;> omega

theorem dateOfDays_spec (days : Int) :
    let date := dateOfDays days
    daysOfDate date.1 date.2.1 date.2.2 = days ∧ 1 ≤ date.2.1 ∧ date.2.1 ≤ 12 ∧
      1 ≤ date.2.2 ∧ date.2.2 ≤ monthLength date.1 date.2.1.toNat := by
  have hfdiv : ∀ a b : Int, 0 ≤ b → a.fdiv b = a / b := fun a b hb => by
    rw [Int.fdiv_eq_ediv_of_nonneg _ hb]
  simp only [dateOfDays, daysOfDate, hfdiv _ 146097 (by decide), hfdiv _ 400 (by decide)]
  generalize hera : (days + 719468) / 146097 = era
  generalize hday : days + 719468 - era * 146097 = day
  generalize hyear : (day - day / 1460 + day / 36524 - day / 146096) / 365 = year
  -- of each quotient its two bounds are enough, and with them all is linear
  have hcycles : 1460 * (day / 1460) ≤ day ∧ day < 1460 * (day / 1460) + 1460 := by omega
  have hcenturies : 36524 * (day / 36524) ≤ day ∧ day < 36524 * (day / 36524) + 36524 := by omega
  have heras : 146096 * (day / 146096) ≤ day ∧ day < 146096 * (day / 146096) + 146096 := by omega
  have hquads : 4 * (year / 4) ≤ year ∧ year < 4 * (year / 4) + 4 := by omega
  have hhundreds : 100 * (year / 100) ≤ year ∧ year < 100 * (year / 100) + 100 := by omega
  obtain ⟨hlow, hhigh, hdlow, hdhigh, hleap⟩ :=
    yearOfEra_spec (by omega) hcycles hcenturies heras (by omega) hquads hhundreds
  generalize hrest : day - (365 * year + year / 4 - year / 100) = rest at *
  generalize hshifted : (5 * rest + 2) / 153 = shifted
  have hs0 : 0 ≤ shifted := by omega
  have hs1 : shifted ≤ 11 := by omega
  have hstart : 0 ≤ rest - (153 * shifted + 2) / 5 := by omega
  have hmonth : (if shifted < 10 then shifted + 3 else shifted - 9) ≤ 2 ↔ 10 ≤ shifted := by
    split <;> omega
  generalize hm : (if shifted < 10 then shifted + 3 else shifted - 9) = month at *
  have hback : (month + 9) % 12 = shifted := by
    rw [← hm]
    split <;> omega
  have hrange : 1 ≤ month ∧ month ≤ 12 := by
    rw [← hm]
    split <;> omega
  have hyears : (if month ≤ 2 then year + era * 400 + (if month ≤ 2 then 1 else 0) - 1
      else year + era * 400 + (if month ≤ 2 then 1 else 0)) = year + era * 400 := by
    split <;> omega
  have heras : (year + era * 400) / 400 = era := by omega
  rw [hyears, heras, hback]
  refine ⟨?_, hrange.1, hrange.2, by omega, ?_⟩
  · have hyear' : year + era * 400 - era * 400 = year := by omega
    rw [hyear']
    omega
  · exact day_le_monthLength hs0 hs1 hshifted hm hdhigh hleap

/-! ## Texts -/

theorem trimStart_mark {c : Char} (h : isWhiteSpace c = false) (rest : List Char) :
    trimStart (c :: rest) = c :: rest := by
  rw [trimStart, List.dropWhile_cons, h]
  rfl

theorem mark?_cons {allowed : List Char} {c : Char} (h : allowed.contains c = true)
    (rest : List Char) : mark? allowed (c :: rest) = some rest := by
  rw [mark?, if_pos h]

/-- A year is taken off, whatever its sign and its number of digits. -/
theorem year?_yearText (year : Int) (rest : List Char) :
    year? ((yearText year).toList ++ '-' :: rest) = some (year, '-' :: rest) := by
  rw [yearText]
  split
  · next hneg =>
    have hlist : ("-" ++ padded 4 year.natAbs).toList = '-' :: field 4 year.natAbs := by
      rw [String.toList_append]
      rfl
    have hyear : -(year.natAbs : Int) = year := by omega
    rw [hlist, List.cons_append, year?, trimStart_mark (by decide)]
    simp only [digits1?_field 4 year.natAbs (show isDigit '-' = false by decide), Option.map_some,
      hyear]
  · split
    · next hbig =>
      have hlist : ("+" ++ padded 4 year.natAbs).toList = '+' :: field 4 year.natAbs := by
        rw [String.toList_append]
        rfl
      have hyear : (year.natAbs : Int) = year := by omega
      rw [hlist, List.cons_append, year?, trimStart_mark (by decide)]
      simp only [digits1?_field 4 year.natAbs (show isDigit '-' = false by decide),
        Option.map_some, hyear]
    -- without a sign in front the year starts with a digit
    · next hneg hbig =>
      have hyear : (year.natAbs : Int) = year := by omega
      have hbound : year.natAbs < 10 ^ 4 := by omega
      have hnumber := number?_field (by decide) hbound ('-' :: rest)
      have htrim := trimStart_field 4 year.natAbs ('-' :: rest)
      show year? (field 4 year.natAbs ++ '-' :: rest) = _
      cases hfield : field 4 year.natAbs with
      | nil => exact absurd hfield (field_ne_nil 4 year.natAbs)
      | cons c cs =>
        have hmem : c ∈ field 4 year.natAbs := hfield ▸ List.mem_cons_self
        have hdigit := isDigit_of_mem_field hmem
        rw [hfield] at hnumber htrim
        unfold year?
        rw [htrim, List.cons_append]
        split
        · next heq => cases heq; cases hdigit
        · next heq => cases heq; cases hdigit
        · rw [← List.cons_append, hnumber, Option.map_some, hyear]

theorem fraction?_field {n : Nat} (h : n < 1000) (rest : List Char) :
    fraction? ('.' :: (field 3 n ++ 'Z' :: rest)) = some (n, 'Z' :: rest) := by
  have hlength : (field 3 n).length = 3 := length_field (by decide) h
  have htake : (field 3 n ++ ['0', '0', '0']).take 3 = field 3 n := List.take_left' hlength
  rw [fraction?, takeWhile_field 3 n (by decide), htake, numberOf_field]
  simp [field_ne_nil]

/-- The characters of a timestamp: a row of fields with their marks. -/
def layout (year : Int) (month day hour minute second ms : Nat) : List Char :=
  (yearText year).toList ++ '-' :: (field 2 month ++ '-' :: (field 2 day ++ 'T' ::
    (field 2 hour ++ ':' :: (field 2 minute ++ ':' :: (field 2 second ++ '.' ::
      (field 3 ms ++ ['Z']))))))

theorem mark?_trimStart {allowed : List Char} {c : Char} (hblank : isWhiteSpace c = false)
    (h : allowed.contains c = true) (rest : List Char) :
    mark? allowed (trimStart (c :: rest)) = some rest := by
  rw [trimStart_mark hblank, mark?_cons h]

/-- **The fields of a timestamp are read back.** -/
theorem parse?_layout {year : Int} {month day hour minute second ms : Nat}
    (hmonth : 1 ≤ month ∧ month ≤ 12) (hday : 1 ≤ day ∧ day ≤ monthLength year month)
    (htime : hour < 24 ∧ minute < 60 ∧ second < 60 ∧ ms < 1000)
    (hrange : isDay (daysOfDate year month day) = true) :
    parse? (String.ofList (layout year month day hour minute second ms)) =
      some ⟨((daysOfDate year month day * 1440 + hour * 60 + minute) * 60 + second) * 1000 + ms⟩ := by
  have hlength : monthLength year month ≤ 31 := by
    rw [monthLength]
    split <;> split <;> decide
  have hfield : ∀ n, n < 100 → ∀ rest, number? 2 (field 2 n ++ rest) = some (n, rest) :=
    fun n hn rest => number?_field (by decide) hn rest
  have hdash : ∀ rest, mark? ['-'] (trimStart ('-' :: rest)) = some rest :=
    mark?_trimStart (by decide) (by decide)
  have hcolon : ∀ rest, mark? [':'] (trimStart (':' :: rest)) = some rest :=
    mark?_trimStart (by decide) (by decide)
  have hzone : offset? (trimStart ['Z']) = some (0, []) := by
    rw [trimStart_mark (by decide)]
    rfl
  -- without an offset the day is the one that was written
  have hsame : (daysOfDate year month day * 1440 + hour * 60 + minute).fdiv 1440 =
      daysOfDate year month day := by
    rw [Int.fdiv_eq_ediv_of_nonneg _ (by decide)]
    omega
  have hsecond : second ≤ 60 := by omega
  rw [parse?, String.toList_ofList, layout]
  refine (bind_eq_of_some (year?_yearText year _)).trans ?_
  refine (bind_eq_of_some (hdash _)).trans ?_
  refine (bind_eq_of_some (hfield month (by omega) _)).trans ?_
  refine (bind_eq_of_some (hdash _)).trans ?_
  refine (bind_eq_of_some (hfield day (by omega) _)).trans ?_
  refine (bind_eq_of_some (mark?_cons (by decide) _)).trans ?_
  refine (bind_eq_of_some (hfield hour (by omega) _)).trans ?_
  refine (bind_eq_of_some (hcolon _)).trans ?_
  refine (bind_eq_of_some (hfield minute (by omega) _)).trans ?_
  refine (bind_eq_of_some (hcolon _)).trans ?_
  refine (bind_eq_of_some (hfield second (by omega) _)).trans ?_
  refine (bind_eq_of_some (fraction?_field htime.2.2.2 _)).trans ?_
  refine (bind_eq_of_some hzone).trans ?_
  simp only [Int.sub_zero, hsame]
  exact if_pos ⟨hmonth.1, hmonth.2, hday.1, hday.2, htime.1, htime.2.1, hsecond, hrange, hrange, rfl⟩

/-- **A timestamp is read back from its text**, if its day is within range. -/
theorem parse?_text {t : Timestamp} (h : isDay (t.millis.fdiv 86400000) = true) :
    parse? t.text = some t := by
  obtain ⟨hdays, hmonth, hmonth', hday, hday'⟩ := dateOfDays_spec (t.millis.fdiv 86400000)
  have htext : t.text = String.ofList (layout (dateOfDays (t.millis.fdiv 86400000)).1
      (dateOfDays (t.millis.fdiv 86400000)).2.1.toNat
      (dateOfDays (t.millis.fdiv 86400000)).2.2.toNat
      ((t.millis - t.millis.fdiv 86400000 * 86400000).toNat / 3600000)
      ((t.millis - t.millis.fdiv 86400000 * 86400000).toNat / 60000 % 60)
      ((t.millis - t.millis.fdiv 86400000 * 86400000).toNat / 1000 % 60)
      ((t.millis - t.millis.fdiv 86400000 * 86400000).toNat % 1000)) := by
    apply String.toList_injective
    simp [text, layout, field]
  generalize dateOfDays (t.millis.fdiv 86400000) = date at *
  rw [Int.fdiv_eq_ediv_of_nonneg _ (by decide)] at *
  generalize hrest : (t.millis - t.millis / 86400000 * 86400000).toNat = rest at *
  have hcast : ((date.2.1.toNat : Nat) : Int) = date.2.1 := Int.toNat_of_nonneg (by omega)
  have hcast' : ((date.2.2.toNat : Nat) : Int) = date.2.2 := Int.toNat_of_nonneg (by omega)
  rw [htext, parse?_layout ⟨by omega, by omega⟩ ⟨by omega, by omega⟩ ⟨by omega, by omega, by omega, by omega⟩
    (by rw [hcast, hcast', hdays]; exact h), hcast, hcast', hdays]
  congr 1
  cases t
  congr 1
  simp only at hrest ⊢
  omega

end Timestamp

end DurableFlow.Text
