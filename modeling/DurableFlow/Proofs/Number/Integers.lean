/-
Integers of at most 53 bits are doubles.

A positive integer `m` below `2^53` is stored with a full mantissa: it is moved to the left
until its highest bit is the hidden one, and the exponent takes this back. Nothing is lost
on the way, so rounding leaves it alone, packing and unpacking give it back, and cutting
the double toward zero is the integer again.
-/
import Mathlib
import DurableFlow.Number.Binary

set_option autoImplicit false

namespace DurableFlow.Number

open Float.Model Float.Model.UnpackedFloat

/-! ## Full mantissas -/

/-- How far a number is moved to the left until its mantissa is full. -/
def gap (m : Nat) : Nat := 52 - m.log2

theorem log2_le {m : Nat} (hpos : 0 < m) (h : m < 2 ^ 53) : m.log2 ≤ 52 := by
  have hlog : m.log2 < 53 := (Nat.log2_lt (Nat.ne_of_gt hpos)).mpr h
  omega

theorem log2_mul_pow {m : Nat} (hpos : 0 < m) (j : Nat) : (m * 2 ^ j).log2 = m.log2 + j := by
  induction j with
  | zero => rw [Nat.pow_zero, Nat.mul_one, Nat.add_zero]
  | succ j ih =>
    have hne : m * 2 ^ j ≠ 0 := Nat.ne_of_gt (Nat.mul_pos hpos (Nat.two_pow_pos j))
    rw [Nat.pow_succ, ← Nat.mul_assoc, Nat.mul_comm (m * 2 ^ j) 2, Nat.log2_two_mul hne, ih]
    omega

/-- A full mantissa. -/
structure IsFull (m : Nat) : Prop where
  low : 2 ^ 52 ≤ m
  high : m < 2 ^ 53

theorem IsFull.pos {m : Nat} (h : IsFull m) : 0 < m := by
  have hlow := h.low
  omega

theorem IsFull.log2 {m : Nat} (h : IsFull m) : m.log2 = 52 := by
  have hlow : 52 ≤ m.log2 := (Nat.le_log2 (Nat.ne_of_gt h.pos)).mpr h.low
  have hhigh := log2_le h.pos h.high
  omega

theorem isFull_mul_gap {m : Nat} (hpos : 0 < m) (h : m < 2 ^ 53) : IsFull (m * 2 ^ gap m) := by
  have hlog := log2_le hpos h
  have hne : m * 2 ^ gap m ≠ 0 := Nat.ne_of_gt (Nat.mul_pos hpos (Nat.two_pow_pos _))
  have hfull : (m * 2 ^ gap m).log2 = 52 := by
    rw [log2_mul_pow hpos, gap]
    omega
  refine ⟨?_, ?_⟩
  · exact (Nat.le_log2 hne).mp (Nat.le_of_eq hfull.symm)
  · rw [← Nat.log2_lt hne, hfull]
    decide

/-! ## Rounding -/

/-- Moving to the right what was moved to the left drops only zeros. -/
theorem shiftRight_mul_pow (m j : Nat) :
    ExtendedMantissa.ofMantissaAndAccuracy (m * 2 ^ j) .exact >>> j = ⟨m, false, false⟩ := by
  induction j generalizing m with
  | zero => rw [Nat.pow_zero, Nat.mul_one]; rfl
  | succ j ih =>
    have hstep : m * 2 ^ (j + 1) = 2 * m * 2 ^ j := by
      rw [Nat.pow_succ, Nat.mul_comm (2 ^ j) 2, ← Nat.mul_assoc, Nat.mul_comm m 2]
    have hshift : ∀ em : ExtendedMantissa, em >>> (j + 1) = (em >>> j).shiftRightOne := fun _ => rfl
    rw [hstep, hshift, ih, ExtendedMantissa.shiftRightOne]
    simp

theorem shiftToTargetExponent_mul_pow {m : Nat} (hm : IsFull m) (j : Nat) {e : Int} (he : -1074 ≤ e + j) :
    shiftToTargetExponent Format.binary64 (m * 2 ^ j) e .exact = (⟨m, false, false⟩, e + j) := by
  -- all bits above the lowest exponent are kept, so the exponent sought is that of the mantissa
  have htarget : Format.binary64.targetExponent (totalExponent (m * 2 ^ j) e) = e + j := by
    simp only [Format.targetExponent, totalExponent, Format.mantissaBits, Format.minExponent,
      log2_mul_pow hm.pos, hm.log2]
    omega
  have hamount : (e + j - e : Int).toNat = j := by omega
  unfold shiftToTargetExponent
  rw [htarget]
  unfold shiftToExponent
  dsimp only
  rw [hamount, shiftRight_mul_pow]

/-- **What has no more bits than a mantissa is not rounded.** -/
theorem roundWithAccuracy_mul_pow {m : Nat} (hm : IsFull m) (s : Sign) (j : Nat) {e : Int} (he : -1074 ≤ e + j) :
    roundWithAccuracy Format.binary64 s (m * 2 ^ j) e .exact = .finite s m (e + j) hm.pos := by
  -- what was rounded is brought to its exponent once more, and nothing is left to drop
  have hagain := shiftToTargetExponent_mul_pow hm 0 (e := e + j) (by omega)
  rw [Nat.pow_zero, Nat.mul_one] at hagain
  have hrounded : (ExtendedMantissa.mk m false false).roundedMantissa = m := rfl
  unfold roundWithAccuracy
  rw [shiftToTargetExponent_mul_pow hm j he]
  simp only [hrounded, hagain]
  have hne : m ≠ 0 := Nat.ne_of_gt hm.pos
  simp [hne]

theorem ofNat_eq {m : Nat} (hpos : 0 < m) (h : m < 2 ^ 53) :
    UnpackedFloat.ofNat Format.binary64 m =
      .finite .positive (m * 2 ^ gap m) (-(gap m : Int)) (isFull_mul_gap hpos h).pos := by
  have hlog := log2_le hpos h
  have hgap : gap m = 52 - m.log2 := rfl
  have hcompare : compare (m : Int) 0 = .gt := by
    rw [Int.compare_eq_gt]
    omega
  have htarget : Format.binary64.targetExponent (totalExponent m 0) = -(gap m : Int) := by
    simp only [Format.targetExponent, totalExponent, Format.mantissaBits, Format.minExponent]
    omega
  have hamount : (0 - -(gap m : Int)).toNat = gap m := by omega
  -- the mantissa has been filled up, so rounding has nothing to do
  have hround := roundWithAccuracy_mul_pow (isFull_mul_gap hpos h) .positive 0 (e := -(gap m : Int)) (by omega)
  rw [Nat.pow_zero, Nat.mul_one] at hround
  unfold UnpackedFloat.ofNat UnpackedFloat.ofInt UnpackedFloat.normalize
  rw [hcompare]
  dsimp only
  unfold UnpackedFloat.round
  rw [Int.toNat_natCast, htarget]
  unfold decreaseExponent
  dsimp only
  rw [hamount, Nat.shiftLeft_eq, Int.zero_sub, hround]
  simp

/-! ## Packing -/

theorem toNat_packComponents (s : Sign) (exponent : BitVec 11) (mantissa : BitVec 52) :
    (packComponents Format.binary64 s exponent mantissa).toNat =
      s.toBitVec.toNat * 2 ^ 63 + exponent.toNat * 2 ^ 52 + mantissa.toNat := by
  unfold packComponents
  rw [BitVec.toNat_append, BitVec.toNat_append, ← Nat.shiftLeft_add_eq_or_of_lt mantissa.isLt,
    ← Nat.shiftLeft_add_eq_or_of_lt exponent.isLt, Nat.shiftLeft_eq, Nat.shiftLeft_eq]
  omega

/-- A sign as a truth value. -/
def isNegative : Sign → Bool
  | .negative => true
  | .positive => false

/-- A full mantissa at an exponent of zero or a little below is packed without its hidden bit. -/
theorem pack_eq {m : Nat} (hm : IsFull m) (s : Sign) {g : Nat} (hg : g ≤ 52) :
    UnpackedFloat.pack Format.binary64 (.finite s m (-(g : Int)) hm.pos) =
      packComponents Format.binary64 s (BitVec.ofNat 11 (1075 - g)) (BitVec.ofNat 52 m) := by
  have hbiased : (-(g : Int) + Format.binary64.exponentBias + Format.binary64.mantissaBitsWithoutImplicit).toNat =
      1075 - g := by
    simp only [Format.exponentBias]
    omega
  have hlog : m.log2 + 1 = Format.binary64.mantissaBits := by
    rw [hm.log2]
    rfl
  unfold UnpackedFloat.pack
  dsimp only
  rw [hbiased, if_neg (by omega), if_pos hlog]

theorem toNat_pack {m : Nat} (hm : IsFull m) (s : Sign) {g : Nat} (hg : g ≤ 52) :
    (UnpackedFloat.pack Format.binary64 (.finite s m (-(g : Int)) hm.pos)).toNat =
      s.toBitVec.toNat * 2 ^ 63 + (1075 - g) * 2 ^ 52 + (m - 2 ^ 52) := by
  have hlow := hm.low
  have hhigh := hm.high
  rw [pack_eq hm s hg, toNat_packComponents, BitVec.toNat_ofNat, BitVec.toNat_ofNat]
  omega

/-- **Taken apart, such a double is its mantissa and its exponent.** -/
theorem decode_pack {m : Nat} (hm : IsFull m) (s : Sign) {g : Nat} (hg : g ≤ 52) :
    decode (.ofModel (Float.Model.pack (.finite s m (-(g : Int)) hm.pos))) =
      .finite (isNegative s) m (-(g : Int)) := by
  have hbits : (Float.ofModel (Float.Model.pack (.finite s m (-(g : Int)) hm.pos))).toBits.toNat =
      s.toBitVec.toNat * 2 ^ 63 + (1075 - g) * 2 ^ 52 + (m - 2 ^ 52) := toNat_pack hm s hg
  have hlow := hm.low
  have hhigh := hm.high
  have hsign : s.toBitVec.toNat < 2 ∧ (s.toBitVec.toNat == 1) = isNegative s := by
    cases s
    · decide
    · decide
  unfold decode
  rw [hbits]
  -- with the sign as a number of one bit, the three fields are parts of a number in base two
  generalize s.toBitVec.toNat = b at hsign
  have hfraction : (b * 2 ^ 63 + (1075 - g) * 2 ^ 52 + (m - 2 ^ 52)) % 2 ^ 52 = m - 2 ^ 52 := by omega
  have hbiased : (b * 2 ^ 63 + (1075 - g) * 2 ^ 52 + (m - 2 ^ 52)) / 2 ^ 52 % 2 ^ 11 = 1075 - g := by omega
  have htop : (b * 2 ^ 63 + (1075 - g) * 2 ^ 52 + (m - 2 ^ 52)) / 2 ^ 63 % 2 = b := by omega
  unfold ofBits
  simp only [Nat.pow_eq]
  rw [hfraction, hbiased, htop, hsign.2, if_neg (by omega), if_neg (by omega)]
  have hmantissa : hiddenBit + (m - 2 ^ 52) = m := by
    rw [hiddenBit, Nat.pow_eq]
    omega
  have hexponent : leastExponent + ((1075 - g - 1 : Nat) : Int) = -(g : Int) := by
    unfold leastExponent
    omega
  rw [hmantissa, hexponent]

theorem unpackSign_packComponents (s : Sign) (exponent : BitVec 11) (mantissa : BitVec 52) :
    unpackSign (packComponents Format.binary64 s exponent mantissa) = s.toBitVec := by
  have hs := s.toBitVec.isLt
  have hm := mantissa.isLt
  have he := exponent.isLt
  apply BitVec.eq_of_toNat_eq
  unfold unpackSign
  rw [BitVec.toNat_cast, BitVec.extractLsb_toNat, toNat_packComponents, Nat.shiftRight_eq_div_pow]
  simp only [Nat.reduceAdd, Nat.reduceSub]
  omega

/-- **Packing and unpacking** such a double gives it back. -/
theorem unpack_pack {m : Nat} (hm : IsFull m) (s : Sign) {g : Nat} (hg : g ≤ 52) :
    (Float.Model.pack (.finite s m (-(g : Int)) hm.pos)).unpack = .finite s m (-(g : Int)) hm.pos := by
  have hlow := hm.low
  have hhigh := hm.high
  have hexponent : (BitVec.ofNat 11 (1075 - g)).toNat = 1075 - g := by
    rw [BitVec.toNat_ofNat]
    omega
  have hmantissa : (1#1 ++ BitVec.ofNat 52 m).toNat = m := by
    rw [BitVec.toNat_append, ← Nat.shiftLeft_add_eq_or_of_lt (BitVec.isLt _), Nat.shiftLeft_eq, BitVec.toNat_ofNat m 52]
    show 1 * 2 ^ 52 + _ = _
    omega
  -- the exponent is neither the one of infinities nor the one of small numbers
  have hinfinite : BitVec.ofNat 11 (1075 - g) ≠ -1#11 := by
    intro heq
    have hnat := congrArg BitVec.toNat heq
    rw [hexponent, show (-1#11 : BitVec 11).toNat = 2047 from rfl] at hnat
    omega
  have hsubnormal : BitVec.ofNat 11 (1075 - g) ≠ 0#11 := by
    intro heq
    have hnat := congrArg BitVec.toNat heq
    rw [hexponent, BitVec.toNat_zero] at hnat
    omega
  have hsign : Sign.ofBitVec s.toBitVec = s := by
    cases s
    · rfl
    · rfl
  show UnpackedFloat.unpack Format.binary64 (UnpackedFloat.pack Format.binary64 (.finite s m (-(g : Int)) hm.pos)) = _
  rw [pack_eq hm s hg]
  unfold UnpackedFloat.unpack
  simp only [unpackMantissa_packComponents, unpackExponent_packComponents, unpackSign_packComponents,
    hinfinite, hsubnormal, if_false, hsign, hexponent, hmantissa]
  congr 1
  simp only [Format.exponentBias]
  omega

/-! ## Integers as doubles -/

/-- The double of a positive integer. -/
theorem ofNat_eq_pack {m : Nat} (hpos : 0 < m) (h : m < 2 ^ 53) :
    Float.ofNat m = .ofModel (Float.Model.pack
      (.finite .positive (m * 2 ^ gap m) (-(gap m : Int)) (isFull_mul_gap hpos h).pos)) := by
  have hfull := isFull_mul_gap hpos h
  have hgap : gap m ≤ 52 := Nat.sub_le 52 _
  have hone : (Float.ofBits 0x3FF0000000000000).toModel.unpack = .finite .positive (2 ^ 52) (-52) (by decide) := rfl
  have hword : m.toUInt64.toNat = m := by
    rw [Nat.toUInt64_eq, UInt64.toNat_ofNat']
    omega
  have hconvert : m.toUInt64.toFloat.toModel = Float.Model.pack
      (.finite .positive (m * 2 ^ gap m) (-(gap m : Int)) hfull.pos) := by
    show Float.Model.pack (UnpackedFloat.ofNat Format.binary64 m.toUInt64.toNat) = _
    rw [hword, ofNat_eq hpos h]
  have hround := roundWithAccuracy_mul_pow hfull .positive 52 (e := -(gap m : Int) + -52) (by omega)
  -- the library multiplies by a power of ten, which is one here
  have hproduct : UnpackedFloat.mul Format.binary64
      (.finite .positive (m * 2 ^ gap m) (-(gap m : Int)) hfull.pos) (.finite .positive (2 ^ 52) (-52) (by decide)) =
      .finite .positive (m * 2 ^ gap m) (-(gap m : Int)) hfull.pos := by
    show roundWithAccuracy _ (.positive * .positive) _ _ _ = _
    rw [show (Sign.positive * Sign.positive) = Sign.positive from rfl, hround]
    congr 1
    omega
  unfold Float.ofNat
  show Float.ofScientific m false 0 = _
  unfold Float.ofScientific
  rw [dif_pos ⟨h, by decide⟩]
  show Float.ofModel (Float.Model.pack (UnpackedFloat.mul Format.binary64 m.toUInt64.toFloat.toModel.unpack
    (Float.ofBits 0x3FF0000000000000).toModel.unpack)) = _
  rw [hconvert, unpack_pack hfull .positive hgap, hone, hproduct]

/-- The double of an integer other than zero. -/
theorem ofInt_eq_pack {n : Int} (hne : n ≠ 0) (h : n.natAbs < 2 ^ 53) :
    Float.ofInt n = .ofModel (Float.Model.pack (.finite (if n < 0 then .negative else .positive)
      (n.natAbs * 2 ^ gap n.natAbs) (-(gap n.natAbs : Int))
      (isFull_mul_gap (Int.natAbs_pos.mpr hne) h).pos)) := by
  have hpos : 0 < n.natAbs := Int.natAbs_pos.mpr hne
  have hfull := isFull_mul_gap hpos h
  have hgap : gap n.natAbs ≤ 52 := Nat.sub_le 52 _
  have hmodel := ofNat_eq_pack hpos h
  -- a negative integer is the double of its size with the sign turned
  obtain n | n := n
  · have hsign : ¬ Int.ofNat n < 0 := Int.not_lt.mpr (Int.natCast_nonneg n)
    rw [if_neg hsign]
    exact hmodel
  · rw [if_pos (Int.negSucc_lt_zero n)]
    show (Float.ofNat (Int.negSucc n).natAbs).neg = _
    rw [hmodel]
    show Float.ofModel (Float.Model.pack (UnpackedFloat.neg (Float.Model.pack _).unpack)) = _
    rw [unpack_pack hfull .positive hgap]
    rfl

/-- **An integer of at most 53 bits, made a double and cut toward zero, is itself.** -/
theorem truncate?_ofInt {n : Int} (h : n.natAbs < 2 ^ 53) : truncate? (Float.ofInt n) = some n := by
  by_cases hne : n = 0
  · subst hne
    have hbits : (Float.ofInt 0).toBits.toNat = 0 := rfl
    have hzero : ofBits 0 = .finite false 0 leastExponent := rfl
    rw [truncate?, decode, hbits, hzero]
    simp
  · have hpos : 0 < n.natAbs := Int.natAbs_pos.mpr hne
    have hgap : gap n.natAbs ≤ 52 := Nat.sub_le 52 _
    -- the exponent is not positive, and the shift to the right undoes the one to the left
    have hmagnitude : (if 0 ≤ -(gap n.natAbs : Int) then
          n.natAbs * 2 ^ gap n.natAbs * Nat.pow 2 (-(gap n.natAbs : Int)).toNat
        else n.natAbs * 2 ^ gap n.natAbs / Nat.pow 2 (- -(gap n.natAbs : Int)).toNat) = n.natAbs := by
      split
      · next hzero =>
        have hnone : gap n.natAbs = 0 := by omega
        rw [hnone]
        simp
      · rw [Int.neg_neg, Int.toNat_natCast, Nat.pow_eq, Nat.mul_div_cancel _ (Nat.two_pow_pos _)]
    unfold truncate?
    rw [ofInt_eq_pack hne h, decode_pack (isFull_mul_gap hpos h) _ hgap]
    dsimp only
    rw [hmagnitude]
    by_cases hsign : n < 0
    · rw [if_pos hsign, isNegative, if_pos rfl]
      congr 1
      omega
    · rw [if_neg hsign, isNegative, if_neg Bool.false_ne_true]
      congr 1
      omega

end DurableFlow.Number
