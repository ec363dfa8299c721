import Bitwire.Proofs.PatternBits

/-!
# Patterns as numbers

The pattern of a number is its two's complement, cut to a width.  A number fits a width, unsigned
or signed, exactly if it is in the range of that width, and then its pattern determines it.
-/

namespace Bitwire

/-- The two's complement of a number in `bits` bits, as a natural number.  For a number that is
not negative these are its low `bits` bits. -/
def twosComplement (bits : Nat) (z : Int) : Nat :=
  (z % 2 ^ bits).toNat

theorem twosComplement_lt (bits : Nat) (z : Int) : twosComplement bits z < 2 ^ bits := by
  have hpos : (0 : Int) < 2 ^ bits := Int.pow_pos (by decide)
  have hlt := Int.emod_lt_of_pos z hpos
  have hcast : ((2 ^ bits : Nat) : Int) = 2 ^ bits := Nat.cast_pow 2 bits
  rw [twosComplement]
  omega

theorem twosComplement_lt_word {bits : Nat} (h : bits ≤ 64) (z : Int) :
    twosComplement bits z < 2 ^ 64 :=
  Nat.lt_of_lt_of_le (twosComplement_lt bits z) (Nat.pow_le_pow_right (by decide) h)

theorem coe_twosComplement (bits : Nat) (z : Int) :
    (twosComplement bits z : Int) = z % 2 ^ bits :=
  Int.toNat_of_nonneg (Int.emod_nonneg z (Int.pow_ne_zero (by decide)))

-- A natural number below the bound is its own pattern.
theorem twosComplement_of_lt {bits n : Nat} (h : n < 2 ^ bits) : twosComplement bits n = n := by
  have hcast : ((2 ^ bits : Nat) : Int) = 2 ^ bits := Nat.cast_pow 2 bits
  rw [twosComplement, ← hcast, ← Int.natCast_emod, Int.toNat_natCast, Nat.mod_eq_of_lt h]

theorem twosComplement_zero (bits : Nat) : twosComplement bits 0 = 0 :=
  twosComplement_of_lt (n := 0) (Nat.two_pow_pos bits)

namespace Pattern

/-! ## 1. Unsigned numbers -/

theorem fitsUnsigned_iff (p : UInt64) (bits : Nat) :
    fitsUnsigned p bits = true ↔ p.toNat < 2 ^ bits := by
  -- what the mask leaves are the bits from `bits` on
  have hbit : ∀ k, (p &&& ~~~mask bits).toNat.testBit k =
      (p.toNat.testBit k && !decide (k < bits)) := by
    intro k
    rw [UInt64.toNat_and, Nat.testBit_and, UInt64.toNat_not, toNat_mask]
    by_cases hk : k < 64
    · have hmask : 2 ^ min bits 64 - 1 < 2 ^ 64 := by
        have := Nat.pow_le_pow_right (n := 2) (by decide) (Nat.min_le_right bits 64)
        have := Nat.two_pow_pos (min bits 64)
        omega
      rw [UInt64.size, Nat.sub_sub, Nat.add_comm 1, Nat.testBit_two_pow_sub_succ hmask,
        Nat.testBit_two_pow_sub_one, decide_eq_true hk, Bool.true_and,
        decide_eq_decide.mpr (by omega : k < min bits 64 ↔ k < bits)]
    · rw [testBit_uint64_of_le p (by omega), Bool.false_and, Bool.false_and]
  rw [fitsUnsigned, beq_iff_eq]
  constructor
  · intro hzero
    apply Nat.lt_pow_two_of_testBit
    intro k hk
    have := hbit k
    rw [hzero, UInt64.toNat_zero, Nat.zero_testBit, decide_eq_false (by omega), Bool.not_false,
      Bool.and_true] at this
    exact this.symm
  · intro hlt
    apply uint64_ext
    intro k
    rw [hbit, UInt64.toNat_zero, Nat.zero_testBit]
    by_cases hk : k < bits
    · rw [decide_eq_true hk, Bool.not_true, Bool.and_false]
    · rw [Nat.testBit_lt_two_pow (Nat.lt_of_lt_of_le hlt (Nat.pow_le_pow_right (by decide)
        (Nat.le_of_not_lt hk))), Bool.false_and]

/-! ## 2. Signed numbers -/

-- The word of a signed number is its two's complement in 64 bits.
theorem toNat_toUInt64 (v : Int64) : v.toUInt64.toNat = twosComplement 64 v.toInt := by
  have hv : v.toInt = Int.bmod v.toUInt64.toNat (2 ^ 64) := BitVec.toInt_eq_toNat_bmod v.toBitVec
  rw [hv, twosComplement]
  have hmod : Int.bmod v.toUInt64.toNat (2 ^ 64) % (2 ^ 64 : Nat) =
      (v.toUInt64.toNat : Int) % (2 ^ 64 : Nat) := Int.bmod_emod
  have hlt := v.toUInt64.toNat_lt
  omega

theorem toNat_toUInt64_of_nonneg {v : Int64} (h : 0 ≤ v.toInt) :
    (v.toUInt64.toNat : Int) = v.toInt := by
  have hlt := v.toInt_lt
  rw [toNat_toUInt64, coe_twosComplement]
  exact Int.emod_eq_of_lt h (by omega)

theorem toInt_toInt64_of_lt {v : UInt64} (h : v.toNat < 2 ^ 63) : v.toInt64.toInt = v.toNat := by
  have hv : v.toInt64.toInt = Int.bmod v.toNat (2 ^ 64) := BitVec.toInt_eq_toNat_bmod v.toBitVec
  rw [hv]
  exact Int.bmod_eq_of_le (by omega) (by omega)

theorem toNat_ofSigned (v : Int64) {bits : Nat} (h : bits ≤ 64) :
    (ofSigned v bits).toNat = twosComplement bits v.toInt := by
  have hdvd : (2 ^ bits : Int) ∣ 2 ^ 64 := pow_dvd_pow 2 h
  rw [ofSigned, toNat_truncate, toNat_toUInt64]
  apply Int.ofNat.inj
  change ((twosComplement 64 v.toInt % 2 ^ bits : Nat) : Int) = (twosComplement bits v.toInt : Int)
  rw [Int.natCast_emod, coe_twosComplement, coe_twosComplement, Nat.cast_pow]
  exact Int.emod_emod_of_dvd _ hdvd

-- Extending the sign of a pattern reads it as a two's complement.
theorem toInt_signExtend (p : UInt64) {bits : Nat} (hpos : 1 ≤ bits) (hle : bits ≤ 64) :
    (signExtend p bits).toInt = Int.bmod p.toNat (2 ^ bits) := by
  have htwo : 2 ^ (bits - 1) * 2 = 2 ^ bits := Nat.two_pow_pred_mul_two hpos
  have hhalf : 2 ^ (bits - 1) ≤ 2 ^ 63 := Nat.pow_le_pow_right (by decide) (by omega)
  have hlo := Int.le_bmod (x := p.toNat) (m := 2 ^ bits) (Nat.two_pow_pos _)
  have hhi := Int.bmod_lt (x := p.toNat) (m := 2 ^ bits) (Nat.two_pow_pos _)
  rw [signExtend, Nat.min_eq_left hle, Nat.one_shiftLeft]
  apply Int64.toInt_ofInt_of_le
  · omega
  · omega

-- The two's complement of a number in the range of a signed width determines the number.
theorem bmod_twosComplement {bits : Nat} (hpos : 1 ≤ bits) (z : Int) :
    Int.bmod (twosComplement bits z) (2 ^ bits) = z ↔ -2 ^ (bits - 1) ≤ z ∧ z < 2 ^ (bits - 1) := by
  have htwo : 2 ^ (bits - 1) * 2 = 2 ^ bits := Nat.two_pow_pred_mul_two hpos
  have hcast : ((2 ^ bits : Nat) : Int) = 2 ^ bits := Nat.cast_pow 2 bits
  have hcast' : ((2 ^ (bits - 1) : Nat) : Int) = 2 ^ (bits - 1) := Nat.cast_pow 2 (bits - 1)
  rw [coe_twosComplement, ← hcast, Int.emod_bmod]
  constructor
  · intro heq
    have hlo := Int.le_bmod (x := z) (m := 2 ^ bits) (Nat.two_pow_pos _)
    have hhi := Int.bmod_lt (x := z) (m := 2 ^ bits) (Nat.two_pow_pos _)
    rw [heq] at hlo hhi
    omega
  · intro hrange
    apply Int.bmod_eq_of_le <;> omega

theorem fitsSigned_iff (v : Int64) {bits : Nat} (hpos : 1 ≤ bits) (hle : bits ≤ 64) :
    fitsSigned v bits = true ↔ -2 ^ (bits - 1) ≤ v.toInt ∧ v.toInt < 2 ^ (bits - 1) := by
  rw [fitsSigned, beq_iff_eq, ← Int64.toInt_inj, toInt_signExtend _ hpos hle, toNat_ofSigned v hle,
    bmod_twosComplement hpos]

end Pattern

end Bitwire
