import Bitwire.Codec.Visit
import Mathlib

/-!
# Patterns bit by bit

The arithmetic on patterns, spans and bytes, read one bit at a time.  Words are moved to `Nat`,
where bit `k` of a word is `testBit k`, so that the codec's shifts and masks become equations
between bit positions.
-/

namespace Bitwire

/-! ## 1. Words -/

theorem testBit_uint64_of_le (p : UInt64) {k : Nat} (hk : 64 ≤ k) : p.toNat.testBit k = false :=
  Nat.testBit_lt_two_pow (Nat.lt_of_lt_of_le p.toNat_lt (Nat.pow_le_pow_right (by decide) hk))

theorem testBit_uint8_of_le (b : UInt8) {i : Nat} (hi : 8 ≤ i) : b.toNat.testBit i = false :=
  Nat.testBit_lt_two_pow (Nat.lt_of_lt_of_le b.toNat_lt (Nat.pow_le_pow_right (by decide) hi))

-- Words are equal if all their bits are.
theorem uint64_ext {p q : UInt64} (h : ∀ k, p.toNat.testBit k = q.toNat.testBit k) : p = q :=
  UInt64.toNat_inj.mp (Nat.eq_of_testBit_eq h)

theorem uint8_ext {a b : UInt8} (h : ∀ i < 8, a.toNat.testBit i = b.toNat.testBit i) : a = b := by
  apply UInt8.toNat_inj.mp
  apply Nat.eq_of_testBit_eq
  intro i
  by_cases hi : i < 8
  · exact h i hi
  · rw [testBit_uint8_of_le a (by omega), testBit_uint8_of_le b (by omega)]

namespace Pattern

/-! ## 2. Patterns -/

theorem toNat_mask (bits : Nat) : (mask bits).toNat = 2 ^ min bits 64 - 1 := by
  have hle : 2 ^ min bits 64 ≤ 2 ^ 64 := Nat.pow_le_pow_right (by decide) (by omega)
  have hpos : 0 < 2 ^ min bits 64 := Nat.two_pow_pos _
  rw [mask, Nat.one_shiftLeft, UInt64.toNat_ofNat']
  exact Nat.mod_eq_of_lt (by omega)

theorem testBit_truncate (p : UInt64) (bits k : Nat) :
    (truncate p bits).toNat.testBit k = (decide (k < bits) && p.toNat.testBit k) := by
  rw [truncate, UInt64.toNat_and, Nat.testBit_and, toNat_mask, Nat.testBit_two_pow_sub_one]
  by_cases hk : k < 64
  · rw [decide_eq_decide.mpr (by omega : k < min bits 64 ↔ k < bits), Bool.and_comm]
  · rw [testBit_uint64_of_le p (by omega), Bool.false_and, Bool.and_false]

-- Cutting a pattern to a width is reducing it modulo a power of two.
theorem toNat_truncate (p : UInt64) (bits : Nat) :
    (truncate p bits).toNat = p.toNat % 2 ^ bits := by
  apply Nat.eq_of_testBit_eq
  intro k
  rw [testBit_truncate, Nat.testBit_mod_two_pow]

-- A byte taken out of a pattern holds the pattern's bits from `shift` on; below the pattern there
-- are none.
theorem testBit_byteAt (p : UInt64) (shift : Int) {i : Nat} (hi : i < 8) :
    (byteAt p shift).toNat.testBit i =
      (decide (0 ≤ i + shift) && p.toNat.testBit (i + shift).toNat) := by
  unfold byteAt
  split
  next hout =>
    rw [UInt8.toNat_zero, Nat.zero_testBit]
    rcases hout with hup | hdown
    · rw [testBit_uint64_of_le p (by omega), Bool.and_false]
    · rw [decide_eq_false (by omega), Bool.false_and]
  next hin =>
    split
    next hpos =>
      -- the pattern moves down, and what is left above the byte is cut off
      have hs : shift.toNat < 2 ^ 64 := by omega
      rw [UInt64.toNat_toUInt8, UInt64.toNat_shiftRight, UInt64.toNat_ofNat', Nat.mod_eq_of_lt hs,
        Nat.mod_eq_of_lt (by omega : shift.toNat < 64), Nat.testBit_mod_two_pow,
        Nat.testBit_shiftRight, decide_eq_true hi, decide_eq_true (by omega),
        show shift.toNat + i = (i + shift).toNat by omega]
    next hneg =>
      -- the pattern moves up, and zeros come in below it
      have hs : (-shift).toNat < 2 ^ 64 := by omega
      rw [UInt64.toNat_toUInt8, UInt64.toNat_shiftLeft, UInt64.toNat_ofNat', Nat.mod_eq_of_lt hs,
        Nat.mod_eq_of_lt (by omega : (-shift).toNat < 64), Nat.testBit_mod_two_pow,
        Nat.testBit_mod_two_pow, Nat.testBit_shiftLeft, decide_eq_true hi,
        decide_eq_true (by omega : i < 64), Bool.true_and, Bool.true_and]
      by_cases hge : (0 : Int) ≤ i + shift
      · rw [decide_eq_true hge, decide_eq_true (by omega : i ≥ (-shift).toNat),
          show i - (-shift).toNat = (i + shift).toNat by omega]
      · rw [decide_eq_false hge, decide_eq_false (by omega : ¬ i ≥ (-shift).toNat)]
        rfl

-- Adding a byte to a pattern adds its bits from `shift` on, up to the top of the word.
theorem testBit_orByte (p : UInt64) (shift : Nat) (b : UInt8) (k : Nat) :
    (orByte p shift b).toNat.testBit k =
      (p.toNat.testBit k || (decide (k < 64 ∧ shift ≤ k) && b.toNat.testBit (k - shift))) := by
  unfold orByte
  split
  next hout => rw [decide_eq_false (by omega), Bool.false_and, Bool.or_false]
  next hin =>
    rw [UInt64.toNat_or, Nat.testBit_or, UInt64.toNat_shiftLeft, UInt64.toNat_ofNat',
      Nat.mod_eq_of_lt (by omega : shift < 2 ^ 64), Nat.mod_eq_of_lt (by omega : shift < 64),
      Nat.testBit_mod_two_pow, Nat.testBit_shiftLeft, UInt8.toNat_toUInt64, ← Bool.and_assoc,
      Bool.decide_and]

theorem testBit_byteMask {start count : Nat} (h : start + count ≤ 8) (i : Nat) :
    (byteMask start count).toNat.testBit i = decide (start ≤ i ∧ i < start + count) := by
  rw [byteMask, Nat.one_shiftLeft, UInt8.toNat_ofNat', Nat.testBit_mod_two_pow,
    Nat.testBit_shiftLeft, Nat.testBit_two_pow_sub_one, ← Bool.decide_and, ← Bool.decide_and]
  exact decide_eq_decide.mpr (by omega)

end Pattern

/-! ## 3. Spans -/

/-- The bits of byte `byte` that belong to the value of `width` bits at bit `offset`: that byte of
the stream in which exactly these bits are set. -/
def ownBits (offset width byte : Nat) : UInt8 :=
  UInt8.ofNat ((2 ^ width - 1) * 2 ^ offset / 2 ^ (8 * byte))

theorem testBit_ownBits (offset width byte : Nat) {i : Nat} (hi : i < 8) :
    (ownBits offset width byte).toNat.testBit i =
      decide (offset ≤ 8 * byte + i ∧ 8 * byte + i < offset + width) := by
  rw [ownBits, UInt8.toNat_ofNat', Nat.testBit_mod_two_pow, Nat.testBit_div_two_pow,
    Nat.testBit_mul_two_pow, Nat.testBit_two_pow_sub_one, decide_eq_true hi, Bool.true_and,
    ← Bool.decide_and]
  exact decide_eq_decide.mpr (by omega)

-- A value that has no bit in a byte owns none of it.
theorem ownBits_eq_zero {offset width byte : Nat}
    (h : offset + width ≤ 8 * byte ∨ 8 * byte + 8 ≤ offset) : ownBits offset width byte = 0 := by
  apply uint8_ext
  intro i hi
  rw [testBit_ownBits _ _ _ hi, UInt8.toNat_zero, Nat.zero_testBit]
  exact decide_eq_false (by omega)

-- What is taken out of a pattern for a byte are the value's bits there, each where it stands.
theorem testBit_byteAt_ownBits (p : UInt64) (offset width byte : Nat) {i : Nat} (hi : i < 8) :
    (Pattern.byteAt p ((8 * byte : Nat) - (offset : Int)) &&&
      ownBits offset width byte).toNat.testBit i =
      (decide (offset ≤ 8 * byte + i ∧ 8 * byte + i < offset + width) &&
        p.toNat.testBit (8 * byte + i - offset)) := by
  rw [UInt8.toNat_and, Nat.testBit_and, testBit_ownBits _ _ _ hi, Pattern.testBit_byteAt _ _ hi,
    Bool.and_comm]
  by_cases hin : offset ≤ 8 * byte + i ∧ 8 * byte + i < offset + width
  · rw [decide_eq_true hin, decide_eq_true (by omega), Bool.true_and, Bool.true_and, Bool.true_and,
      show ((i : Int) + ((8 * byte : Nat) - (offset : Int))).toNat = 8 * byte + i - offset by omega]
  · rw [decide_eq_false hin, Bool.false_and, Bool.false_and]

namespace ByteSpan

theorem of?_eq_some {offset width byte : Nat} (h : offset < 8 * byte + 8)
    (h' : 8 * byte < offset + width) (hw : 0 < width) :
    of? offset width byte = some ⟨(8 * byte : Nat) - (offset : Int), ownBits offset width byte⟩ := by
  have hlt : max offset (8 * byte) < min (offset + width) (8 * byte + 8) := by omega
  rw [of?, if_pos hlt]
  congr 2
  apply uint8_ext
  intro i hi
  rw [Pattern.testBit_byteMask (by omega), testBit_ownBits _ _ _ hi]
  exact decide_eq_decide.mpr (by omega)

theorem of?_eq_none {offset width byte : Nat}
    (h : offset + width ≤ 8 * byte ∨ 8 * byte + 8 ≤ offset) : of? offset width byte = none := by
  rw [of?, if_neg (by omega)]

theorem of?_bounds {offset width byte : Nat} {span : ByteSpan}
    (h : of? offset width byte = some span) :
    offset < 8 * byte + 8 ∧ 8 * byte < offset + width ∧
      span = ⟨(8 * byte : Nat) - (offset : Int), ownBits offset width byte⟩ := by
  have hlt : max offset (8 * byte) < min (offset + width) (8 * byte + 8) := by
    by_contra hge
    rw [of?, if_neg hge] at h
    exact absurd h (by simp)
  rw [of?_eq_some (by omega) (by omega) (by omega)] at h
  exact ⟨by omega, by omega, (Option.some.inj h).symm⟩

-- A value is moved up by how far the byte lies behind its first bit.
theorem contribution_fst {offset width byte : Nat} {span : ByteSpan}
    (h : of? offset width byte = some span) (input : UInt8) :
    (span.contribution input).1 = 8 * byte - offset := by
  obtain ⟨-, -, rfl⟩ := of?_bounds h
  rw [contribution]
  split
  · change ((8 * byte : Nat) - (offset : Int)).toNat = _
    omega
  next hneg =>
    change ¬ (0 : Int) ≤ (8 * byte : Nat) - (offset : Int) at hneg
    change 0 = _
    omega

-- What a span adds to a pattern are the bits of the input byte that belong to the value, each
-- moved to where it stands in the value.
theorem testBit_contribution {offset width byte : Nat} {span : ByteSpan}
    (h : of? offset width byte = some span) (input : UInt8) (k : Nat) :
    (decide ((span.contribution input).1 ≤ k) &&
        (span.contribution input).2.toNat.testBit (k - (span.contribution input).1)) =
      (decide (k < width ∧ 8 * byte ≤ offset + k ∧ offset + k < 8 * byte + 8) &&
        input.toNat.testBit (offset + k - 8 * byte)) := by
  obtain ⟨hlo, hhi, rfl⟩ := of?_bounds h
  -- the bits of other values are masked out before anything moves
  have hown : ∀ j, (input &&& ownBits offset width byte).toNat.testBit j =
      (decide (j < 8 ∧ offset ≤ 8 * byte + j ∧ 8 * byte + j < offset + width) &&
        input.toNat.testBit j) := by
    intro j
    rw [UInt8.toNat_and, Nat.testBit_and]
    by_cases hj : j < 8
    · rw [testBit_ownBits _ _ _ hj, Bool.and_comm]
      congr 1
      exact decide_eq_decide.mpr (by omega)
    · rw [testBit_uint8_of_le input (by omega), Bool.false_and, Bool.and_false]
  rw [contribution_fst h]
  by_cases hle : offset ≤ 8 * byte
  -- the value started in an earlier byte, so its bits move up in the pattern
  · rw [contribution, if_pos (show (0 : Int) ≤ (8 * byte : Nat) - (offset : Int) by omega), hown]
    by_cases hk : 8 * byte - offset ≤ k
    · rw [decide_eq_true hk, Bool.true_and,
        show k - (8 * byte - offset) = offset + k - 8 * byte by omega]
      congr 1
      exact decide_eq_decide.mpr (by omega)
    · rw [decide_eq_false hk, Bool.false_and, decide_eq_false (by omega), Bool.false_and]
  -- the value starts inside the byte, so its bits move down to the front of the pattern
  · have hshift : (-((8 * byte : Nat) - (offset : Int))).toNat = offset - 8 * byte := by omega
    have hmod : (offset - 8 * byte) % 2 ^ 8 % 8 = offset - 8 * byte := by omega
    rw [contribution, if_neg (show ¬ (0 : Int) ≤ (8 * byte : Nat) - (offset : Int) by omega), hshift,
      UInt8.toNat_shiftRight, UInt8.toNat_ofNat', Nat.testBit_shiftRight, hmod, hown,
      decide_eq_true (by omega), Bool.true_and,
      show offset - 8 * byte + (k - (8 * byte - offset)) = offset + k - 8 * byte by omega]
    congr 1
    exact decide_eq_decide.mpr (by omega)

end ByteSpan

end Bitwire
