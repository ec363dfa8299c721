import Bitwire.Proofs.PatternNumbers
import Bitwire.Proofs.Simulation

/-!
# Machine types that hold fields

A machine type holds the values of a field that may be narrower.  Adding a byte to the machine value
and then cutting it to the width of the field is adding the byte to the value that was cut before,
and a machine value that is in the range of the field stays there unless a bit past the field's
width is added.
-/

namespace Bitwire

/-- How a machine type `V` holds the values of a format. -/
structure Cell (V : Type) where
  format : Format
  /-- The machine value as a word: its bits if it is unsigned, its two's complement if it is not. -/
  word : V → UInt64
  /-- Adds the bits of a byte, moved up. -/
  add : V → (shift : Nat) → UInt8 → V
  /-- The machine value as the value of a record. -/
  value : V → Value

namespace Cell

/-! ## 1. Cells that hold what they should -/

variable {V : Type}

/-- The pattern of a machine value, cut to the width of the field. -/
def pattern (c : Cell V) (v : V) : UInt64 :=
  Pattern.truncate (c.word v) c.format.width

/-- The stored form of a machine value. -/
def node (c : Cell V) (v : V) : Node :=
  .leaf (c.pattern v)

/-- Machine values that are in the range of the field: they are what their pattern stands for. -/
def InRange (c : Cell V) (v : V) : Prop :=
  (c.node v).toValue c.format = c.value v

/-- Cells whose machine values change as their patterns do, and stay in range as long as no bit past
the width of the field is added. -/
structure Lawful (c : Cell V) : Prop where
  scalar : c.format.isScalar = true
  pattern_add : ∀ v shift b,
    c.pattern (c.add v shift b) = DynamicMessage.addByte c.format (c.pattern v) shift b
  inRange_add : ∀ {v shift b}, c.InRange v → ByteWithin c.format.width shift b →
    c.InRange (c.add v shift b)

/-! ## 2. Booleans -/

/-- A boolean. -/
def bool : Cell Bool where
  format := .bool
  word b := if b then 1 else 0
  add _ _ b := b != 0
  value := .bool

theorem bool_pattern (v : Bool) : bool.pattern v = if v then 1 else 0 := by
  cases v <;> decide

theorem bool_inRange (v : Bool) : bool.InRange v := by
  cases v <;> rfl

theorem bool_lawful : bool.Lawful where
  scalar := rfl
  pattern_add v shift b := by
    show bool.pattern (b != 0) = if b = 0 then 0 else 1
    rw [bool_pattern]
    by_cases hb : b = 0
    · rw [if_pos hb, bne_eq_false_iff_eq.mpr hb]
      rfl
    · rw [if_neg hb, bne_iff_ne.mpr hb]
      rfl
  inRange_add _ _ := bool_inRange _

/-! ## 3. Unsigned integers -/

/-- An unsigned integer or an enum in a machine type of unsigned integers. -/
def unsigned (format : Format) (toWord : V → UInt64) (ofWord : UInt64 → V) : Cell V where
  format := format
  word := toWord
  add v shift b := ofWord (Pattern.orByte (toWord v) shift b)
  value v := .uint (toWord v)

/-- Formats whose values are unsigned integers. -/
def IsUnsigned (f : Format) : Prop :=
  (∃ bits, f = .uint bits) ∨ ∃ e, f = .enum e

theorem unsigned_inRange_iff {format : Format} (hf : IsUnsigned format) {toWord : V → UInt64}
    {ofWord : UInt64 → V} (v : V) : (unsigned format toWord ofWord).InRange v ↔
      Pattern.truncate (toWord v) format.width = toWord v := by
  obtain ⟨bits, rfl⟩ | ⟨e, rfl⟩ := hf <;> exact ⟨Value.uint.inj, congrArg Value.uint⟩

theorem unsigned_inRange_zero {format : Format} (hf : IsUnsigned format) {toWord : V → UInt64}
    {ofWord : UInt64 → V} {v : V} (hv : toWord v = 0) :
    (unsigned format toWord ofWord).InRange v := by
  rw [unsigned_inRange_iff hf, hv]
  refine uint64_ext fun k => ?_
  rw [Pattern.testBit_truncate, UInt64.toNat_zero, Nat.zero_testBit, Bool.and_false]

theorem unsigned_lawful {format : Format} (hf : IsUnsigned format) {size : Nat}
    {toWord : V → UInt64} {ofWord : UInt64 → V}
    (hword : ∀ p k, (toWord (ofWord p)).toNat.testBit k = (decide (k < size) && p.toNat.testBit k))
    (hsize : format.width ≤ size) : (unsigned format toWord ofWord).Lawful := by
  have hscalar : format.isScalar = true := by
    obtain ⟨bits, rfl⟩ | ⟨e, rfl⟩ := hf <;> rfl
  have hadd : ∀ p shift b, DynamicMessage.addByte format p shift b =
      Pattern.truncate (Pattern.orByte p shift b) format.width := by
    obtain ⟨bits, rfl⟩ | ⟨e, rfl⟩ := hf <;> exact fun _ _ _ => rfl
  refine ⟨hscalar, fun v shift b => ?_, fun {v shift b} hv hb => ?_⟩
  · show Pattern.truncate (toWord (ofWord (Pattern.orByte (toWord v) shift b))) format.width =
      DynamicMessage.addByte format (Pattern.truncate (toWord v) format.width) shift b
    rw [hadd]
    refine uint64_ext fun k => ?_
    rw [Pattern.testBit_truncate, hword, Pattern.testBit_truncate, Pattern.testBit_orByte,
      Pattern.testBit_orByte, Pattern.testBit_truncate]
    by_cases hk : k < format.width
    · rw [decide_eq_true hk, decide_eq_true (hk.trans_le hsize), Bool.true_and, Bool.true_and]
      rfl
    · rw [decide_eq_false hk, Bool.false_and, Bool.false_and]
  · rw [unsigned_inRange_iff hf] at hv ⊢
    refine uint64_ext fun k => ?_
    rw [Pattern.testBit_truncate]
    by_cases hk : k < format.width
    · rw [decide_eq_true hk, Bool.true_and]
    · have hbit : (toWord v).toNat.testBit k = false := by
        rw [← hv, Pattern.testBit_truncate, decide_eq_false hk, Bool.false_and]
      have hbyte : (decide (k < 64 ∧ shift ≤ k) && b.toNat.testBit (k - shift)) = false := by
        by_cases hshift : shift ≤ k
        · rw [hb k (Nat.le_of_not_lt hk) hshift, Bool.and_false]
        · rw [decide_eq_false fun h => hshift h.2, Bool.false_and]
      show (_ && _) = (toWord (ofWord (Pattern.orByte (toWord v) shift b))).toNat.testBit k
      rw [decide_eq_false hk, Bool.false_and, hword, Pattern.testBit_orByte, hbit, hbyte,
        Bool.or_false, Bool.and_false]

/-! ## 4. Signed integers -/

/-- A signed integer in a machine type of signed integers. -/
def signed (bits : Nat) (toWide : V → Int64) (ofWide : Int64 → V) : Cell V where
  format := .int bits
  word v := (toWide v).toUInt64
  add v shift b := ofWide (Pattern.orByteSigned (toWide v) bits shift b)
  value v := .int (toWide v)

end Cell

namespace Pattern

-- Extending the sign of a pattern does not change the pattern.
theorem ofSigned_signExtend (p : UInt64) {bits : Nat} (hpos : 1 ≤ bits) (hle : bits ≤ 64) :
    ofSigned (signExtend p bits) bits = truncate p bits := by
  apply UInt64.toNat_inj.mp
  apply Int.ofNat.inj
  show ((ofSigned (signExtend p bits) bits).toNat : Int) = ((truncate p bits).toNat : Int)
  rw [toNat_ofSigned _ hle, toInt_signExtend p hpos hle, toNat_truncate, coe_twosComplement,
    Int.natCast_emod]
  have hmod := @Int.bmod_emod p.toNat (2 ^ bits)
  rwa [Nat.cast_pow] at hmod ⊢

theorem signExtend_truncate (p : UInt64) {bits : Nat} (hpos : 1 ≤ bits) (hle : bits ≤ 64) :
    signExtend (truncate p bits) bits = signExtend p bits := by
  rw [← Int64.toInt_inj, toInt_signExtend _ hpos hle, toInt_signExtend _ hpos hle, toNat_truncate,
    Int.natCast_emod, Int.emod_bmod]

theorem signExtend_range (p : UInt64) {bits : Nat} (hpos : 1 ≤ bits) (hle : bits ≤ 64) :
    -2 ^ (bits - 1) ≤ (signExtend p bits).toInt ∧ (signExtend p bits).toInt < 2 ^ (bits - 1) := by
  apply (fitsSigned_iff _ hpos hle).mp
  rw [fitsSigned, beq_iff_eq, ofSigned_signExtend p hpos hle, signExtend_truncate p hpos hle]

end Pattern

namespace Cell

variable {V : Type}

theorem signed_inRange_zero {bits : Nat} (hpos : 1 ≤ bits) (hle : bits ≤ 64) {toWide : V → Int64}
    {ofWide : Int64 → V} {v : V} (hv : toWide v = 0) : (signed bits toWide ofWide).InRange v := by
  show Value.int (Pattern.signExtend (Pattern.ofSigned (toWide v) bits) bits) = .int (toWide v)
  have hzero : (0 : Int64).toInt = 0 := rfl
  rw [hv, Value.int.injEq, ← Int64.toInt_inj, Pattern.toInt_signExtend _ hpos hle,
    Pattern.toNat_ofSigned _ hle, hzero, twosComplement_zero]
  exact Int.zero_bmod

theorem signed_lawful {bits size : Nat} (hpos : 1 ≤ bits) (hsize : bits ≤ size) (hle : size ≤ 64)
    {toWide : V → Int64} {ofWide : Int64 → V}
    (hwide : ∀ x : Int64, -2 ^ (size - 1) ≤ x.toInt → x.toInt < 2 ^ (size - 1) →
      toWide (ofWide x) = x) : (signed bits toWide ofWide).Lawful := by
  have hadd : ∀ v shift b, toWide (ofWide (Pattern.orByteSigned (toWide v) bits shift b)) =
      Pattern.signExtend (Pattern.orByte (Pattern.ofSigned (toWide v) bits) shift b) bits := by
    intro v shift b
    have hrange := Pattern.signExtend_range
      (Pattern.orByte (Pattern.ofSigned (toWide v) bits) shift b) hpos (hsize.trans hle)
    have hpow : (2 : Int) ^ (bits - 1) ≤ 2 ^ (size - 1) :=
      pow_le_pow_right₀ (by decide) (by omega)
    exact hwide _ (by rw [Pattern.orByteSigned]; omega) (by rw [Pattern.orByteSigned]; omega)
  refine ⟨rfl, fun v shift b => ?_, fun {v shift b} _ _ => ?_⟩
  · show Pattern.ofSigned (toWide (ofWide _)) bits =
      Pattern.truncate (Pattern.orByte (Pattern.ofSigned (toWide v) bits) shift b) bits
    rw [hadd, Pattern.ofSigned_signExtend _ hpos (hsize.trans hle)]
  · show Value.int (Pattern.signExtend (Pattern.ofSigned (toWide (ofWide _)) bits) bits) =
      .int (toWide (ofWide _))
    rw [hadd, Pattern.ofSigned_signExtend _ hpos (hsize.trans hle),
      Pattern.signExtend_truncate _ hpos (hsize.trans hle)]

/-! ## 5. Machine types -/

/-- An unsigned field in eight bits. -/
def uint8 (format : Format) : Cell UInt8 :=
  unsigned format UInt8.toUInt64 UInt64.toUInt8

/-- An unsigned field in sixteen bits. -/
def uint16 (format : Format) : Cell UInt16 :=
  unsigned format UInt16.toUInt64 UInt64.toUInt16

/-- An unsigned field in a word. -/
def uint64 (format : Format) : Cell UInt64 :=
  unsigned format id id

/-- A signed field in eight bits. -/
def int8 (bits : Nat) : Cell Int8 :=
  signed bits Int8.toInt64 Int64.toInt8

/-- A signed field in a word. -/
def int64 (bits : Nat) : Cell Int64 :=
  signed bits id id

theorem uint8_lawful {format : Format} (hf : IsUnsigned format) (hsize : format.width ≤ 8) :
    (uint8 format).Lawful :=
  unsigned_lawful hf (fun p k => Nat.testBit_mod_two_pow p.toNat 8 k) hsize

theorem uint16_lawful {format : Format} (hf : IsUnsigned format) (hsize : format.width ≤ 16) :
    (uint16 format).Lawful :=
  unsigned_lawful hf (fun p k => Nat.testBit_mod_two_pow p.toNat 16 k) hsize

theorem uint64_lawful {format : Format} (hf : IsUnsigned format) (hsize : format.width ≤ 64) :
    (uint64 format).Lawful := by
  refine unsigned_lawful hf (fun p k => ?_) hsize
  by_cases hk : k < 64
  · rw [decide_eq_true hk, Bool.true_and]
    rfl
  · rw [decide_eq_false hk, Bool.false_and]
    exact testBit_uint64_of_le p (Nat.le_of_not_lt hk)

theorem int8_lawful {bits : Nat} (hpos : 1 ≤ bits) (hsize : bits ≤ 8) : (int8 bits).Lawful := by
  refine signed_lawful hpos hsize (by decide) fun x hlo hhi => ?_
  rw [← Int64.toInt_inj, Int8.toInt_toInt64, Int64.toInt_toInt8]
  exact Int.bmod_eq_of_le (by omega) (by omega)

theorem int64_lawful {bits : Nat} (hpos : 1 ≤ bits) (hsize : bits ≤ 64) : (int64 bits).Lawful :=
  signed_lawful hpos hsize le_rfl fun _ _ _ => rfl

end Cell

end Bitwire
