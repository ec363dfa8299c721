import Bitwire.Proofs.MachineTypes
import Bitwire.Source.Identifier

/-!
# Signed values byte by byte

A signed value takes up bytes one after the other, and its sign is extended after each of them.
The order of the bytes makes no difference: what a sign extension changes lies above the width,
where the next byte finds the pattern cut off again.
-/

namespace Bitwire

namespace Pattern

/-! ## 1. Signed numbers and patterns -/

/-- The numbers that have a two's complement in `bits` bits. -/
def InSignedRange (bits : Nat) (z : Int) : Prop :=
  -2 ^ (bits - 1) ≤ z ∧ z < 2 ^ (bits - 1)

theorem signExtend_ofSigned {v : Int64} {bits : Nat} (hpos : 1 ≤ bits) (hle : bits ≤ 64)
    (hv : InSignedRange bits v.toInt) : signExtend (ofSigned v bits) bits = v := by
  apply eq_of_beq
  exact (fitsSigned_iff v hpos hle).mpr hv

theorem truncate_of_lt {p : UInt64} {bits : Nat} (h : p.toNat < 2 ^ bits) :
    truncate p bits = p := by
  apply UInt64.toNat_inj.mp
  rw [toNat_truncate, Nat.mod_eq_of_lt h]

/-! ## 2. Adding bytes -/

/-- A signed value to which bytes are added one after the other, each moved up by its shift. -/
def accumulate (bits : Nat) (v : Int64) (parts : List (Nat × UInt8)) : Int64 :=
  parts.foldl (fun v part => orByteSigned v bits part.1 part.2) v

/-- The bits of all bytes that are added, each moved up by its shift, however far that is. -/
def addedBits (parts : List (Nat × UInt8)) : Nat :=
  parts.foldr (fun part others => part.2.toNat * 2 ^ part.1 ||| others) 0

theorem addedBits_perm {parts parts' : List (Nat × UInt8)} (h : parts'.Perm parts) :
    addedBits parts' = addedBits parts := by
  unfold addedBits
  apply h.foldr_eq'
  intro part _ part' _ others
  rw [← Nat.lor_assoc, ← Nat.lor_assoc, Nat.lor_comm (part.2.toNat * 2 ^ part.1)]

-- The pattern of a value takes up a byte as far as there is room for it.
theorem toNat_ofSigned_orByteSigned (v : Int64) {bits : Nat} (hpos : 1 ≤ bits) (hle : bits ≤ 64)
    (shift : Nat) (b : UInt8) : (ofSigned (orByteSigned v bits shift b) bits).toNat =
      ((ofSigned v bits).toNat ||| b.toNat * 2 ^ shift) % 2 ^ bits := by
  unfold orByteSigned
  rw [ofSigned_signExtend _ hpos hle]
  apply Nat.eq_of_testBit_eq
  intro k
  rw [testBit_truncate, testBit_orByte, Nat.testBit_mod_two_pow, Nat.testBit_or,
    Nat.testBit_mul_two_pow]
  by_cases hk : k < bits
  · have hroom : (k < 64 ∧ shift ≤ k) ↔ shift ≤ k := by omega
    rw [decide_eq_decide.mpr hroom]
  · rw [decide_eq_false hk, Bool.false_and, Bool.false_and]

theorem toNat_ofSigned_accumulate (v : Int64) {bits : Nat} (hpos : 1 ≤ bits) (hle : bits ≤ 64)
    (parts : List (Nat × UInt8)) : (ofSigned (accumulate bits v parts) bits).toNat =
      (twosComplement bits v.toInt ||| addedBits parts) % 2 ^ bits := by
  induction parts generalizing v with
  | nil =>
    show (ofSigned v bits).toNat = (_ ||| 0) % _
    rw [toNat_ofSigned v hle, Nat.or_zero, Nat.mod_eq_of_lt (twosComplement_lt bits v.toInt)]
  | cons part rest ih =>
    show (ofSigned (accumulate bits (orByteSigned v bits part.1 part.2) rest) bits).toNat =
      (_ ||| (part.2.toNat * 2 ^ part.1 ||| addedBits rest)) % _
    rw [ih, ← toNat_ofSigned _ hle, toNat_ofSigned_orByteSigned v hpos hle, toNat_ofSigned v hle,
      ← Nat.lor_assoc, Nat.or_mod_two_pow, Nat.mod_mod, ← Nat.or_mod_two_pow]

-- After the first byte a value is in the range of its width.
theorem accumulate_inRange (v : Int64) {bits : Nat} (hpos : 1 ≤ bits) (hle : bits ≤ 64)
    {parts : List (Nat × UInt8)} (hparts : parts ≠ []) :
    InSignedRange bits (accumulate bits v parts).toInt := by
  rw [← List.dropLast_append_getLast hparts]
  unfold accumulate
  rw [List.foldl_append]
  exact signExtend_range _ hpos hle

/-! ## 3. Storing in between -/

/-- What is read from a signed machine type, given by its name, after a number was stored there. -/
def stored? (type : String) (v : Int64) : Option Int64 :=
  if type = "i8" then some v.toInt8.toInt64
  else if type = "i16" then some v.toInt16.toInt64
  else if type = "i32" then some v.toInt32.toInt64
  else if type = "i64" then some v
  else none

theorem bmod_of_inRange {bits size : Nat} (hpos : 1 ≤ size) (hle : bits ≤ size) {z : Int}
    (hz : InSignedRange bits z) : Int.bmod z (2 ^ size) = z := by
  have hpow : (2 : Int) ^ (bits - 1) ≤ 2 ^ (size - 1) := pow_le_pow_right₀ (by decide) (by omega)
  rw [← Int.emod_bmod, Nat.cast_pow, Nat.cast_two, ← coe_twosComplement,
    bmod_twosComplement hpos]
  unfold InSignedRange at hz
  omega

-- The machine type of a width has room for all numbers of that width.
theorem stored?_of_inRange {v : Int64} {bits : Nat} (hv : InSignedRange bits v.toInt) :
    stored? (Identifier.integerType true bits) v = some v := by
  unfold Identifier.integerType
  by_cases h8 : bits ≤ 8
  · rw [if_pos rfl, if_pos h8]
    show some v.toInt8.toInt64 = some v
    rw [Option.some_inj, ← Int64.toInt_inj, Int8.toInt_toInt64, Int64.toInt_toInt8]
    exact bmod_of_inRange (by decide) h8 hv
  by_cases h16 : bits ≤ 16
  · rw [if_pos rfl, if_neg h8, if_pos h16]
    show some v.toInt16.toInt64 = some v
    rw [Option.some_inj, ← Int64.toInt_inj, Int16.toInt_toInt64, Int64.toInt_toInt16]
    exact bmod_of_inRange (by decide) h16 hv
  by_cases h32 : bits ≤ 32
  · rw [if_pos rfl, if_neg h8, if_neg h16, if_pos h32]
    show some v.toInt32.toInt64 = some v
    rw [Option.some_inj, ← Int64.toInt_inj, Int32.toInt_toInt64, Int64.toInt_toInt32]
    exact bmod_of_inRange (by decide) h32 hv
  · rw [if_pos rfl, if_neg h8, if_neg h16, if_neg h32]
    rfl

/-- Bytes are added to a value of the machine type for its width: each time the value is widened,
and the result is stored again. -/
def accumulateStored? (bits : Nat) (v : Int64) (parts : List (Nat × UInt8)) : Option Int64 :=
  parts.foldlM (fun v part =>
    stored? (Identifier.integerType true bits) (orByteSigned v bits part.1 part.2)) v

theorem accumulateStored?_eq (v : Int64) {bits : Nat} (hpos : 1 ≤ bits) (hle : bits ≤ 64)
    (parts : List (Nat × UInt8)) :
    accumulateStored? bits v parts = some (accumulate bits v parts) := by
  induction parts generalizing v with
  | nil => rfl
  | cons part rest ih =>
    have hstep : InSignedRange bits (orByteSigned v bits part.1 part.2).toInt :=
      signExtend_range _ hpos hle
    unfold accumulateStored?
    rw [List.foldlM_cons, stored?_of_inRange hstep]
    exact ih _

/-! ## 4. All bytes -/

/-- Adding bytes to a signed value, of any width and from any start, adds their bits to its two's
complement as far as there is room, in whatever order the bytes come.  After the first byte the
value stays in the range of its width, so that it can be kept in the machine type for that width.
Patterns of a width and numbers in its range are the same thing. -/
theorem accumulate_exact {bits : Nat} (hpos : 1 ≤ bits) (hle : bits ≤ 64) (v : Int64)
    {parts : List (Nat × UInt8)} (hparts : parts ≠ []) :
    accumulate bits v parts = signExtend
        (UInt64.ofNat ((twosComplement bits v.toInt ||| addedBits parts) % 2 ^ bits)) bits ∧
      (∀ parts' : List (Nat × UInt8), parts'.Perm parts →
        accumulate bits v parts' = accumulate bits v parts) ∧
      (∀ front : List (Nat × UInt8), front ≠ [] → front <+: parts →
        InSignedRange bits (accumulate bits v front).toInt) ∧
      accumulateStored? bits v parts = some (accumulate bits v parts) ∧
      (∀ p : UInt64, p.toNat < 2 ^ bits →
        InSignedRange bits (signExtend p bits).toInt ∧ ofSigned (signExtend p bits) bits = p) ∧
      ∀ w : Int64, InSignedRange bits w.toInt →
        (ofSigned w bits).toNat < 2 ^ bits ∧ signExtend (ofSigned w bits) bits = w := by
  have hvalue : ∀ parts' : List (Nat × UInt8), parts' ≠ [] → accumulate bits v parts' = signExtend
      (UInt64.ofNat ((twosComplement bits v.toInt ||| addedBits parts') % 2 ^ bits)) bits := by
    intro parts' hne
    rw [← toNat_ofSigned_accumulate v hpos hle, UInt64.ofNat_toNat,
      signExtend_ofSigned hpos hle (accumulate_inRange v hpos hle hne)]
  refine ⟨hvalue parts hparts, fun parts' hperm => ?_,
    fun front hfront _ => accumulate_inRange v hpos hle hfront,
    accumulateStored?_eq v hpos hle parts, fun p hp => ⟨signExtend_range p hpos hle, ?_⟩,
    fun w hw => ⟨?_, signExtend_ofSigned hpos hle hw⟩⟩
  · have hne : parts' ≠ [] := fun hnil => hparts (hnil ▸ hperm).nil_eq.symm
    rw [hvalue parts' hne, hvalue parts hparts, addedBits_perm hperm]
  · rw [ofSigned_signExtend p hpos hle, truncate_of_lt hp]
  · rw [toNat_ofSigned w hle]
    exact twosComplement_lt bits w.toInt

/-- Twelve bits that start out of range; one of the bytes lies above the word. -/
theorem accumulate_exact_twelve :
    accumulate 12 (-5000) [(8, 0x0f), (70, 0xff), (0, 0x01)] = -135 ∧
    accumulate 12 (-5000) [(0, 0x01), (8, 0x0f), (70, 0xff)] = -135 ∧
    InSignedRange 12 (accumulate 12 (-5000) [(8, 0x0f)]).toInt ∧
    accumulateStored? 12 (-5000) [(8, 0x0f), (70, 0xff), (0, 0x01)] = some (-135) ∧
    ofSigned (-135) 12 = 0xf79 := by
  obtain ⟨hvalue, horder, hrange, hstored, hpatterns, -⟩ := @accumulate_exact 12 (by decide)
    (by decide) (-5000) [(8, 0x0f), (70, 0xff), (0, 0x01)] (List.cons_ne_nil _ _)
  have hnumber : signExtend 0xf79 12 = -135 := by decide +kernel
  have hpattern : UInt64.ofNat ((twosComplement 12 (-5000 : Int64).toInt |||
      addedBits [(8, 0x0f), (70, 0xff), (0, 0x01)]) % 2 ^ 12) = 0xf79 := by decide +kernel
  rw [hpattern, hnumber] at hvalue
  refine ⟨hvalue, ?_, ?_, ?_, ?_⟩
  · rw [horder _ (by decide), hvalue]
  · exact hrange _ (List.cons_ne_nil _ _) (by decide)
  · rw [hstored, hvalue]
  · rw [← hnumber]
    exact (hpatterns 0xf79 (by decide)).2

end Pattern

end Bitwire
