import Bitwire.Proofs.WordWalk

/-!
# A value split into bytes

The bits of a value lie in one to nine bytes.  Each of these bytes has its own bits of the value,
and what is taken out of the value's pattern for the bytes can be put back in any order.
-/

namespace Bitwire

namespace ByteSpan

/-! ## 1. The bits of a part -/

/-- The bits of the stream that a span has in byte `byte`. -/
def streamBits (span : ByteSpan) (byte : Nat) : Set Nat :=
  {i | i / 8 = byte ∧ span.mask.toNat.testBit (i % 8) = true}

theorem isSome_of?_iff {offset width byte : Nat} (hw : 0 < width) :
    (of? offset width byte).isSome = true ↔ offset < 8 * byte + 8 ∧ 8 * byte < offset + width := by
  by_cases h : offset < 8 * byte + 8 ∧ 8 * byte < offset + width
  · simp only [of?_eq_some h.1 h.2 hw, Option.isSome_some, h, and_self]
  · rw [of?_eq_none (by omega)]
    simp [h]

-- A span has the bits of its byte that belong to the value.
theorem mem_streamBits_iff {offset width byte : Nat} {span : ByteSpan}
    (h : of? offset width byte = some span) (i : Nat) :
    i ∈ span.streamBits byte ↔ i / 8 = byte ∧ offset ≤ i ∧ i < offset + width := by
  obtain ⟨-, -, rfl⟩ := of?_bounds h
  unfold streamBits
  simp only [Set.mem_ofPred_eq, testBit_ownBits _ _ _ (Nat.mod_lt i (by decide)), decide_eq_true_eq]
  omega

theorem mask_ne_zero {offset width byte : Nat} {span : ByteSpan} (hw : 0 < width)
    (h : of? offset width byte = some span) : span.mask ≠ 0 := by
  obtain ⟨hlo, hhi, rfl⟩ := of?_bounds h
  intro hzero
  -- the first bit of the value in this byte
  have hi : max offset (8 * byte) - 8 * byte < 8 := by omega
  have hbit := testBit_ownBits offset width byte hi
  rw [show ownBits offset width byte = 0 from hzero, UInt8.toNat_zero, Nat.zero_testBit] at hbit
  have := of_decide_eq_false hbit.symm
  omega

/-- Every bit of a value lies in exactly one of its parts, no other bit does, and no part is empty.
The parts are in successive bytes.  Bytes are counted without end here; that all parts are in bytes
whose bits are counted in a word is part of `StaysInWords`. -/
structure Partitions (offset width : Nat) : Prop where
  bytes : ∀ byte, (of? offset width byte).isSome = true ↔
    offset / 8 ≤ byte ∧ byte ≤ (offset + width - 1) / 8
  cover : ∀ i, (∃ byte span, of? offset width byte = some span ∧ i ∈ span.streamBits byte) ↔
    offset ≤ i ∧ i < offset + width
  disjoint : ∀ byte byte' span span', byte ≠ byte' → of? offset width byte = some span →
    of? offset width byte' = some span' → Disjoint (span.streamBits byte) (span'.streamBits byte')
  mask_ne_zero : ∀ byte span, of? offset width byte = some span → span.mask ≠ 0

theorem partitions (offset : Nat) {width : Nat} (hw : 0 < width) : Partitions offset width where
  bytes byte := by
    rw [isSome_of?_iff hw]
    omega
  cover i := by
    constructor
    · rintro ⟨byte, span, hspan, hi⟩
      exact ((mem_streamBits_iff hspan i).mp hi).2
    · intro hi
      have hspan := @of?_eq_some offset width (i / 8) (by omega) (by omega) hw
      exact ⟨i / 8, _, hspan, (mem_streamBits_iff hspan i).mpr ⟨rfl, hi⟩⟩
  disjoint byte byte' span span' hne hspan hspan' := by
    rw [Set.disjoint_left]
    intro i hi hi'
    apply hne
    rw [← ((mem_streamBits_iff hspan i).mp hi).1, ((mem_streamBits_iff hspan' i).mp hi').1]
  mask_ne_zero _ _ hspan := ByteSpan.mask_ne_zero hw hspan

/-! ## 2. Numbers on the way -/

-- A part moves a pattern by less than a word, up by less than a byte.
theorem shift_bounds {offset width byte : Nat} {span : ByteSpan} (hw : width ≤ 64)
    (h : of? offset width byte = some span) : -7 ≤ span.shift ∧ span.shift ≤ 63 := by
  obtain ⟨hlo, hhi, rfl⟩ := of?_bounds h
  simp only
  omega

-- Where the bits of a byte are not counted in a word, nothing is found.
theorem checked_eq_none {byte : Nat} (h : ¬ 8 * byte + 8 < 2 ^ 64) (offset width : Nat) :
    checked offset width byte = none := by
  unfold checked
  by_cases hlo : 8 * byte < 2 ^ 64
  · rw [Checked.word_eq hlo, Option.bind_eq_bind, Option.bind_some]
    exact congrArg (Option.bind · _) (if_neg h)
  · exact congrArg (Option.bind · _) (if_neg hlo)

/-- The parts of a value are found and moved within words: in every byte whose bits are counted in
a word, no number on the way to a part leaves its word or its half word, and every part is in such a
byte.  Taking a byte out of a pattern and adding one to it are plain shifts. -/
structure StaysInWords (offset width : Nat) : Prop where
  checked : ∀ byte, 8 * byte + 8 < 2 ^ 64 →
    ByteSpan.checked offset width byte = some (of? offset width byte)
  counted : ∀ byte span, of? offset width byte = some span → 8 * byte + 8 < 2 ^ 64
  found : ∀ byte span, ByteSpan.checked offset width byte = some (some span) ↔
    of? offset width byte = some span
  shift : ∀ byte span, of? offset width byte = some span → -7 ≤ span.shift ∧ span.shift ≤ 63
  byteAt : ∀ byte span, of? offset width byte = some span → ∀ p, Pattern.byteAt p span.shift =
    if 0 ≤ span.shift then (p >>> UInt64.ofNat span.shift.toNat).toUInt8
    else (p <<< UInt64.ofNat (-span.shift).toNat).toUInt8
  orByte : ∀ byte span, of? offset width byte = some span → ∀ p input,
    Pattern.orByte p (span.contribution input).1 (span.contribution input).2 =
      p ||| ((span.contribution input).2.toUInt64 <<< UInt64.ofNat (span.contribution input).1)

theorem staysInWords {offset width : Nat} (hoffset : offset < 2 ^ 32) (hw : width ≤ 64) :
    StaysInWords offset width where
  checked _ hbyte := ByteSpan.checked_eq hw hoffset hbyte
  counted byte span h := by
    obtain ⟨hlo, hhi, -⟩ := of?_bounds h
    omega
  found byte span := by
    by_cases hbyte : 8 * byte + 8 < 2 ^ 64
    · rw [ByteSpan.checked_eq hw hoffset hbyte, Option.some_inj]
    · rw [checked_eq_none hbyte, of?_eq_none (by omega)]
      simp
  shift _ _ h := shift_bounds hw h
  byteAt byte span h p := by
    obtain ⟨hlo, hhi⟩ := shift_bounds hw h
    unfold Pattern.byteAt
    rw [if_neg (by omega)]
  orByte byte span h p input := by
    obtain ⟨hlo, hhi, -⟩ := of?_bounds h
    unfold Pattern.orByte
    rw [if_neg]
    rw [contribution_fst h]
    omega

/-! ## 3. Taken out and put back -/

/-- Puts back into `acc` what byte `byte` carries of a value with the pattern `p`: the part that
encoding takes out of the pattern, added as decoding adds it. -/
def carry (offset width : Nat) (p acc : UInt64) (byte : Nat) : UInt64 :=
  match of? offset width byte with
  | some span =>
    let part := span.contribution (Pattern.byteAt p span.shift &&& span.mask)
    Pattern.orByte acc part.1 part.2
  | none => acc

-- The bits that a byte has of the value are put back, and no others.
theorem testBit_carry {offset width : Nat} (hpos : 0 < width) (hle : width ≤ 64) (p acc : UInt64)
    (byte k : Nat) : (carry offset width p acc byte).toNat.testBit k =
      (acc.toNat.testBit k ||
        (decide (k < width ∧ (offset + k) / 8 = byte) && p.toNat.testBit k)) := by
  unfold carry
  by_cases hbyte : offset < 8 * byte + 8 ∧ 8 * byte < offset + width
  · have hspan := of?_eq_some hbyte.1 hbyte.2 hpos
    simp only [hspan]
    rw [Pattern.testBit_orByte, Bool.decide_and, Bool.and_assoc, testBit_contribution hspan]
    congr 1
    by_cases hk : k < width ∧ (offset + k) / 8 = byte
    · rw [testBit_byteAt_ownBits p offset width byte (by omega),
        show 8 * byte + (offset + k - 8 * byte) - offset = k by omega, decide_eq_true (by omega),
        decide_eq_true (by omega), decide_eq_true (by omega), decide_eq_true hk]
      rfl
    · have hout : ¬ (k < width ∧ 8 * byte ≤ offset + k ∧ offset + k < 8 * byte + 8) := by omega
      rw [decide_eq_false hout, decide_eq_false hk, Bool.false_and, Bool.and_false, Bool.false_and]
  · rw [of?_eq_none (by omega), decide_eq_false (by omega), Bool.false_and, Bool.or_false]

-- Parts are put back one after the other, in whatever order they come.
theorem testBit_foldl_carry {offset width : Nat} (hpos : 0 < width) (hle : width ≤ 64)
    (p acc : UInt64) (bytes : List Nat) (k : Nat) :
    (bytes.foldl (carry offset width p) acc).toNat.testBit k =
      (acc.toNat.testBit k ||
        (decide (k < width ∧ (offset + k) / 8 ∈ bytes) && p.toNat.testBit k)) := by
  induction bytes generalizing acc with
  | nil => simp
  | cons byte rest ih =>
    rw [List.foldl_cons, ih, testBit_carry hpos hle, Bool.or_assoc, ← Bool.and_or_distrib_right,
      ← Bool.decide_or]
    congr 3
    simp only [List.mem_cons, and_or_left]

/-- A value of one to sixty-four bits is split into parts, one for each byte that it reaches, which
have every bit of it once and nothing else.  What words find in any byte are these parts, and they
are moved without leaving words.  What encoding takes out for the parts, put back as decoding does
in any order of the bytes and as often as one likes, are the low bits of the pattern. -/
theorem parts_put_back {offset width : Nat} (hoffset : offset < 2 ^ 32) (hpos : 1 ≤ width)
    (hle : width ≤ 64) : Partitions offset width ∧ StaysInWords offset width ∧
      ∀ (p : UInt64) (bytes : List Nat),
        (∀ byte, byte ∈ bytes ↔ (of? offset width byte).isSome = true) →
          (bytes.foldl (carry offset width p) 0).toNat = p.toNat % 2 ^ width := by
  refine ⟨partitions offset hpos, staysInWords hoffset hle, fun p bytes hbytes => ?_⟩
  apply Nat.eq_of_testBit_eq
  intro k
  -- every bit of the value is in one of the bytes
  have hbit : k < width ∧ (offset + k) / 8 ∈ bytes ↔ k < width := by
    rw [hbytes, isSome_of?_iff hpos]
    omega
  rw [testBit_foldl_carry hpos hle, UInt64.toNat_zero, Nat.zero_testBit, Bool.false_or,
    Nat.testBit_mod_two_pow, decide_eq_decide.mpr hbit]

/-- A word that starts at bit 13 lies in nine bytes; here they are put back from the middle. -/
theorem parts_put_back_word : Partitions 13 64 ∧ StaysInWords 13 64 ∧
    ([5, 8, 1, 9, 3, 2, 6, 7, 4].foldl (carry 13 64 0xfedcba9876543210) 0).toNat =
      0xfedcba9876543210 := by
  obtain ⟨hparts, hwords, hback⟩ := @parts_put_back 13 64 (by decide) (by decide) (by decide)
  refine ⟨hparts, hwords, hback _ _ fun byte => ?_⟩
  rw [hparts.bytes]
  simp only [List.mem_cons, List.not_mem_nil, or_false]
  omega

end ByteSpan

end Bitwire
