import Bitwire.Proofs.DynamicWalk

/-!
# Bits on the wire

Every bit of an encoding belongs to at most one leaf and is a bit of its pattern; bits that belong
to none are zero.  Decoding into a zero message takes every leaf back out of the bits it occupies.
-/

namespace Bitwire

/-- Stream bit `i`: bit `i % 8` of byte `i / 8`.  Behind the bytes every bit is zero. -/
def streamBit (bytes : List UInt8) (i : Nat) : Bool :=
  (bytes.getD (i / 8) 0).toNat.testBit (i % 8)

/-! ## 1. Streams -/

theorem streamBit_of_le {bytes : List UInt8} {i : Nat} (h : 8 * bytes.length ≤ i) :
    streamBit bytes i = false := by
  rw [streamBit, List.getD_eq_default _ _ (by omega), UInt8.toNat_zero, Nat.zero_testBit]

-- Bit `j` of byte `i` is stream bit `8 i + j`.
theorem testBit_getElem {bytes : List UInt8} {i j : Nat} (hi : i < bytes.length) (hj : j < 8) :
    bytes[i].toNat.testBit j = streamBit bytes (8 * i + j) := by
  have hdiv : (8 * i + j) / 8 = i := by omega
  have hmod : (8 * i + j) % 8 = j := by omega
  rw [streamBit, hdiv, hmod, List.getD_eq_getElem _ _ hi]

-- Streams of one length are equal if all their bits are.
theorem streamBit_ext {xs ys : List UInt8} (hlen : xs.length = ys.length)
    (h : ∀ i < 8 * xs.length, streamBit xs i = streamBit ys i) : xs = ys := by
  apply List.ext_getElem hlen
  intro i hx hy
  apply uint8_ext
  intro j hj
  rw [testBit_getElem hx hj, testBit_getElem hy hj]
  exact h _ (by omega)

theorem streamBit_map_range (n : Nat) (g : Nat → UInt8) (i : Nat) :
    streamBit ((List.range n).map g) i =
      (decide (i < 8 * n) && (g (i / 8)).toNat.testBit (i % 8)) := by
  by_cases hi : i < 8 * n
  · have hlt : i / 8 < ((List.range n).map g).length := by
      rw [List.length_map, List.length_range]
      omega
    rw [streamBit, List.getD_eq_getElem _ _ hlt, List.getElem_map, List.getElem_range,
      decide_eq_true hi, Bool.true_and]
  · rw [streamBit_of_le (by rw [List.length_map, List.length_range]; omega), decide_eq_false hi,
      Bool.false_and]

-- The bits of a stream without its first byte.
theorem streamBit_cons_add (b : UInt8) (bytes : List UInt8) (i : Nat) :
    streamBit (b :: bytes) (8 + i) = streamBit bytes i := by
  have hdiv : (8 + i) / 8 = i / 8 + 1 := by omega
  have hmod : (8 + i) % 8 = i % 8 := by omega
  rw [streamBit, hdiv, hmod, List.getD_cons_succ]
  rfl

theorem streamBit_cons_of_lt (b : UInt8) (bytes : List UInt8) {i : Nat} (h : i < 8) :
    streamBit (b :: bytes) i = b.toNat.testBit i := by
  rw [streamBit, Nat.div_eq_of_lt h, Nat.mod_eq_of_lt h, List.getD_cons_zero]

/-- The `width` stream bits from bit `offset` on, as a pattern. -/
def streamBits (bytes : List UInt8) (offset width : Nat) : UInt64 :=
  UInt64.ofNat (Nat.ofBits fun k : Fin width => streamBit bytes (offset + k))

theorem testBit_streamBits (bytes : List UInt8) (offset : Nat) {width : Nat} (h : width ≤ 64)
    (k : Nat) : (streamBits bytes offset width).toNat.testBit k =
      (decide (k < width) && streamBit bytes (offset + k)) := by
  have hlt : Nat.ofBits (fun k : Fin width => streamBit bytes (offset + k)) < 2 ^ 64 :=
    (Nat.ofBits_lt_two_pow _).trans_le (Nat.pow_le_pow_right (by decide) h)
  rw [streamBits, UInt64.toNat_ofNat', Nat.mod_eq_of_lt hlt]
  by_cases hk : k < width
  · rw [Nat.testBit_ofBits_lt _ _ hk, decide_eq_true hk, Bool.true_and]
  · rw [Nat.testBit_ofBits_ge _ _ (Nat.le_of_not_lt hk), decide_eq_false hk, Bool.false_and]

-- What is read of a stream depends on no other bit of it.
theorem streamBits_congr {xs ys : List UInt8} {offset width : Nat}
    (h : ∀ k < width, streamBit xs (offset + k) = streamBit ys (offset + k)) :
    streamBits xs offset width = streamBits ys offset width := by
  rw [streamBits, streamBits]
  congr 2
  exact funext fun k => h k k.isLt

/-! ## 2. Leaves that do not overlap -/

namespace Format

-- Each leaf ends before the next one starts.
theorem Sound.leaves_pairwise {f : Format} (h : f.Sound) (place : Place) (offset : Nat) :
    (f.leaves place offset).Pairwise fun a b => a.offset + a.width ≤ b.offset := by
  induction f using Format.induct generalizing place offset with
  | scalar f hs =>
    rw [leaves_scalar hs]
    exact List.pairwise_singleton _ _
  | array element capacity ih =>
    rw [leaves, List.pairwise_flatMap]
    refine ⟨fun i _ => ih h.1 _ _, List.pairwise_lt_range.imp fun {i j} hij a ha b hb => ?_⟩
    obtain ⟨-, hend, -⟩ := h.1.leaf_bounds ha
    obtain ⟨hstart, -⟩ := h.1.leaf_bounds hb
    -- a later element starts behind the end of an earlier one
    have hmul : element.elementOffset i + element.width ≤ element.elementOffset j := by
      calc element.elementOffset i + element.width = (i + 1) * element.width := by
            rw [elementOffset]; ring
        _ ≤ j * element.width := Nat.mul_le_mul_right _ hij
    omega
  | message m ih =>
    rw [leaves_message, List.pairwise_map, List.pairwise_flatMap]
    refine ⟨fun f hf => ih f hf (MessageFormat.Sound.field h hf) _ _, ?_⟩
    have hd := MessageFormat.Sound.disjoint h
    refine (List.pairwise_iff_forall_sublist.mpr fun {f g} hsub a ha b hb => ?_)
    have hf : f ∈ m.fields.toList := hsub.subset List.mem_cons_self
    have hg : g ∈ m.fields.toList := hsub.subset (List.mem_cons_of_mem _ List.mem_cons_self)
    -- and so does a later field
    have hfg : f.offset + f.format.width ≤ g.offset := List.pairwise_iff_forall_sublist.mp hd hsub
    obtain ⟨-, hend, -⟩ := (MessageFormat.Sound.field h hf).leaf_bounds ha
    obtain ⟨hstart, -⟩ := (MessageFormat.Sound.field h hg).leaf_bounds hb
    change a.offset + a.width ≤ b.offset
    omega

end Format

namespace DynamicMessage

variable {msg : DynamicMessage} (hfit : msg.Fits)

include hfit

theorem Fits.stored_pairwise (h : msg.format.Sound) :
    msg.stored.Pairwise fun a b => a.offset + a.width ≤ b.offset := by
  have hleaves := Format.Sound.leaves_pairwise h default 0
  have hmap := hfit.map_stored default 0
  have hpairs : ((Format.message msg.format).leaves default 0 |>.map fun l =>
      (l.format, l.offset)).Pairwise fun a b => a.2 + a.1.width ≤ b.2 :=
    List.pairwise_map.mpr hleaves
  rw [← hmap] at hpairs
  exact List.pairwise_map.mp hpairs

-- A stored leaf stands where a leaf of the format stands.
theorem Fits.exists_leaf {l : StoredLeaf} (hl : l ∈ msg.stored) :
    ∃ l' ∈ (Format.message msg.format).leaves default 0,
      l'.format = l.format ∧ l'.offset = l.offset := by
  have hmem : (l.format, l.offset) ∈ msg.stored.map fun l => (l.format, l.offset) :=
    List.mem_map_of_mem hl
  rw [stored, Format.Fits.map_stored hfit default 0] at hmem
  obtain ⟨l', hl', he⟩ := List.mem_map.mp hmem
  exact ⟨l', hl', congrArg Prod.fst he, congrArg Prod.snd he⟩

theorem Fits.exists_stored {l' : Leaf} (hl : l' ∈ (Format.message msg.format).leaves default 0) :
    ∃ l ∈ msg.stored, l.format = l'.format ∧ l.offset = l'.offset := by
  have hmem : (l'.format, l'.offset) ∈ ((Format.message msg.format).leaves default 0).map
      fun l => (l.format, l.offset) := List.mem_map_of_mem hl
  rw [← Format.Fits.map_stored hfit default 0] at hmem
  obtain ⟨l, hl, he⟩ := List.mem_map.mp hmem
  exact ⟨l, hl, congrArg Prod.fst he, congrArg Prod.snd he⟩

theorem Fits.stored_bounds (h : msg.format.Sound) {l : StoredLeaf} (hl : l ∈ msg.stored) :
    l.offset + l.width ≤ msg.format.totalBits ∧ 1 ≤ l.width ∧ l.width ≤ 64 ∧
      l.format.isScalar = true := by
  obtain ⟨l', hl', hf, ho⟩ := hfit.exists_leaf hl
  obtain ⟨-, hend, hpos, hle, hs⟩ := Format.Sound.leaf_bounds h hl'
  have hw : l'.width = l.width := congrArg Format.width hf
  rw [hf] at hs
  have htotal : (Format.message msg.format).width = msg.format.totalBits := rfl
  exact ⟨by omega, by omega, by omega, hs⟩

-- As many bytes as an encoding has cover every leaf.
theorem Fits.stored_covered (h : msg.format.Sound) {l : StoredLeaf} (hl : l ∈ msg.stored)
    {data : List UInt8} (hlen : msg.format.byteCount ≤ data.length) :
    l.offset + l.width ≤ 8 * data.length := by
  obtain ⟨hend, -⟩ := hfit.stored_bounds h hl
  have hcount : msg.format.byteCount = (msg.format.totalBits + 7) / 8 := rfl
  omega

theorem Fits.stored_sound (h : msg.format.Sound) {l : StoredLeaf} (hl : l ∈ msg.stored) :
    l.format.Sound := by
  obtain ⟨l', hl', hf, -⟩ := hfit.exists_leaf hl
  rw [← hf]
  exact Format.Sound.leaf_sound h hl'

end DynamicMessage

/-! ## 3. Encoding -/

theorem testBit_orAll (bytes : List UInt8) (i : Nat) :
    (orAll bytes).toNat.testBit i = bytes.any fun b => b.toNat.testBit i := by
  induction bytes with
  | nil => exact Nat.zero_testBit i
  | cons b rest ih =>
    change (b ||| orAll rest).toNat.testBit i = _
    rw [UInt8.toNat_or, Nat.testBit_or, ih, List.any_cons]

/-- The bit that a leaf puts at a position of the stream; none outside its own bits. -/
def StoredLeaf.bitAt (i : Nat) (l : StoredLeaf) : Bool :=
  decide (l.offset ≤ i ∧ i < l.offset + l.width) && l.pattern.toNat.testBit (i - l.offset)

theorem StoredLeaf.testBit_contribution (byte : Nat) (l : StoredLeaf) {j : Nat} (hj : j < 8) :
    (l.contribution byte).toNat.testBit j = l.bitAt (8 * byte + j) :=
  testBit_byteAt_ownBits l.pattern l.offset l.width byte hj

namespace DynamicMessage

/-- The encoding of a message. -/
def wire (msg : DynamicMessage) : List UInt8 :=
  (msg.format.encodeBytes accessor msg).run

section

variable {msg : DynamicMessage} (h : msg.format.Sound) (hfit : msg.Fits)

include h hfit

theorem length_wire : msg.wire.length = msg.format.byteCount := by
  rw [wire, encodeBytes_run h hfit, List.length_map, List.length_range]

-- A bit of an encoding is the bit that some leaf puts there.
theorem streamBit_wire (i : Nat) : streamBit msg.wire i = msg.stored.any (StoredLeaf.bitAt i) := by
  rw [wire, encodeBytes_run h hfit, streamBit_map_range]
  by_cases hi : i < 8 * msg.format.byteCount
  · rw [decide_eq_true hi, Bool.true_and, testBit_orAll, List.any_map]
    congr 1
    funext l
    rw [Function.comp_apply, l.testBit_contribution _ (by omega), Nat.div_add_mod]
  · rw [decide_eq_false hi, Bool.false_and]
    symm
    rw [List.any_eq_false]
    intro l hl hbit
    -- every leaf ends before the last byte does
    obtain ⟨hend, -⟩ := hfit.stored_bounds h hl
    have hcovered := of_decide_eq_true (Bool.and_eq_true_iff.mp hbit).1
    have hcount : msg.format.byteCount = (msg.format.totalBits + 7) / 8 := rfl
    omega

/-- Inside a leaf the bits of an encoding are those of the leaf's pattern. -/
theorem streamBit_wire_leaf {l : StoredLeaf} (hl : l ∈ msg.stored) {k : Nat} (hk : k < l.width) :
    streamBit msg.wire (l.offset + k) = l.pattern.toNat.testBit k := by
  have hown : l.bitAt (l.offset + k) = l.pattern.toNat.testBit k := by
    rw [StoredLeaf.bitAt, decide_eq_true (by omega), Bool.true_and, Nat.add_sub_cancel_left]
  rw [streamBit_wire h hfit, ← hown]
  cases hbit : l.bitAt (l.offset + k) with
  | true => exact List.any_eq_true.mpr ⟨l, hl, hbit⟩
  | false =>
    rw [List.any_eq_false]
    intro l' hl' hbit'
    -- a leaf that covers the same bit is this one
    have hcovered := of_decide_eq_true (Bool.and_eq_true_iff.mp hbit').1
    obtain ⟨a, ha, rfl⟩ := List.getElem_of_mem hl
    obtain ⟨b, hb, rfl⟩ := List.getElem_of_mem hl'
    have hpairs := List.pairwise_iff_getElem.mp (hfit.stored_pairwise h)
    rcases Nat.lt_trichotomy a b with hab | rfl | hab
    · have := hpairs a b ha hb hab
      omega
    · exact Bool.false_ne_true (hbit.symm.trans hbit')
    · have := hpairs b a hb ha hab
      omega

-- Behind the last leaf every bit of an encoding is zero.
theorem streamBit_wire_padding {i : Nat} (hi : msg.format.totalBits ≤ i) :
    streamBit msg.wire i = false := by
  rw [streamBit_wire h hfit, List.any_eq_false]
  intro l hl hbit
  obtain ⟨hend, -⟩ := hfit.stored_bounds h hl
  have hcovered := of_decide_eq_true (Bool.and_eq_true_iff.mp hbit).1
  omega

end

/-! ## 4. Decoding -/

-- A boolean becomes the bit that a byte holds of it.
theorem testBit_addByte_bool (p : UInt64) (shift : Nat) {b : UInt8}
    (hone : ∀ k, 1 ≤ k → b.toNat.testBit k = false) (k : Nat) :
    (addByte .bool p shift b).toNat.testBit k = b.toNat.testBit k := by
  rw [addByte]
  split
  next hzero => rw [hzero]; rfl
  next hne =>
    -- the byte is not zero and has no other bit than the lowest
    have hfirst : b.toNat.testBit 0 = true := by
      by_contra hfalse
      apply hne
      apply uint8_ext
      intro j _
      rw [UInt8.toNat_zero, Nat.zero_testBit]
      cases j with
      | zero => exact Bool.not_eq_true _ ▸ hfalse
      | succ j => exact hone _ (by omega)
    cases k with
    | zero => exact hfirst.symm
    | succ k =>
      rw [hone _ (by omega)]
      exact Nat.testBit_lt_two_pow (Nat.lt_of_lt_of_le (by decide) (Nat.pow_le_pow_right
        (by decide) (by omega : 1 ≤ k + 1)))

theorem testBit_addByte {f : Format} (hs : f.isScalar = true) (hf : f ≠ .bool) (p : UInt64)
    (shift : Nat) (b : UInt8) (k : Nat) : (addByte f p shift b).toNat.testBit k =
      (decide (k < f.width) && (p.toNat.testBit k ||
        (decide (k < 64 ∧ shift ≤ k) && b.toNat.testBit (k - shift)))) := by
  cases f with
  | bool => exact absurd rfl hf
  | int | uint | enum =>
    rw [addByte, Pattern.testBit_truncate, Pattern.testBit_orByte]
    intro hbool
    cases hbool
  | array | message => exact absurd hs Bool.false_ne_true

-- A byte adds to an integer or an enum the bits that it holds of the leaf.
theorem testBit_absorb {f : Format} (h : f.Sound) (hs : f.isScalar = true) (hf : f ≠ .bool)
    (byte : Nat) (input : UInt8) {offset : Nat} {p : UInt64} (hp : p.toNat < 2 ^ f.width) (k : Nat) :
    (absorb byte input f offset p).toNat.testBit k =
      (p.toNat.testBit k || (decide (k < f.width ∧ 8 * byte ≤ offset + k ∧
        offset + k < 8 * byte + 8) && input.toNat.testBit (offset + k - 8 * byte))) := by
  obtain ⟨hpos, hle⟩ := h.scalar_width hs
  have hhigh : ∀ k, f.width ≤ k → p.toNat.testBit k = false := fun k hk =>
    Nat.testBit_lt_two_pow (Nat.lt_of_lt_of_le hp (Nat.pow_le_pow_right (by decide) hk))
  rw [absorb]
  cases hspan : ByteSpan.of? offset f.width byte with
  | none =>
    -- the byte has no bit of the leaf
    have hout : ¬ (k < f.width ∧ 8 * byte ≤ offset + k ∧ offset + k < 8 * byte + 8) := by
      intro hin
      rw [ByteSpan.of?_eq_some (by omega) (by omega) hpos] at hspan
      exact absurd hspan (by simp)
    rw [decide_eq_false hout, Bool.false_and, Bool.or_false]
  | some span =>
    have hbits := ByteSpan.testBit_contribution hspan input
    change (addByte f p _ _).toNat.testBit k = _
    rw [testBit_addByte hs hf]
    by_cases hk : k < f.width
    · have h64 : k < 64 ∧ (span.contribution input).1 ≤ k ↔ (span.contribution input).1 ≤ k := by
        omega
      rw [decide_eq_true hk, Bool.true_and, decide_eq_decide.mpr h64, hbits]
    · rw [decide_eq_false hk, Bool.false_and, hhigh k (by omega), decide_eq_false (by omega),
        Bool.false_and, Bool.or_false]

-- Bytes add to an integer or an enum the bits that they hold of the leaf.
theorem testBit_absorbAll {f : Format} (h : f.Sound) (hs : f.isScalar = true) (hf : f ≠ .bool)
    (data : List UInt8) (byte : Nat) {offset : Nat} {p : UInt64} (hp : p.toNat < 2 ^ f.width)
    (k : Nat) : (absorbAll byte data f offset p).toNat.testBit k =
      (p.toNat.testBit k || (decide (k < f.width ∧ 8 * byte ≤ offset + k) &&
        streamBit data (offset + k - 8 * byte))) := by
  induction data generalizing byte p with
  | nil => rw [absorbAll, streamBit_of_le (Nat.zero_le _), Bool.and_false, Bool.or_false]
  | cons input rest ih =>
    rw [absorbAll, ih (byte + 1) (absorb_lt hs byte input offset hp),
      testBit_absorb h hs hf byte input hp, Bool.or_assoc]
    congr 1
    -- bit `k` of the leaf lies in this byte or in one of the others
    by_cases hin : 8 * byte ≤ offset + k ∧ offset + k < 8 * byte + 8
    · have hrest : ¬ (k < f.width ∧ 8 * (byte + 1) ≤ offset + k) := by omega
      rw [streamBit_cons_of_lt _ _ (by omega), decide_eq_false hrest, Bool.false_and,
        Bool.or_false]
      congr 1
      exact decide_eq_decide.mpr (by omega)
    · have hfirst : ¬ (k < f.width ∧ 8 * byte ≤ offset + k ∧ offset + k < 8 * byte + 8) := by omega
      rw [decide_eq_false hfirst, Bool.false_and, Bool.false_or]
      by_cases hk : k < f.width ∧ 8 * byte + 8 ≤ offset + k
      · rw [decide_eq_true (by omega), decide_eq_true (by omega),
          show offset + k - 8 * byte = 8 + (offset + k - 8 * (byte + 1)) by omega, streamBit_cons_add]
      · rw [decide_eq_false (by omega), decide_eq_false (by omega), Bool.false_and, Bool.false_and]

-- A byte that does not have the bit of a boolean leaves it alone.
theorem absorb_bool_of_out {byte offset : Nat} (h : offset < 8 * byte ∨ 8 * byte + 8 ≤ offset)
    (input : UInt8) (p : UInt64) : absorb byte input .bool offset p = p := by
  have hspan : ByteSpan.of? offset (Format.width .bool) byte = none :=
    ByteSpan.of?_eq_none (h.imp_left Nat.succ_le_of_lt)
  rw [absorb, hspan]

-- A byte that has the bit of a boolean sets the boolean to it, whatever it was.
theorem testBit_absorb_bool {byte offset : Nat} (hlo : 8 * byte ≤ offset)
    (hhi : offset < 8 * byte + 8) (input : UInt8) (p : UInt64) (k : Nat) :
    (absorb byte input .bool offset p).toNat.testBit k =
      (decide (k < 1) && input.toNat.testBit (offset + k - 8 * byte)) := by
  obtain ⟨span, hspan⟩ : ∃ span, ByteSpan.of? offset (Format.width .bool) byte = some span :=
    ⟨_, ByteSpan.of?_eq_some hhi (Nat.lt_succ_of_le hlo) Nat.one_pos⟩
  have hbit : ∀ k, (span.contribution input).2.toNat.testBit k =
      (decide (k < 1) && input.toNat.testBit (offset + k - 8 * byte)) := by
    intro k
    have hbits := ByteSpan.testBit_contribution hspan input k
    rw [ByteSpan.contribution_fst hspan, Nat.sub_eq_zero_of_le hlo, decide_eq_true (Nat.zero_le k),
      Bool.true_and, Nat.sub_zero, Format.width] at hbits
    rw [hbits]
    congr 1
    exact decide_eq_decide.mpr (by omega)
  rw [absorb, hspan]
  change (addByte .bool p _ _).toNat.testBit k = _
  rw [testBit_addByte_bool _ _ (fun k hk => ?_), hbit]
  rw [hbit, decide_eq_false (by omega), Bool.false_and]

-- Bytes behind the bit of a boolean leave it alone.
theorem absorbAll_bool_of_lt (data : List UInt8) {byte offset : Nat} (h : offset < 8 * byte)
    (p : UInt64) : absorbAll byte data .bool offset p = p := by
  induction data generalizing byte with
  | nil => rfl
  | cons input rest ih => rw [absorbAll, absorb_bool_of_out (.inl h), ih (by omega)]

-- A boolean becomes its bit in the stream, if the stream has it.
theorem testBit_absorbAll_bool {data : List UInt8} {byte offset : Nat} (hlo : 8 * byte ≤ offset)
    (hhi : offset < 8 * (byte + data.length)) (p : UInt64) (k : Nat) :
    (absorbAll byte data .bool offset p).toNat.testBit k =
      (decide (k < 1) && streamBit data (offset + k - 8 * byte)) := by
  induction data generalizing byte p with
  | nil => exact absurd hhi (Nat.not_lt.mpr hlo)
  | cons input rest ih =>
    rw [absorbAll]
    rw [List.length_cons] at hhi
    by_cases hin : offset < 8 * byte + 8
    · -- the bit is in this byte, and no later byte changes it
      rw [absorbAll_bool_of_lt rest (by omega), testBit_absorb_bool hlo hin]
      by_cases hk : k < 1
      · rw [streamBit_cons_of_lt _ _ (by omega)]
      · rw [decide_eq_false hk, Bool.false_and, Bool.false_and]
    · rw [absorb_bool_of_out (.inr (by omega)), ih (by omega) (by omega),
        show offset + k - 8 * byte = 8 + (offset + k - 8 * (byte + 1)) by omega, streamBit_cons_add]

/-- What becomes of the pattern of a leaf when a stream is decoded that has all bits of the leaf:
an integer or an enum takes them in addition to those that it has, a boolean takes its bit. -/
def deposit (data : List UInt8) (f : Format) (offset : Nat) (p : UInt64) : UInt64 :=
  match f with
  | .bool => streamBits data offset 1
  | f => p ||| streamBits data offset f.width

theorem deposit_of_ne {f : Format} (h : f ≠ .bool) (data : List UInt8) (offset : Nat) (p : UInt64) :
    deposit data f offset p = p ||| streamBits data offset f.width := by
  cases f <;> first | rfl | exact absurd rfl h

theorem absorbAll_eq_deposit {f : Format} (h : f.Sound) (hs : f.isScalar = true)
    {data : List UInt8} {offset : Nat} (hcover : offset + f.width ≤ 8 * data.length) {p : UInt64}
    (hp : p.toNat < 2 ^ f.width) : absorbAll 0 data f offset p = deposit data f offset p := by
  have hle := (h.scalar_width hs).2
  apply uint64_ext
  intro k
  by_cases hf : f = .bool
  · subst hf
    have hcover : offset + 1 ≤ 8 * data.length := hcover
    rw [testBit_absorbAll_bool (Nat.zero_le _) (by omega), deposit,
      testBit_streamBits _ _ (by decide), Nat.mul_zero, Nat.sub_zero]
  · rw [testBit_absorbAll h hs hf data 0 hp, deposit_of_ne hf, UInt64.toNat_or, Nat.testBit_or,
      testBit_streamBits _ _ hle, Nat.mul_zero, Nat.sub_zero]
    congr 2
    exact decide_eq_decide.mpr (by omega)

-- A leaf that was zero is made of the bits that it occupies in the stream.
theorem testBit_absorbAll_zero {f : Format} (h : f.Sound) (hs : f.isScalar = true)
    {data : List UInt8} {offset : Nat} (hcover : offset + f.width ≤ 8 * data.length) (k : Nat) :
    (absorbAll 0 data f offset 0).toNat.testBit k =
      (decide (k < f.width) && streamBit data (offset + k)) := by
  rw [absorbAll_eq_deposit h hs hcover (Nat.two_pow_pos _),
    ← testBit_streamBits _ _ (h.scalar_width hs).2]
  by_cases hf : f = .bool
  · rw [hf]
    rfl
  · rw [deposit_of_ne hf, UInt64.zero_or]

/-- Decoding the encoding of a message gives the message back. -/
theorem mapLeaves_wire {msg : DynamicMessage} (h : msg.format.Sound) (hfit : msg.Fits) :
    (blank msg.format).mapLeaves (absorbAll 0 msg.wire) = msg := by
  refine hfit.mapLeaves_blank fun l hl => ?_
  obtain ⟨-, -, -, hs⟩ := hfit.stored_bounds h hl
  apply uint64_ext
  intro k
  rw [testBit_absorbAll_zero (hfit.stored_sound h hl) hs
    (hfit.stored_covered h hl (length_wire h hfit).ge), show l.format.width = l.width from rfl]
  by_cases hk : k < l.width
  · rw [decide_eq_true hk, Bool.true_and, streamBit_wire_leaf h hfit hl hk]
  · have hlt : l.pattern.toNat < 2 ^ k := Nat.lt_of_lt_of_le (Format.Fits.pattern_lt hfit hl)
      (Nat.pow_le_pow_right (by decide) (by omega))
    rw [decide_eq_false hk, Bool.false_and, Nat.testBit_lt_two_pow hlt]

end DynamicMessage

/-! ## 5. Bits that belong to no leaf -/

namespace Format

-- Fields that follow each other cover all bits between the first and the last.
theorem exists_field_covering {fields : List FieldFormat}
    (h : fields.IsChain fun f g => f.stop = g.offset) {i : Nat}
    (hfirst : ∀ f ∈ fields.head?, f.offset ≤ i)
    (hlast : i < (fields.getLast?.map PlacedField.stop).getD 0) :
    ∃ f ∈ fields, f.offset ≤ i ∧ i < f.stop := by
  induction fields with
  | nil => exact absurd hlast (Nat.not_lt_zero i)
  | cons f rest ih =>
    have hf : f.offset ≤ i := hfirst f rfl
    by_cases hi : i < f.stop
    · exact ⟨f, List.mem_cons_self, hf, hi⟩
    · cases rest with
      | nil => exact absurd hlast hi
      | cons g rest =>
        obtain ⟨hfg, hrest⟩ := List.isChain_cons_cons.mp h
        obtain ⟨f', hf', hcovers⟩ := ih hrest
          (fun g' hg' => by rw [← Option.some.inj hg', ← hfg]; exact Nat.le_of_not_lt hi)
          (by rwa [List.getLast?_cons_cons] at hlast)
        exact ⟨f', List.mem_cons_of_mem _ hf', hcovers⟩

-- Every bit of a value belongs to one of its leaves.
theorem Sound.exists_leaf_covering {f : Format} (h : f.Sound) (hp : f.Proper) (place : Place)
    (offset : Nat) {i : Nat} (hlo : offset ≤ i) (hhi : i < offset + f.width) :
    ∃ l ∈ f.leaves place offset, l.offset ≤ i ∧ i < l.offset + l.width := by
  induction f using Format.induct generalizing place offset with
  | scalar f hs =>
    rw [leaves_scalar hs]
    exact ⟨_, List.mem_singleton_self _, hlo, hhi⟩
  | array element capacity ih =>
    rw [h.array_width] at hhi
    have hpos : 0 < element.width := by
      by_contra hzero
      rw [Nat.eq_zero_of_not_pos hzero, Nat.zero_mul] at hhi
      omega
    -- the element that has the bit is found by division
    have hindex : (i - offset) / element.width < capacity :=
      Nat.div_lt_of_lt_mul (by omega)
    have hmod := Nat.div_add_mod (i - offset) element.width
    have hrem := Nat.mod_lt (i - offset) hpos
    have helement : element.elementOffset ((i - offset) / element.width) =
        element.width * ((i - offset) / element.width) := Nat.mul_comm _ _
    obtain ⟨l, hl, hcovers⟩ := ih h.1 hp (place.element ((i - offset) / element.width))
      (offset + element.elementOffset ((i - offset) / element.width))
      (by omega) (by omega)
    exact ⟨l, mem_leaves_array.mpr ⟨_, hindex, hl⟩, hcovers⟩
  | message m ih =>
    have hm : MessageFormat.Sound m := h
    have hproper : MessageFormat.Proper m := hp
    have hfirst : ∀ f ∈ m.fields.toList.head?, f.offset ≤ i - offset := fun f hf => by
      rw [hproper.first f hf]
      exact Nat.zero_le _
    have hwidth : (Format.message m).width = m.totalBits := rfl
    obtain ⟨f, hf, hstart, hstop⟩ := exists_field_covering hm.2.2.1 hfirst
      (by rw [← MessageFormat.Sound.totalBits_eq hm]; omega)
    have hend : f.stop = f.offset + f.format.width := rfl
    obtain ⟨l, hl, hcovers⟩ := ih f hf (hm.field hf) (hproper.field hf)
      ⟨f.number, []⟩ (offset + f.offset) (by omega) (by omega)
    exact ⟨l.inside place, mem_leaves_message.mpr ⟨f, hf, l, hl, rfl⟩, hcovers⟩

end Format

/-- A stream with every bit from `count` on cleared. -/
def clearFrom (count : Nat) (bytes : List UInt8) : List UInt8 :=
  bytes.mapIdx fun i b => b &&& ownBits 0 count i

theorem length_clearFrom (count : Nat) (bytes : List UInt8) :
    (clearFrom count bytes).length = bytes.length :=
  List.length_mapIdx

theorem streamBit_clearFrom (count : Nat) (bytes : List UInt8) (i : Nat) :
    streamBit (clearFrom count bytes) i = (decide (i < count) && streamBit bytes i) := by
  have hlen := length_clearFrom count bytes
  by_cases hi : i < 8 * bytes.length
  · have hlt : i / 8 < bytes.length := by omega
    have hpos : 8 * (i / 8) + i % 8 = i := Nat.div_add_mod i 8
    rw [← hpos, ← testBit_getElem (by omega) (by omega), ← testBit_getElem hlt (by omega)]
    simp only [clearFrom, List.getElem_mapIdx]
    rw [UInt8.toNat_and, Nat.testBit_and, testBit_ownBits _ _ _ (by omega), Bool.and_comm]
    congr 1
    exact decide_eq_decide.mpr (by omega)
  · rw [streamBit_of_le (by omega), streamBit_of_le (by omega), Bool.and_false]

namespace DynamicMessage

/-- Encoding a decoded message gives its bytes back, the padding cleared. -/
theorem wire_mapLeaves {m : MessageFormat} (h : m.Sound) (hp : m.Proper)
    {data : List UInt8} (hlen : data.length = m.byteCount) :
    ((blank m).mapLeaves (absorbAll 0 data)).wire = clearFrom m.totalBits data := by
  have hzero : (blank m).Fits := fits_blank m
  have hfit := hzero.mapLeaves_absorbAll data 0
  have hwire : ((blank m).mapLeaves (absorbAll 0 data)).wire.length = data.length :=
    (length_wire h hfit).trans hlen.symm
  apply streamBit_ext (hwire.trans (length_clearFrom _ _).symm)
  intro i _
  rw [streamBit_clearFrom]
  by_cases hi : i < m.totalBits
  · -- the leaf that covers the bit was made of it
    obtain ⟨l', hl', hlo, hhi⟩ := Format.Sound.exists_leaf_covering h hp default 0 (Nat.zero_le i)
      (by rw [Nat.zero_add]; exact hi)
    obtain ⟨l, hl, hf, ho⟩ := hzero.exists_stored hl'
    have hw : l.width = l'.width := congrArg Format.width hf
    have hnow := List.mem_map_of_mem (f := fun l : StoredLeaf =>
      { l with pattern := absorbAll 0 data l.format l.offset l.pattern }) hl
    rw [← hzero.stored_mapLeaves] at hnow
    have hbit := streamBit_wire_leaf h hfit hnow (k := i - l.offset)
      (by change i - l.offset < l.width; omega)
    have hpos : l.offset + (i - l.offset) = i := by omega
    obtain ⟨-, -, -, hs⟩ := hzero.stored_bounds h hl
    have hsound : l.format.Sound := hzero.stored_sound h hl
    rw [Format.pattern_blank hl, hpos,
      testBit_absorbAll_zero hsound hs (hzero.stored_covered h hl hlen.ge), hpos] at hbit
    rw [hbit]
    congr 1
    exact decide_eq_decide.mpr ⟨fun _ => hi, fun _ => by change i - l.offset < l.width; omega⟩
  · rw [decide_eq_false hi, Bool.false_and]
    exact streamBit_wire_padding h hfit (Nat.le_of_not_lt hi)

end DynamicMessage

end Bitwire
