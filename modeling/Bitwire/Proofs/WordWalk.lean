import Bitwire.Proofs.Pruning

/-!
# The walk stays within words

The visits of a byte are computed with words of 64 bits, and some of the numbers are then cut to 32.
Here every sum, product and difference on the way, and every cut, is checked.  In a sound format no
check ever fails, so the words hold the exact numbers.
-/

namespace Bitwire

/-! ## 1. Checked numbers -/

namespace Checked

/-- A number that fits in a word. -/
def word (n : Nat) : Option Nat :=
  if n < 2 ^ 64 then some n else none

/-- A number that fits in half a word. -/
def half (n : Nat) : Option Nat :=
  if n < 2 ^ 32 then some n else none

/-- A number that fits in a signed word. -/
def signed (n : Nat) : Option Int :=
  if n < 2 ^ 63 then some n else none

/-- A number that fits in half a signed word. -/
def signedHalf (v : Int) : Option Int :=
  if -2 ^ 31 ≤ v ∧ v < 2 ^ 31 then some v else none

/-- A difference that is not negative. -/
def difference (n k : Nat) : Option Nat :=
  if k ≤ n then some (n - k) else none

theorem word_eq {n : Nat} (h : n < 2 ^ 64) : word n = some n :=
  if_pos h

theorem half_eq {n : Nat} (h : n < 2 ^ 32) : half n = some n :=
  if_pos h

theorem difference_eq {n k : Nat} (h : k ≤ n) : difference n k = some (n - k) :=
  if_pos h

end Checked

open Checked

/-! ## 2. Checked visits -/

/-- The part of a value that falls into a byte, every number checked. -/
def ByteSpan.checked (offset width byte : Nat) : Option (Option ByteSpan) := do
  let lo ← word (8 * byte)
  let behind ← word (lo + 8)
  let after ← word (offset + width)
  let start := max offset lo
  let stop := min after behind
  if start < stop then
    let shift ← signedHalf ((← signed lo) - (← signed offset))
    let first ← half (← difference start lo)
    let count ← half (← difference stop start)
    return some ⟨shift, Pattern.byteMask first count⟩
  else return none

/-- The elements of an array that have a bit in a byte, every number checked. -/
def overlappingElementsChecked (width capacity offset byte : Nat) : Option (List Nat) :=
  if width = 0 then return []
  else do
    let lo ← word (8 * byte)
    let behind ← word (lo + 8)
    let after ← word (offset + (← word (width * capacity)))
    let start := max offset lo
    let stop := min after behind
    if start < stop then
      let front ← difference start offset
      let back ← difference (← difference stop 1) offset
      let count ← difference (← word (back / width + 1)) (front / width)
      return (List.range count).map (front / width + ·)
    else return []

/-- The visit of a value without parts, every number checked. -/
def Visit.ofLeafChecked (width : Nat) (place : Place) (offset byte : Nat) : Option (List Visit) := do
  match ← ByteSpan.checked offset width byte with
  | some span => return [.value place span]
  | none => return []

/-- How many fields end at or before a bit, the end of every field checked. -/
def MessageFormat.endedBeforeChecked (m : MessageFormat) (lo : Nat) : Option Nat := do
  let _ ← m.fields.toList.mapM fun f => word f.stop
  return m.endedBefore lo

mutual

/-- The visits that a value takes for a byte, every number checked. -/
def Format.visitsChecked : Format → (place : Place) → (offset byte : Nat) → Option (List Visit)
  | .array element capacity, place, offset, byte => do
    let indices ← overlappingElementsChecked element.width capacity offset byte
    let visits ← indices.mapM fun i => do
      let start ← word (offset + (← word (element.elementOffset i)))
      element.visitsChecked (place.element i) start byte
    return visits.flatten
  | .message ⟨name, ⟨fields⟩, totalBits⟩, place, offset, byte => do
    let m : MessageFormat := ⟨name, ⟨fields⟩, totalBits⟩
    let lo ← word (8 * byte)
    let skip ← m.endedBeforeChecked (lo - offset)
    return [.message place (← Format.fieldVisitsChecked fields skip offset byte)]
  | .bool, place, offset, byte => Visit.ofLeafChecked 1 place offset byte
  | .int bits, place, offset, byte => Visit.ofLeafChecked bits place offset byte
  | .uint bits, place, offset, byte => Visit.ofLeafChecked bits place offset byte
  | .enum e, place, offset, byte => Visit.ofLeafChecked e.bits place offset byte

/-- The visits that the fields of a message take for a byte, every number checked. -/
def Format.fieldVisitsChecked : List FieldFormat → (skip base byte : Nat) → Option (List Visit)
  | [], _, _, _ => return []
  | _ :: rest, skip + 1, base, byte => Format.fieldVisitsChecked rest skip base byte
  | ⟨number, _, offset, format⟩ :: rest, 0, base, byte => do
    let start ← word (base + offset)
    let behind ← word ((← word (8 * byte)) + 8)
    if behind ≤ start then return []
    else
      let visits ← format.visitsChecked ⟨number, []⟩ start byte
      return visits ++ (← Format.fieldVisitsChecked rest 0 base byte)

end

/-- The visits that a byte of an encoded message takes, every number checked. -/
def MessageFormat.visitsChecked (m : MessageFormat) (byte : Nat) : Option (List Visit) := do
  let lo ← word (8 * byte)
  Format.fieldVisitsChecked m.fields.toList (← m.endedBeforeChecked lo) 0 byte

/-! ## 3. No check fails -/

theorem ByteSpan.checked_eq {offset width byte : Nat} (hwidth : width ≤ 64)
    (hoffset : offset < 2 ^ 32) (hbyte : 8 * byte + 8 < 2 ^ 64) :
    ByteSpan.checked offset width byte = some (ByteSpan.of? offset width byte) := by
  simp only [ByteSpan.checked, ByteSpan.of?, word_eq (show 8 * byte < 2 ^ 64 by omega),
    word_eq (show 8 * byte + 8 < 2 ^ 64 by omega),
    word_eq (show offset + width < 2 ^ 64 by omega), Option.bind_eq_bind, Option.bind_some]
  split
  next hlt =>
    have hlo : signed (8 * byte) = some ((8 * byte : Nat) : Int) := if_pos (by omega)
    have hoffset : signed offset = some (offset : Int) := if_pos (by omega)
    -- the value and the byte have a bit in common, so they start within 64 bits of each other
    have hshift : signedHalf (((8 * byte : Nat) : Int) - (offset : Int)) =
        some (((8 * byte : Nat) : Int) - (offset : Int)) := by
      apply if_pos
      omega
    rw [hlo, hoffset, Option.bind_some, Option.bind_some, hshift, Option.bind_some,
      difference_eq (by omega), Option.bind_some, half_eq (by omega), Option.bind_some,
      difference_eq (by omega), Option.bind_some, half_eq (by omega), Option.bind_some]
    rfl
  next => rfl

theorem overlappingElementsChecked_eq {width capacity offset byte : Nat}
    (hstop : offset + width * capacity < 2 ^ 32) (hbyte : 8 * byte < 2 ^ 32) :
    overlappingElementsChecked width capacity offset byte =
      some (overlappingElements width capacity offset byte) := by
  unfold overlappingElementsChecked overlappingElements
  split
  next => rfl
  next hw =>
    simp only [word_eq (show 8 * byte < 2 ^ 64 by omega),
      word_eq (show 8 * byte + 8 < 2 ^ 64 by omega),
      word_eq (show width * capacity < 2 ^ 64 by omega),
      word_eq (show offset + width * capacity < 2 ^ 64 by omega), Option.bind_eq_bind,
      Option.bind_some]
    split
    next hlt =>
      have hback : (min (offset + width * capacity) (8 * byte + 8) - 1 - offset) / width ≤
        min (offset + width * capacity) (8 * byte + 8) - 1 - offset := Nat.div_le_self _ _
      have hle : (max offset (8 * byte) - offset) / width ≤
        (min (offset + width * capacity) (8 * byte + 8) - 1 - offset) / width :=
        Nat.div_le_div_right (by omega)
      rw [difference_eq (by omega), Option.bind_some, difference_eq (by omega), Option.bind_some,
        difference_eq (by omega), Option.bind_some, word_eq (by omega), Option.bind_some,
        difference_eq (by omega), Option.bind_some]
      rfl
    next => rfl

theorem mapM_eq_some {α β : Type} {l : List α} {f : α → Option β} {g : α → β}
    (h : ∀ a ∈ l, f a = some (g a)) : l.mapM f = some (l.map g) := by
  induction l with
  | nil => rfl
  | cons a rest ih =>
    obtain ⟨ha, hrest⟩ := List.forall_mem_cons.mp h
    rw [List.mapM_cons, ha, ih hrest]
    rfl

theorem MessageFormat.Sound.endedBeforeChecked_eq {m : MessageFormat} (h : m.Sound) (lo : Nat) :
    m.endedBeforeChecked lo = some (m.endedBefore lo) := by
  have hstops : m.fields.toList.mapM (fun f => word f.stop) =
      some (m.fields.toList.map PlacedField.stop) := by
    refine mapM_eq_some fun f hf => word_eq ?_
    have hstop := h.stop_le hf
    have hle := h.totalBits_le
    have hmax : Format.maxWidth < 2 ^ 64 := by decide
    omega
  rw [endedBeforeChecked, hstops]
  rfl

theorem Visit.ofLeafChecked_eq {offset width byte : Nat} (place : Place) (hwidth : width ≤ 64)
    (hstop : offset + width < 2 ^ 32) (hbyte : 8 * byte < 2 ^ 32) :
    ofLeafChecked width place offset byte = some (ofLeaf width place offset byte) := by
  rw [ofLeafChecked, ByteSpan.checked_eq hwidth (by omega) (by omega), ofLeaf]
  cases ByteSpan.of? offset width byte with
  | some span => rfl
  | none => rfl

namespace Format

-- Fields that end within the bounds of the message.
theorem fieldVisitsChecked_eq {fields : List FieldFormat} {base byte : Nat}
    (hbyte : 8 * byte < 2 ^ 32) (hstop : ∀ f ∈ fields, base + f.stop < 2 ^ 32)
    (h : ∀ f ∈ fields, base + f.offset + f.format.width < 2 ^ 32 →
      f.format.visitsChecked ⟨f.number, []⟩ (base + f.offset) byte =
        some (f.format.visits ⟨f.number, []⟩ (base + f.offset) byte)) (skip : Nat) :
    fieldVisitsChecked fields skip base byte = some (fieldVisits fields skip base byte) := by
  induction fields generalizing skip with
  | nil => rfl
  | cons f rest ih =>
    obtain ⟨hf, hrest⟩ := List.forall_mem_cons.mp h
    obtain ⟨hend, hstop⟩ := List.forall_mem_cons.mp hstop
    rw [PlacedField.stop, ← Nat.add_assoc] at hend
    cases skip with
    | succ skip => exact ih hstop hrest skip
    | zero =>
      rw [fieldVisitsChecked, fieldVisits]
      simp only [word_eq (show base + f.offset < 2 ^ 64 by omega),
        word_eq (show 8 * byte < 2 ^ 64 by omega), word_eq (show 8 * byte + 8 < 2 ^ 64 by omega),
        Option.bind_eq_bind, Option.bind_some]
      split
      next => rfl
      next =>
        rw [hf hend, ih hstop hrest 0]
        rfl

/-- No number on the way through a sound format leaves a word, as long as the format ends within the
largest message and the byte starts there. -/
theorem Sound.visitsChecked_eq {f : Format} (h : f.Sound) (place : Place) {offset byte : Nat}
    (hstop : offset + f.width < 2 ^ 32) (hbyte : 8 * byte < 2 ^ 32) :
    f.visitsChecked place offset byte = some (f.visits place offset byte) := by
  induction f using Format.induct generalizing place offset with
  | scalar f hs =>
    have hwidth := (h.scalar_width hs).2
    cases f with
    | bool | int | uint | enum => exact Visit.ofLeafChecked_eq place hwidth hstop hbyte
    | array | message => exact absurd hs Bool.false_ne_true
  | array element capacity ih =>
    rw [h.array_width] at hstop
    rw [visitsChecked, overlappingElementsChecked_eq hstop hbyte, visits]
    have hinner : ∀ i ∈ overlappingElements element.width capacity offset byte,
        (do
          let start ← word (offset + (← word (element.elementOffset i)))
          element.visitsChecked (place.element i) start byte) =
        some (element.visits (place.element i) (offset + element.elementOffset i) byte) := by
      intro i hi
      have hend := element_stop_le element.width (lt_of_mem_overlappingElements hi)
      have hlocal : element.elementOffset i = i * element.width := rfl
      rw [word_eq (by omega), Option.bind_eq_bind, Option.bind_some, word_eq (by omega),
        Option.bind_some]
      exact ih h.1 _ (by omega)
    rw [Option.bind_eq_bind, Option.bind_some, mapM_eq_some hinner, List.flatMap_def]
    rfl
  | message m ih =>
    have hm : m.Sound := h
    have hwidth : (Format.message m).width = m.totalBits := rfl
    have hstops : ∀ f ∈ m.fields.toList, offset + f.stop < 2 ^ 32 := fun f hf => by
      have hle := hm.stop_le hf
      omega
    have hfields := fieldVisitsChecked_eq hbyte hstops (fun f hf => ih f hf (hm.field hf) _)
      (m.endedBefore (8 * byte - offset))
    rw [visitsChecked, word_eq (by omega), Option.bind_eq_bind, Option.bind_some,
      hm.endedBeforeChecked_eq, Option.bind_some, hfields]
    rfl

end Format

/-- No number on the way through a sound message leaves a word. -/
theorem MessageFormat.Sound.visitsChecked_eq {m : MessageFormat} (h : m.Sound) {byte : Nat}
    (hbyte : byte < m.byteCount) : m.visitsChecked byte = some (m.visits byte) := by
  have hmax : Format.maxWidth < 2 ^ 32 := by decide
  have htotal := h.totalBits_le
  have hlo : 8 * byte < 2 ^ 32 := by
    rw [byteCount, Pattern.byteCount] at hbyte
    omega
  have hstops : ∀ f ∈ m.fields.toList, 0 + f.stop < 2 ^ 32 := fun f hf => by
    have hle := h.stop_le hf
    omega
  have hfields := Format.fieldVisitsChecked_eq hlo hstops
    (fun f hf hlt => (h.field hf).visitsChecked_eq _ hlt hlo) (m.endedBefore (8 * byte))
  rw [visitsChecked, word_eq (by omega), Option.bind_eq_bind, Option.bind_some,
    h.endedBeforeChecked_eq, Option.bind_some, hfields]
  rfl

end Bitwire
