import Bitwire.Proofs.Makers

/-!
# Exact widths

The width of a type and the width of its format are both cut off, each at a ceiling of its own.  The
exact width is not: it is what the definition of a type adds and multiplies up to.  Cutting off on
the way makes no difference to the end, so either width is the exact one, cut off once; and inside
a message, which has no room for a width at its ceiling, all three are the same.
-/

namespace Bitwire

namespace WireType

/-! ## 1. Widths without a ceiling -/

mutual

/-- How many bits a value of a type occupies, however many they are. -/
def exactWidth : WireType → Nat
  | .bool => 1
  | .int bits => bits
  | .uint bits => bits
  | .aliased _ target => target.exactWidth
  | .enum e => e.bits
  | .array element capacity => element.exactWidth * capacity
  | .message ⟨_, fields, _, _⟩ => exactWidths fields

/-- How many bits fields occupy together. -/
def exactWidths : List Field → Nat
  | [] => 0
  | ⟨_, _, type⟩ :: rest => type.exactWidth + exactWidths rest

end

theorem exactWidths_eq_sum (fields : List Field) :
    exactWidths fields = (fields.map fun f => f.type.exactWidth).sum := by
  induction fields with
  | nil => rfl
  | cons f rest ih => rw [List.map_cons, List.sum_cons, ← ih, exactWidths]

theorem exactWidth_message (m : MessageType) :
    (message m).exactWidth = (m.fields.map fun f => f.type.exactWidth).sum :=
  exactWidths_eq_sum m.fields

/-! ## 2. Expressible types -/

mutual

/-- Types that a program can hold: the width of a scalar is a byte, and a message came from its
maker.  Nothing else is checked, so a scalar may be wider than 64 bits and an array empty. -/
def Expressible : WireType → Prop
  | .bool => True
  | .int bits => bits < UInt8.size
  | .uint bits => bits < UInt8.size
  | .aliased _ target => target.Expressible
  | .enum e => e.bits < UInt8.size
  | .array element _ => element.Expressible
  | .message ⟨name, fields, layout, format⟩ =>
    AllExpressible fields ∧ MessageType.make name fields = .ok ⟨name, fields, layout, format⟩

/-- Fields whose types are expressible. -/
def AllExpressible : List Field → Prop
  | [] => True
  | ⟨_, _, type⟩ :: rest => type.Expressible ∧ AllExpressible rest

end

theorem allExpressible_iff (fields : List Field) :
    AllExpressible fields ↔ ∀ f ∈ fields, f.type.Expressible := by
  induction fields with
  | nil => simp [AllExpressible]
  | cons f rest ih => rw [List.forall_mem_cons, ← ih, AllExpressible]

theorem lt_size_of_checkBits {bits : Nat} (h : checkBits bits = .ok ()) : bits < UInt8.size := by
  have hbits := (checkBits_ok h).2
  have hsize : UInt8.size = 256 := rfl
  omega

/-- A made type is expressible. -/
theorem Made.expressible {t : WireType} (h : t.Made) : t.Expressible := by
  induction t using WireType.induct with
  | scalar t hs =>
    cases t with
    | bool => trivial
    | int | uint | enum => exact lt_size_of_checkBits (bind_checkBits_ok h).1
    | aliased | array | message => exact absurd hs Bool.false_ne_true
  | aliased name target ih => exact ih h
  | array element capacity ih => exact ih h.1
  | message m ih =>
    have hm : m.Made := h
    exact ⟨(allExpressible_iff _).mpr fun f hf => ih f hf (hm.field hf), hm.2⟩

/-! ## 3. Cutting off -/

-- An array of elements that are cut off is cut off itself.
theorem min_mul_min (w capacity ceiling : Nat) :
    min (min w ceiling * capacity) ceiling = min (w * capacity) ceiling := by
  rcases Nat.eq_zero_or_pos capacity with rfl | hpos
  · rw [Nat.mul_zero, Nat.mul_zero]
  rcases Nat.le_total w ceiling with hle | hle
  · rw [Nat.min_eq_left hle]
  · have hmul : ceiling ≤ ceiling * capacity := Nat.le_mul_of_pos_right _ hpos
    have hmul' : ceiling * capacity ≤ w * capacity := Nat.mul_le_mul_right _ hle
    rw [Nat.min_eq_right hle]
    omega

-- Fields that are cut off one by one are cut off together.
theorem min_sum_min {fields : List Field}
    (h : ∀ f ∈ fields, f.type.width = min f.type.exactWidth Layout.widthCeiling) :
    min (fields.map fun f => f.type.width).sum Layout.widthCeiling =
      min (fields.map fun f => f.type.exactWidth).sum Layout.widthCeiling := by
  induction fields with
  | nil => rfl
  | cons f rest ih =>
    obtain ⟨hf, hrest⟩ := List.forall_mem_cons.mp h
    have hsum := ih hrest
    rw [List.map_cons, List.map_cons, List.sum_cons, List.sum_cons, hf]
    omega

-- Whether there is room in a message does not depend on the ceiling.
theorem room_iff {fields : List Field}
    (h : ∀ f ∈ fields, f.type.width = min f.type.exactWidth Layout.widthCeiling) :
    (fields.map fun f => f.type.width).sum ≤ Layout.maxBits ↔
      (fields.map fun f => f.type.exactWidth).sum ≤ Layout.maxBits := by
  have hsum := min_sum_min h
  have hlt : Layout.maxBits < Layout.widthCeiling := by decide
  omega

-- Where there is room in a message nothing was cut off.
theorem sum_exactWidth_eq {fields : List Field}
    (h : ∀ f ∈ fields, f.type.width = min f.type.exactWidth Layout.widthCeiling)
    (hroom : (fields.map fun f => f.type.width).sum ≤ Layout.maxBits) :
    (fields.map fun f => f.type.exactWidth).sum = (fields.map fun f => f.type.width).sum := by
  have hsum := min_sum_min h
  have hlt : Layout.maxBits < Layout.widthCeiling := by decide
  omega

/-- The width of a type is the exact one, cut off at the ceiling. -/
theorem Expressible.width_eq {t : WireType} (h : t.Expressible) :
    t.width = min t.exactWidth Layout.widthCeiling := by
  have hbyte : UInt8.size ≤ Layout.widthCeiling := by decide
  induction t using WireType.induct with
  | scalar t hs =>
    cases t with
    | bool => rfl
    | int bits | uint bits | enum e => exact (Nat.min_eq_left ((Nat.le_of_lt h).trans hbyte)).symm
    | aliased | array | message => exact absurd hs Bool.false_ne_true
  | aliased name target ih => exact ih h
  | array element capacity ih =>
    rw [width, exactWidth, ih h]
    exact min_mul_min _ _ _
  | message m ih =>
    have hfields : ∀ f ∈ m.fields, f.type.width = min f.type.exactWidth Layout.widthCeiling :=
      fun f hf => ih f hf ((allExpressible_iff _).mp h.1 f hf)
    have hm : m.Consistent := (MessageType.make_ok h.2).2.2
    have hle := hm.totalBits_le
    have htotal := hm.totalBits_eq_sum
    have hexact := sum_exactWidth_eq hfields (htotal ▸ hle)
    have hlt : Layout.maxBits < Layout.widthCeiling := by decide
    rw [width, exactWidth_message, hexact, ← htotal]
    omega

/-! ## 4. Formats -/

/-- The width of the format of a made type is the exact one, cut off where a message ends. -/
theorem Made.format_width_eq {t : WireType} (h : t.Made) :
    t.format.width = min t.exactWidth Format.maxWidth := by
  induction t using WireType.induct with
  | scalar t hs =>
    have hbyte : UInt8.size ≤ Format.maxWidth := by decide
    cases t with
    | bool => rfl
    | int bits | uint bits | enum e =>
      exact (Nat.min_eq_left ((Nat.le_of_lt h.expressible).trans hbyte)).symm
    | aliased | array | message => exact absurd hs Bool.false_ne_true
  | aliased name target ih => exact ih h
  | array element capacity ih =>
    rw [WireType.format, Format.width, exactWidth, ih h.1]
    exact min_mul_min _ _ _
  | message m ih =>
    have hm : m.Made := h
    have hwidth := h.expressible.width_eq
    have hle : (message m).width ≤ Format.maxWidth := hm.consistent.totalBits_le
    have hlt : Format.maxWidth < Layout.widthCeiling := by decide
    rw [(h.format hle).2.2]
    omega

-- In a type that a message has room for nothing is cut off.
theorem Made.width_eq_exactWidth {t : WireType} (h : t.Made) (hw : t.width ≤ Format.maxWidth) :
    t.width = t.exactWidth ∧ t.format.width = t.exactWidth := by
  have hwidth := h.expressible.width_eq
  have hformat := (h.format hw).2.2
  have hlt : Format.maxWidth < Layout.widthCeiling := by decide
  omega

end WireType

end Bitwire
