import Bitwire.Proofs.Bisection
import Bitwire.Codec.EnumCheck
import Bitwire.Proofs.Leaves

/-!
# Values of closed enums

An enum is closed if it is not extensible: its values are checked.  A message lists the values of
its closed enums in the order of the fields and of the elements, nested messages where they stand,
without skipping anything.  The check finds in this list what a search finds that knows nothing of
fields without such enums and does not end early: a policy that refuses unknown values reports the
first one, and a policy that tolerates them reports each.

A value is put together from the bytes that the accessor has for it.  Up to 64 bits these are the
low bits of the number that the bytes are the digits of.  A wider value would be put together by
shifts past the end of a word: they start again at the first bit, or end the program where
arithmetic is checked.
-/

namespace Bitwire

/-! ## 1. Patterns put together from bytes -/

namespace Pattern

variable (bytes : Nat → UInt8)

/-- Adds `count` bytes from byte `k` on to a pattern, each where it belongs. -/
def gather : (count k : Nat) → UInt64 → UInt64
  | 0, _, pattern => pattern
  | count + 1, k, pattern =>
    gather count (k + 1) (pattern ||| (bytes k).toUInt64 <<< UInt64.ofNat (8 * k))

/-- The same where arithmetic is checked: no shift is as wide as a word. -/
def gather? : (count k : Nat) → UInt64 → Option UInt64
  | 0, _, pattern => some pattern
  | count + 1, k, pattern =>
    if 8 * k < 64 then
      gather? count (k + 1) (pattern ||| (bytes k).toUInt64 <<< UInt64.ofNat (8 * k))
    else none

-- Shifts are narrower than a word exactly up to the eighth byte.
theorem gather?_eq_some_iff {count k : Nat} (hk : k ≤ 8) {pattern p : UInt64} :
    gather? bytes count k pattern = some p ↔ k + count ≤ 8 ∧ p = gather bytes count k pattern := by
  induction count generalizing k pattern with
  | zero => simp [gather?, gather, hk, eq_comm]
  | succ count ih =>
    rw [gather?, gather]
    by_cases hin : 8 * k < 64
    · rw [if_pos hin, ih (by omega), Nat.add_right_comm, Nat.add_assoc]
    · rw [if_neg hin]
      constructor
      · intro h
        cases h
      · intro h
        omega

-- A byte above a pattern is added to it as its next digit.
theorem toNat_or_shiftLeft {p : UInt64} {k : Nat} (hk : k < 8) (hp : p.toNat < 2 ^ (8 * k))
    (b : UInt8) : (p ||| b.toUInt64 <<< UInt64.ofNat (8 * k)).toNat =
      p.toNat + 2 ^ (8 * k) * b.toNat := by
  have hb : 2 ^ (8 * k) * b.toNat < 2 ^ 64 := by
    calc 2 ^ (8 * k) * b.toNat < 2 ^ (8 * k) * 2 ^ 8 :=
          Nat.mul_lt_mul_of_pos_left b.toNat_lt (Nat.two_pow_pos _)
      _ = 2 ^ (8 * k + 8) := (Nat.pow_add 2 (8 * k) 8).symm
      _ ≤ 2 ^ 64 := Nat.pow_le_pow_right (by decide) (by omega)
  rw [UInt64.toNat_or, UInt64.toNat_shiftLeft, UInt64.toNat_ofNat',
    Nat.mod_eq_of_lt (by omega : 8 * k < 2 ^ 64), Nat.mod_eq_of_lt (by omega : 8 * k < 64),
    UInt8.toNat_toUInt64, Nat.shiftLeft_eq, Nat.mul_comm b.toNat, Nat.mod_eq_of_lt hb, Nat.or_comm,
    ← Nat.two_pow_add_eq_or_of_lt hp, Nat.add_comm]

-- Up to eight bytes are the digits of the pattern that they are put together to.
theorem toNat_gather {count k : Nat} (hk : k + count ≤ 8) {p : UInt64} (hp : p.toNat < 2 ^ (8 * k)) :
    (gather bytes count k p).toNat = p.toNat +
      2 ^ (8 * k) * Nat.ofDigits 256 ((List.range' k count).map fun i => (bytes i).toNat) := by
  induction count generalizing k p with
  | zero => simp [gather]
  | succ count ih =>
    have hor := toNat_or_shiftLeft (by omega : k < 8) hp (bytes k)
    have hstep : 2 ^ (8 * (k + 1)) = 2 ^ (8 * k) * 256 := by
      rw [Nat.mul_add, Nat.pow_add]
    have hnext : (p ||| (bytes k).toUInt64 <<< UInt64.ofNat (8 * k)).toNat < 2 ^ (8 * (k + 1)) := by
      have hdigit : (bytes k).toNat + 1 ≤ 256 := (bytes k).toNat_lt
      rw [hor, hstep]
      calc p.toNat + 2 ^ (8 * k) * (bytes k).toNat
          < 2 ^ (8 * k) + 2 ^ (8 * k) * (bytes k).toNat := Nat.add_lt_add_right hp _
        _ = 2 ^ (8 * k) * ((bytes k).toNat + 1) := by rw [Nat.mul_succ, Nat.add_comm]
        _ ≤ 2 ^ (8 * k) * 256 := Nat.mul_le_mul_left _ hdigit
    rw [gather, ih (by omega) hnext, hor, hstep, List.range'_succ, List.map_cons, Nat.ofDigits_cons]
    ring

end Pattern

/-- A value of a closed enum in a message. -/
structure EnumLeaf where
  path : FieldPath
  enum : EnumFormat
  /-- The bytes that the accessor has for it, the lowest first. -/
  bytes : Nat → UInt8

namespace EnumLeaf

/-- The pattern of the value, cut to the width of the enum. -/
def value (l : EnumLeaf) : UInt64 :=
  Pattern.truncate (Pattern.gather l.bytes (Pattern.byteCount l.enum.bits) 0 0) l.enum.bits

/-- The same where arithmetic is checked. -/
def value? (l : EnumLeaf) : Option UInt64 :=
  (Pattern.gather? l.bytes (Pattern.byteCount l.enum.bits) 0 0).map (Pattern.truncate · l.enum.bits)

/-- The number that the bytes of the value are the digits of. -/
def number (l : EnumLeaf) : Nat :=
  Nat.ofDigits 256 ((List.range (Pattern.byteCount l.enum.bits)).map fun k => (l.bytes k).toNat)

/-- Whether the value is one that its enum declares. -/
def declared (l : EnumLeaf) : Bool :=
  l.enum.contains l.value

/-- What is wrong with the value if it is not declared. -/
def fault (l : EnumLeaf) : UnknownEnum :=
  ⟨l.path, l.enum.name, l.value⟩

/-- Checked arithmetic puts together the same value, exactly if the enum fits in a word. -/
theorem value?_eq_some_iff {l : EnumLeaf} {v : UInt64} :
    l.value? = some v ↔ l.enum.bits ≤ 64 ∧ v = l.value := by
  have hcount : 0 + Pattern.byteCount l.enum.bits ≤ 8 ↔ l.enum.bits ≤ 64 := by
    unfold Pattern.byteCount
    omega
  rw [value?, Option.map_eq_some_iff]
  simp only [Pattern.gather?_eq_some_iff l.bytes (Nat.zero_le 8), hcount]
  constructor
  · rintro ⟨_, ⟨hbits, rfl⟩, rfl⟩
    exact ⟨hbits, rfl⟩
  · rintro ⟨hbits, rfl⟩
    exact ⟨_, ⟨hbits, rfl⟩, rfl⟩

/-- The value of an enum that fits in a word has the low bits of its bytes. -/
theorem toNat_value {l : EnumLeaf} (h : l.enum.bits ≤ 64) :
    l.value.toNat = l.number % 2 ^ l.enum.bits := by
  have hcount : 0 + Pattern.byteCount l.enum.bits ≤ 8 := by
    unfold Pattern.byteCount
    omega
  have hgather := Pattern.toNat_gather l.bytes hcount (p := 0) (by decide)
  rw [value, Pattern.toNat_truncate, hgather, number, List.range_eq_range']
  simp

end EnumLeaf

section

variable {α : Type} (A : Accessor Id α)

namespace Accessor

-- A pattern is read as its bytes are put together.
theorem readBytes_run (s : α) (place : Place) (count k : Nat) (pattern : UInt64) :
    (A.readBytes s place count k pattern).run =
      Pattern.gather (fun i => (A.getByte s place (8 * i : Nat)).run) count k pattern := by
  induction count generalizing k pattern with
  | zero => rfl
  | succ count ih => exact ih (k + 1) _

theorem readPattern_run (s : α) (place : Place) (bits : Nat) :
    (A.readPattern s place bits).run = Pattern.truncate
      (Pattern.gather (fun i => (A.getByte s place (8 * i : Nat)).run) (Pattern.byteCount bits) 0 0)
      bits :=
  congrArg (Pattern.truncate · bits) (A.readBytes_run s place _ 0 0)

end Accessor

/-! ## 2. The list -/

namespace Format

mutual

/-- The values of closed enums in a value of a format, found at a place and called by a path. -/
def closedEnums : Format → α → Place → FieldPath → List EnumLeaf
  | .enum e, s, place, path =>
    if e.extensible then [] else [⟨path, e, fun k => (A.getByte s place (8 * k : Nat)).run⟩]
  | .array element capacity, s, place, path =>
    (List.range capacity).flatMap fun i => element.closedEnums s (place.element i) (path.index i)
  | .message ⟨_, ⟨fields⟩, _⟩, s, place, path =>
    match (A.message? s place).run with
    | some child => fieldClosedEnums fields child path
    | none => []
  | _, _, _, _ => []

/-- The values of closed enums in the fields of the message at a path. -/
def fieldClosedEnums : List FieldFormat → α → FieldPath → List EnumLeaf
  | [], _, _ => []
  | ⟨number, name, _, format⟩ :: rest, s, path =>
    format.closedEnums s ⟨number, []⟩ (path.field name) ++ fieldClosedEnums rest s path

end

theorem fieldClosedEnums_eq_flatMap (fields : List FieldFormat) (s : α) (path : FieldPath) :
    fieldClosedEnums A fields s path =
      fields.flatMap fun f => f.format.closedEnums A s ⟨f.number, []⟩ (path.field f.name) := by
  induction fields with
  | nil => rfl
  | cons f rest ih => rw [fieldClosedEnums, ih, List.flatMap_cons]

-- The enums of a value that are listed are closed, and inside the value.
theorem of_mem_closedEnums {P : Format → Prop}
    (hitem : ∀ element capacity, P (.array element capacity) → P element)
    (hfield : ∀ m : MessageFormat, P (.message m) → ∀ f ∈ m.fields.toList, P f.format)
    {f : Format} (h : P f) {s : α} {place : Place} {path : FieldPath} {l : EnumLeaf}
    (hl : l ∈ f.closedEnums A s place path) : l.enum.extensible = false ∧ P (.enum l.enum) := by
  induction f using Format.induct generalizing s place path with
  | scalar f hs =>
    cases f with
    | enum e =>
      rw [closedEnums] at hl
      split at hl
      next => exact absurd hl List.not_mem_nil
      next hclosed =>
        obtain rfl := List.mem_singleton.mp hl
        exact ⟨Bool.eq_false_iff.mpr hclosed, h⟩
    | bool | int | uint => exact absurd hl List.not_mem_nil
    | array | message => exact absurd hs Bool.false_ne_true
  | array element capacity ih =>
    rw [closedEnums] at hl
    obtain ⟨i, -, hi⟩ := List.mem_flatMap.mp hl
    exact ih (hitem element capacity h) hi
  | message m ih =>
    have hfields := hfield m h
    obtain ⟨name, ⟨fields⟩, totalBits⟩ := m
    rw [closedEnums] at hl
    split at hl
    next child _ =>
      rw [fieldClosedEnums_eq_flatMap] at hl
      obtain ⟨f, hf, hfl⟩ := List.mem_flatMap.mp hl
      exact ih f hf (hfields f hf) hfl
    next => exact absurd hl List.not_mem_nil

end Format

/-- The values of closed enums in a message. -/
def MessageFormat.closedEnums (f : MessageFormat) (s : α) : List EnumLeaf :=
  Format.fieldClosedEnums A f.fields.toList s .root

theorem MessageFormat.of_mem_closedEnums {P : Format → Prop}
    (hitem : ∀ element capacity, P (.array element capacity) → P element)
    (hfield : ∀ m : MessageFormat, P (.message m) → ∀ f ∈ m.fields.toList, P f.format)
    {f : MessageFormat} (h : P (.message f)) {s : α} {l : EnumLeaf} (hl : l ∈ f.closedEnums A s) :
    l.enum.extensible = false ∧ P (.enum l.enum) := by
  unfold closedEnums at hl
  rw [Format.fieldClosedEnums_eq_flatMap] at hl
  obtain ⟨g, hg, hgl⟩ := List.mem_flatMap.mp hl
  exact Format.of_mem_closedEnums A hitem hfield (hfield f h g hg) hgl

end

/-! ## 3. Searching the list -/

namespace EnumPolicy

/-- Goes through a list of enum values, with the faults met before. -/
def meetAll (policy : EnumPolicy) (met : Array UnknownEnum) (leaves : List EnumLeaf) :
    Except UnknownEnum (Array UnknownEnum) :=
  leaves.foldlM (fun met l => if l.declared then .ok met else policy.meet met l.fault) met

theorem meetAll_append (policy : EnumPolicy) (met : Array UnknownEnum) (xs ys : List EnumLeaf) :
    policy.meetAll met (xs ++ ys) = match policy.meetAll met xs with
      | .ok met => policy.meetAll met ys
      | .error fault => .error fault := by
  unfold meetAll
  rw [List.foldlM_append]
  generalize (xs.foldlM _ met : Except UnknownEnum (Array UnknownEnum)) = result
  cases result <;> rfl

-- A policy that refuses ends with the first value that is not declared.
theorem meetAll_reject (met : Array UnknownEnum) (leaves : List EnumLeaf) :
    reject.meetAll met leaves = match (leaves.filter (!·.declared)).head? with
      | some l => .error l.fault
      | none => .ok met := by
  rw [List.head?_filter]
  induction leaves with
  | nil => rfl
  | cons l rest ih =>
    unfold meetAll at ih ⊢
    rw [List.foldlM_cons, List.find?_cons]
    cases l.declared with
    | true => exact ih
    | false => rfl

-- A policy that tolerates goes on and keeps all of them.
theorem meetAll_tolerate (met : Array UnknownEnum) (leaves : List EnumLeaf) :
    tolerate.meetAll met leaves =
      .ok (met ++ ((leaves.filter (!·.declared)).map EnumLeaf.fault).toArray) := by
  induction leaves generalizing met with
  | nil => rw [List.filter_nil, List.map_nil, Array.append_empty]; rfl
  | cons l rest ih =>
    unfold meetAll at ih ⊢
    rw [List.foldlM_cons, List.filter_cons]
    cases l.declared with
    | true => exact ih met
    | false =>
      show (rest.foldlM _ (met.push l.fault) : Except UnknownEnum (Array UnknownEnum)) = _
      rw [ih, Array.push_eq_append, Array.append_assoc, Bool.not_false, if_pos rfl, List.map_cons,
        List.toArray_cons l.fault (List.map _ _)]

end EnumPolicy

/-! ## 4. The check -/

section

variable {α : Type} (A : Accessor Id α) (policy : EnumPolicy)

-- Steps that each go through a list go through all the lists.
theorem stepThrough_run {step : Nat → Array UnknownEnum → Id (Except UnknownEnum (Array UnknownEnum))}
    {leaves : Nat → List EnumLeaf} (h : ∀ i met, (step i met).run = policy.meetAll met (leaves i))
    (count i : Nat) (met : Array UnknownEnum) : (stepThrough step count i met).run =
      policy.meetAll met ((List.range' i count).flatMap leaves) := by
  induction count generalizing i met with
  | zero => rfl
  | succ count ih =>
    rw [stepThrough, Id.run_bind, h, List.range'_succ, List.flatMap_cons, policy.meetAll_append]
    cases policy.meetAll met (leaves i) with
    | ok met => exact ih (i + 1) met
    | error fault => rfl

namespace Format

-- A format without a closed enum has no values of one.
theorem closedEnums_eq_nil {f : Format} (h : f.hasClosedEnum = false) (s : α) (place : Place)
    (path : FieldPath) : f.closedEnums A s place path = [] := by
  induction f using Format.induct generalizing s place path with
  | scalar f hs =>
    cases f with
    | enum e =>
      rw [hasClosedEnum, Bool.not_eq_false'] at h
      rw [closedEnums, if_pos h]
    | bool | int | uint => rfl
    | array | message => exact absurd hs Bool.false_ne_true
  | array element capacity ih =>
    rw [closedEnums, List.flatMap_eq_nil_iff]
    exact fun i _ => ih h s _ _
  | message m ih =>
    have hfields : ∀ f ∈ m.fields.toList, f.format.hasClosedEnum = false := by
      intro f hf
      have hall : anyClosedEnum m.fields.toList = m.fields.toList.any (·.format.hasClosedEnum) := by
        generalize m.fields.toList = fields
        induction fields with
        | nil => rfl
        | cons f rest ih => rw [anyClosedEnum, ih, List.any_cons]
      have hany : anyClosedEnum m.fields.toList = false := h
      rw [hall, List.any_eq_false] at hany
      exact Bool.eq_false_iff.mpr (hany f hf)
    show (match (A.message? s place).run with
      | some child => fieldClosedEnums A m.fields.toList child path
      | none => []) = []
    cases (A.message? s place).run with
    | none => rfl
    | some child =>
      show fieldClosedEnums A m.fields.toList child path = []
      rw [fieldClosedEnums_eq_flatMap, List.flatMap_eq_nil_iff]
      exact fun f hf => ih f hf (hfields f hf) child _ _

-- Skipping fields without closed enums skips nothing.
theorem checkFieldEnums_run {fields : List FieldFormat}
    (h : ∀ f ∈ fields, ∀ (s : α) (place : Place) (path : FieldPath) (met : Array UnknownEnum),
      (f.format.checkEnums A policy s place path met).run =
        policy.meetAll met (f.format.closedEnums A s place path))
    (s : α) (path : FieldPath) (met : Array UnknownEnum) :
    (checkFieldEnums A policy fields s path met).run =
      policy.meetAll met (fieldClosedEnums A fields s path) := by
  induction fields generalizing met with
  | nil => rfl
  | cons f rest ih =>
    have hrest := ih fun f hf => h f (List.mem_cons_of_mem _ hf)
    rw [checkFieldEnums, fieldClosedEnums]
    cases hclosed : f.format.hasClosedEnum with
    | false =>
      rw [closedEnums_eq_nil A hclosed, List.nil_append, if_neg Bool.false_ne_true]
      exact hrest met
    | true =>
      rw [if_pos rfl, Id.run_bind, h f List.mem_cons_self, policy.meetAll_append]
      cases policy.meetAll met (f.format.closedEnums A s ⟨f.number, []⟩ (path.field f.name)) with
      | ok met => exact hrest met
      | error fault => rfl

/-- The check of a value goes through the values of its closed enums. -/
theorem checkEnums_run (f : Format) (s : α) (place : Place) (path : FieldPath)
    (met : Array UnknownEnum) : (f.checkEnums A policy s place path met).run =
      policy.meetAll met (f.closedEnums A s place path) := by
  induction f using Format.induct generalizing s place path met with
  | scalar f hs =>
    cases f with
    | enum e =>
      rw [checkEnums, closedEnums]
      cases e.extensible with
      | true => rfl
      | false =>
        rw [if_neg Bool.false_ne_true, if_neg Bool.false_ne_true, Id.run_bind]
        rw [A.readPattern_run]
        let l : EnumLeaf := ⟨path, e, fun k => (A.getByte s place (8 * k : Nat)).run⟩
        show (if l.declared = true then pure (.ok met) else pure (policy.meet met l.fault) :
          Id (Except UnknownEnum (Array UnknownEnum))).run = policy.meetAll met [l]
        rw [EnumPolicy.meetAll, List.foldlM_cons]
        cases l.declared with
        | true => rfl
        | false => cases policy <;> rfl
    | bool | int | uint => rfl
    | array | message => exact absurd hs Bool.false_ne_true
  | array element capacity ih =>
    rw [checkEnums, closedEnums, List.range_eq_range']
    exact stepThrough_run policy (fun i met => ih s (place.element i) (path.index i) met) capacity 0 met
  | message m ih =>
    rw [checkEnums, closedEnums, Id.run_bind]
    cases (A.message? s place).run with
    | none => rfl
    | some child => exact checkFieldEnums_run A policy ih child path met

end Format

end

namespace MessageFormat

variable {α : Type} (f : MessageFormat) (A : Accessor Id α) (s : α)

/-- The values of closed enums in a message that their enums do not declare. -/
def undeclared : List EnumLeaf :=
  (f.closedEnums A s).filter (!·.declared)

/-- A check that refuses reports the first undeclared value. -/
theorem checkEnums_reject : (f.checkEnums A s .reject).run =
    .silent (match (f.undeclared A s).head? with
      | some l => .error l.fault.error
      | none => .ok ()) := by
  unfold checkEnums undeclared
  rw [Id.run_bind, Format.checkFieldEnums_run A .reject fun f _ => f.format.checkEnums_run A .reject,
    EnumPolicy.meetAll_reject]
  unfold closedEnums
  cases ((Format.fieldClosedEnums A f.fields.toList s .root).filter _).head? <;> rfl

/-- A check that tolerates reports every undeclared value as an event. -/
theorem checkEnums_tolerate : (f.checkEnums A s .tolerate).run =
    ⟨.ok (), (f.undeclared A s).map fun l => l.fault.event⟩ := by
  unfold checkEnums undeclared
  rw [Id.run_bind,
    Format.checkFieldEnums_run A .tolerate fun f _ => f.format.checkEnums_run A .tolerate,
    EnumPolicy.meetAll_tolerate, Array.empty_append]
  show Logged.mk _ (List.map _ _) = _
  rw [List.map_map]
  rfl

/-- A message passes the checks of the default options. -/
theorem verify_default : (f.verify A s {}).run.value = .ok () :=
  congrArg Logged.value (f.checkEnums_tolerate A s)

end MessageFormat

end Bitwire
