import Bitwire.Proofs.PatternBits

/-!
# The leaves of a format

A leaf is a value with bits of its own: a boolean, an integer or an enum, reached through any
nesting of arrays and messages.  A format lists its leaves without looking at a byte or a message,
so the list is what a walk that leaves nothing out would visit.  Sound formats are those whose
leaves lie where their fields say.
-/

namespace Bitwire

/-- A value with bits of its own, in a message that may be nested in others. -/
structure Leaf where
  /-- The places of the nested messages on the way to it, the outermost first. -/
  trail : List Place
  /-- Its place in the innermost of these messages. -/
  place : Place
  /-- Its first bit. -/
  offset : Nat
  format : Format

namespace Leaf

/-- How many bits a leaf has. -/
def width (l : Leaf) : Nat :=
  l.format.width

/-- The leaf as it is found from the message around its own. -/
def inside (place : Place) (l : Leaf) : Leaf :=
  { l with trail := place :: l.trail }

/-- Whether a leaf has a bit in a byte. -/
def reaches (byte : Nat) (l : Leaf) : Bool :=
  decide (l.offset < 8 * byte + 8 ∧ 8 * byte < l.offset + l.width)

end Leaf

namespace Format

/-- Whether values of a format have bits of their own. -/
def isScalar : Format → Bool
  | .array .. => false
  | .message _ => false
  | _ => true

/-! ## 1. Induction -/

/-- Induction over formats: a message holds the formats of its fields. -/
@[elab_as_elim]
theorem induct {motive : Format → Prop}
    (scalar : ∀ f : Format, f.isScalar = true → motive f)
    (array : ∀ (element : Format) (capacity : Nat), motive element →
      motive (.array element capacity))
    (message : ∀ m : MessageFormat, (∀ f ∈ m.fields.toList, motive f.format) →
      motive (.message m)) (f : Format) : motive f := by
  refine @Format.rec motive (fun m => ∀ f ∈ m.fields.toList, motive f.format)
    (fun fields => ∀ f ∈ fields.toList, motive f.format)
    (fun fields => ∀ f ∈ fields, motive f.format) (fun f => motive f.format)
    (scalar _ rfl) (fun _ => scalar _ rfl) (fun _ => scalar _ rfl) (fun _ => scalar _ rfl)
    (fun element capacity ih => array element capacity ih) (fun m ih => message m ih)
    (fun _ _ _ ih => ih) (fun _ ih => ih) ?_ (fun f rest ihf ihrest => ?_)
    (fun _ _ _ _ ih => ih) f
  · exact fun f hf => absurd hf List.not_mem_nil
  · rw [List.forall_mem_cons]
    exact ⟨ihf, ihrest⟩

/-! ## 2. Leaves -/

mutual

/-- The leaves of a value of a format, found at a place and starting at bit `offset`, in the order
of the fields and of the elements. -/
def leaves : Format → (place : Place) → (offset : Nat) → List Leaf
  | .array element capacity, place, offset =>
    (List.range capacity).flatMap fun i =>
      element.leaves (place.element i) (offset + element.elementOffset i)
  | .message ⟨_, ⟨fields⟩, _⟩, place, offset =>
    (fieldLeaves fields offset).map (Leaf.inside place)
  | .bool, place, offset => [⟨[], place, offset, .bool⟩]
  | .int bits, place, offset => [⟨[], place, offset, .int bits⟩]
  | .uint bits, place, offset => [⟨[], place, offset, .uint bits⟩]
  | .enum e, place, offset => [⟨[], place, offset, .enum e⟩]

/-- The leaves of the fields of a message at bit `base`. -/
def fieldLeaves : List FieldFormat → (base : Nat) → List Leaf
  | [], _ => []
  | ⟨number, _, offset, format⟩ :: rest, base =>
    format.leaves ⟨number, []⟩ (base + offset) ++ fieldLeaves rest base

end

/-- The leaves of a field of a message at bit `base`. -/
abbrev leavesOfField (base : Nat) (f : FieldFormat) : List Leaf :=
  f.format.leaves ⟨f.number, []⟩ (base + f.offset)

theorem leaves_scalar {f : Format} (h : f.isScalar = true) (place : Place) (offset : Nat) :
    f.leaves place offset = [⟨[], place, offset, f⟩] := by
  cases f <;> first | rfl | exact absurd h Bool.false_ne_true

theorem fieldLeaves_eq_flatMap (fields : List FieldFormat) (base : Nat) :
    fieldLeaves fields base = fields.flatMap (leavesOfField base) := by
  induction fields with
  | nil => rfl
  | cons f rest ih => rw [List.flatMap_cons, ← ih, fieldLeaves]

theorem leaves_message (m : MessageFormat) (place : Place) (offset : Nat) :
    (Format.message m).leaves place offset =
      (m.fields.toList.flatMap (leavesOfField offset)).map (Leaf.inside place) := by
  rw [← fieldLeaves_eq_flatMap]
  rfl

end Format

/-- The leaves of a message. -/
def MessageFormat.leaves (m : MessageFormat) : List Leaf :=
  m.fields.toList.flatMap (Format.leavesOfField 0)

namespace Format

/-! ## 3. Soundness -/

mutual

/-- Formats whose leaves lie where the fields say: scalars have 1 to 64 bits, the fields of a
message have ascending numbers and follow each other without gaps, and no width is cut off. -/
def Sound : Format → Prop
  | .bool => True
  | .int bits => 1 ≤ bits ∧ bits ≤ 64
  | .uint bits => 1 ≤ bits ∧ bits ≤ 64
  | .enum e => 1 ≤ e.bits ∧ e.bits ≤ 64
  | .array element capacity => element.Sound ∧ element.width * capacity ≤ maxWidth
  | .message ⟨_, ⟨fields⟩, totalBits⟩ =>
    AllSound fields ∧
    fields.Pairwise (fun f g => f.number < g.number) ∧
    fields.IsChain (fun f g => f.stop = g.offset) ∧
    totalBits = (fields.getLast?.map PlacedField.stop).getD 0 ∧
    totalBits ≤ maxWidth

/-- Fields whose formats are sound. -/
def AllSound : List FieldFormat → Prop
  | [] => True
  | ⟨_, _, _, format⟩ :: rest => format.Sound ∧ AllSound rest

end

theorem allSound_iff (fields : List FieldFormat) :
    AllSound fields ↔ ∀ f ∈ fields, f.format.Sound := by
  induction fields with
  | nil => simp [AllSound]
  | cons f rest ih => rw [List.forall_mem_cons, ← ih, AllSound]

end Format

/-- Message formats that are sound. -/
def MessageFormat.Sound (m : MessageFormat) : Prop :=
  (Format.message m).Sound

-- Where there are no gaps, a field ends no later than any field behind it starts.
theorem MessageFormat.disjoint_of_gapless {fields : List FieldFormat}
    (h : fields.IsChain fun f g => f.stop = g.offset) :
    fields.Pairwise fun f g => f.stop ≤ g.offset := by
  let R : FieldFormat → FieldFormat → Prop := fun f g => f.stop ≤ g.offset
  have : Trans R R R := ⟨fun {f g k} (hfg : f.stop ≤ g.offset) (hgk : g.stop ≤ k.offset) =>
    hfg.trans ((Nat.le_add_right _ _).trans hgk)⟩
  exact (h.imp fun _ _ => Nat.le_of_eq).pairwise

namespace MessageFormat.Sound

theorem intro {m : MessageFormat} (hfield : ∀ f ∈ m.fields.toList, f.format.Sound)
    (hascending : m.fields.toList.Pairwise fun f g => f.number < g.number)
    (hchain : m.fields.toList.IsChain fun f g => f.stop = g.offset)
    (htotal : m.totalBits = (m.fields.toList.getLast?.map PlacedField.stop).getD 0)
    (hle : m.totalBits ≤ Format.maxWidth) : m.Sound :=
  ⟨(Format.allSound_iff _).mpr hfield, hascending, hchain, htotal, hle⟩

variable {m : MessageFormat} (h : m.Sound)

include h

theorem field {f : FieldFormat} (hf : f ∈ m.fields.toList) : f.format.Sound :=
  (Format.allSound_iff _).mp h.1 f hf

theorem ascending : m.fields.toList.Pairwise (fun f g => f.number < g.number) :=
  h.2.1

theorem disjoint : m.fields.toList.Pairwise (fun f g => f.stop ≤ g.offset) :=
  disjoint_of_gapless h.2.2.1

theorem totalBits_eq : m.totalBits = (m.fields.toList.getLast?.map PlacedField.stop).getD 0 :=
  h.2.2.2.1

theorem totalBits_le : m.totalBits ≤ Format.maxWidth :=
  h.2.2.2.2

theorem stop_le {f : FieldFormat} (hf : f ∈ m.fields.toList) : f.stop ≤ m.totalBits := by
  rw [h.totalBits_eq]
  rcases List.eq_nil_or_concat m.fields.toList with hnil | ⟨front, last, hsplit⟩
  · rw [hnil] at hf
    exact absurd hf List.not_mem_nil
  · have hd := h.disjoint
    rw [hsplit, List.concat_eq_append] at hd hf ⊢
    rw [List.getLast?_concat]
    rcases List.mem_append.mp hf with hf | hf
    · exact (List.pairwise_append.mp hd |>.2.2 f hf last (List.mem_singleton_self _)).trans
        (Nat.le_add_right _ _)
    · rw [List.mem_singleton.mp hf]
      exact Nat.le_refl _

end MessageFormat.Sound

namespace Format

theorem Sound.scalar_width {f : Format} (h : f.Sound) (hs : f.isScalar = true) :
    1 ≤ f.width ∧ f.width ≤ 64 := by
  cases f with
  | bool => exact ⟨Nat.le_refl _, by decide⟩
  | int | uint | enum => exact h
  | array | message => exact absurd hs Bool.false_ne_true

theorem Sound.array_width {element : Format} {capacity : Nat}
    (h : (Format.array element capacity).Sound) :
    (Format.array element capacity).width = element.width * capacity :=
  Nat.min_eq_left h.2

/-! ## 4. Proper formats -/

mutual

/-- Formats as schemas make them: the first field of a message starts where the message does, and
no two fields of a message have one name. -/
def Proper : Format → Prop
  | .array element _ => element.Proper
  | .message ⟨_, ⟨fields⟩, _⟩ =>
    AllProper fields ∧ (fields.map PlacedField.name).Nodup ∧ ∀ f ∈ fields.head?, f.offset = 0
  | _ => True

/-- Fields whose formats are proper. -/
def AllProper : List FieldFormat → Prop
  | [] => True
  | ⟨_, _, _, format⟩ :: rest => format.Proper ∧ AllProper rest

end

theorem allProper_iff (fields : List FieldFormat) :
    AllProper fields ↔ ∀ f ∈ fields, f.format.Proper := by
  induction fields with
  | nil => simp [AllProper]
  | cons f rest ih => rw [List.forall_mem_cons, ← ih, AllProper]

end Format

/-- Message formats that are proper. -/
def MessageFormat.Proper (m : MessageFormat) : Prop :=
  (Format.message m).Proper

namespace MessageFormat.Proper

theorem intro {m : MessageFormat} (hfield : ∀ f ∈ m.fields.toList, f.format.Proper)
    (hnames : (m.fields.toList.map PlacedField.name).Nodup)
    (hfirst : ∀ f ∈ m.fields.toList.head?, f.offset = 0) : m.Proper :=
  ⟨(Format.allProper_iff _).mpr hfield, hnames, hfirst⟩

variable {m : MessageFormat} (h : m.Proper)

include h

theorem field {f : FieldFormat} (hf : f ∈ m.fields.toList) : f.format.Proper :=
  (Format.allProper_iff _).mp h.1 f hf

theorem names_nodup : (m.fields.toList.map PlacedField.name).Nodup :=
  h.2.1

theorem first : ∀ f ∈ m.fields.toList.head?, f.offset = 0 :=
  h.2.2

end MessageFormat.Proper

namespace Format

/-! ## 5. Where leaves lie -/

theorem mem_leaves_array {element : Format} {capacity : Nat} {place : Place} {offset : Nat}
    {l : Leaf} : l ∈ (Format.array element capacity).leaves place offset ↔
      ∃ i < capacity, l ∈ element.leaves (place.element i) (offset + element.elementOffset i) := by
  simp only [leaves, List.mem_flatMap, List.mem_range]

theorem mem_leaves_message {m : MessageFormat} {place : Place} {offset : Nat} {l : Leaf} :
    l ∈ (Format.message m).leaves place offset ↔
      ∃ f ∈ m.fields.toList, ∃ l' ∈ leavesOfField offset f, l'.inside place = l := by
  rw [leaves_message]
  simp only [List.mem_map, List.mem_flatMap]
  exact ⟨fun ⟨l', ⟨f, hf, hl⟩, he⟩ => ⟨f, hf, l', hl, he⟩,
    fun ⟨f, hf, l', hl, he⟩ => ⟨l', ⟨f, hf, hl⟩, he⟩⟩

-- An element of an array ends inside the array.
theorem elementOffset_add_width_le (element : Format) {capacity i : Nat} (hi : i < capacity) :
    element.elementOffset i + element.width ≤ element.width * capacity := by
  calc element.elementOffset i + element.width
      = element.width * (i + 1) := by rw [elementOffset]; ring
    _ ≤ element.width * capacity := Nat.mul_le_mul_left _ hi

-- A leaf lies inside the value that it is a leaf of, is a scalar, and has 1 to 64 bits.
theorem Sound.leaf_bounds {f : Format} (h : f.Sound) {place : Place} {offset : Nat} {l : Leaf}
    (hl : l ∈ f.leaves place offset) :
    offset ≤ l.offset ∧ l.offset + l.width ≤ offset + f.width ∧ 1 ≤ l.width ∧ l.width ≤ 64 ∧
      l.format.isScalar = true := by
  induction f using Format.induct generalizing place offset l with
  | scalar f hs =>
    rw [leaves_scalar hs, List.mem_singleton] at hl
    subst hl
    exact ⟨Nat.le_refl _, Nat.le_refl _, (h.scalar_width hs).1, (h.scalar_width hs).2, hs⟩
  | array element capacity ih =>
    obtain ⟨i, hi, hl⟩ := mem_leaves_array.mp hl
    obtain ⟨hlo, hhi, hw⟩ := ih h.1 hl
    have hend := elementOffset_add_width_le element hi
    rw [h.array_width]
    exact ⟨by omega, by omega, hw⟩
  | message m ih =>
    obtain ⟨f, hf, l', hl', rfl⟩ := mem_leaves_message.mp hl
    obtain ⟨hlo, hhi, hw⟩ := ih f hf (MessageFormat.Sound.field h hf) hl'
    have hstop : f.offset + f.format.width ≤ m.totalBits := MessageFormat.Sound.stop_le h hf
    have hwidth : (Format.message m).width = m.totalBits := rfl
    -- inside a message a leaf has another place but the same bits
    have hl : (l'.inside place).offset = l'.offset ∧ (l'.inside place).width = l'.width :=
      ⟨rfl, rfl⟩
    exact ⟨by omega, by omega, hw⟩

theorem Sound.leaf_sound {f : Format} (h : f.Sound) {place : Place} {offset : Nat} {l : Leaf}
    (hl : l ∈ f.leaves place offset) : l.format.Sound := by
  induction f using Format.induct generalizing place offset l with
  | scalar f hs =>
    rw [leaves_scalar hs, List.mem_singleton] at hl
    subst hl
    exact h
  | array element capacity ih =>
    obtain ⟨i, hi, hl⟩ := mem_leaves_array.mp hl
    exact ih h.1 hl
  | message m ih =>
    obtain ⟨f, hf, l', hl', rfl⟩ := mem_leaves_message.mp hl
    change l'.format.Sound
    exact ih f hf (MessageFormat.Sound.field h hf) hl'

-- The leaves of a value without a bit in a byte do not reach the byte.
theorem Sound.no_leaf_reaches {f : Format} (h : f.Sound) {offset byte : Nat} (place : Place)
    (hout : ¬ max offset (8 * byte) < min (offset + f.width) (8 * byte + 8)) :
    (f.leaves place offset).filter (Leaf.reaches byte) = [] := by
  rw [List.filter_eq_nil_iff]
  intro l hl hr
  obtain ⟨hlo, hhi, hw, -⟩ := h.leaf_bounds hl
  have := of_decide_eq_true hr
  omega

end Format

end Bitwire
