import Bitwire.Proofs.ExactWidths
import Bitwire.Proofs.RecordOrder
import Bitwire.Schema.FormatBuilder

/-!
# Shared formats are the formats of their types

Whatever a builder has built before, it builds the format that a type has by itself, as long as an
address keeps the definition that it has.  What a builder remembers is the format of the definition
at the address; building anything leaves it so.
-/

namespace Bitwire

/-- The definitions that are held at addresses. -/
structure HeldDefinitions (κ : Type) where
  message? : κ → Option MessageType
  enum? : κ → Option EnumType

namespace WireType

variable {κ : Type}

mutual

/-- The definitions inside a type are held at their addresses. -/
def HeldIn (held : HeldDefinitions κ) : WireType → Addresses κ → Prop
  | .enum e, address => held.enum? (address [] e.name) = some e
  | .message ⟨name, fields, layout, format⟩, address =>
    held.message? (address [] name) = some ⟨name, fields, layout, format⟩ ∧
      AllHeldIn held fields address
  | .aliased _ target, address => target.HeldIn held address
  | .array element _, address => element.HeldIn held address
  | _, _ => True

/-- The definitions inside fields are held at their addresses. -/
def AllHeldIn (held : HeldDefinitions κ) : List Field → Addresses κ → Prop
  | [], _ => True
  | ⟨number, _, type⟩ :: rest, address =>
    type.HeldIn held (address.field number) ∧ AllHeldIn held rest address

end

theorem allHeldIn_iff {held : HeldDefinitions κ} {address : Addresses κ} (fields : List Field) :
    AllHeldIn held fields address ↔ ∀ f ∈ fields, f.type.HeldIn held (address.field f.number) := by
  induction fields with
  | nil => simp [AllHeldIn]
  | cons f rest ih => rw [List.forall_mem_cons, ← ih, AllHeldIn]

end WireType

namespace FormatBuilder

variable {κ : Type} {held : HeldDefinitions κ}

/-! ## 1. What a builder remembers -/

/-- What was built for an address is the format of the definition there. -/
structure Faithful (held : HeldDefinitions κ) (b : FormatBuilder κ) : Prop where
  messages : ∀ p ∈ b.messages, (held.message? p.1).map MessageTypeOf.format = some p.2
  enums : ∀ p ∈ b.enums, (held.enum? p.1).map EnumType.format = some p.2

/-- With any faithful builder, `x` builds `a` and leaves the builder faithful. -/
def Yields (held : HeldDefinitions κ) {α : Type} (x : Building κ α) (a : α) : Prop :=
  ∀ b, Faithful held b → (x.run b).1 = a ∧ Faithful held (x.run b).2

theorem Yields.pure {α : Type} (a : α) : Yields held (pure a) a :=
  fun _ hb => ⟨rfl, hb⟩

theorem Yields.bind {α β : Type} {x : Building κ α} {f : α → Building κ β} {a : α} {c : β}
    (hx : Yields held x a) (hf : Yields held (f a) c) : Yields held (x >>= f) c := by
  intro b hb
  obtain ⟨ha, hnext⟩ := hx b hb
  have hrest := hf _ hnext
  rw [← ha] at hrest
  exact hrest

theorem Yields.get {α : Type} {f : FormatBuilder κ → Building κ α} {a : α}
    (hf : ∀ b, Faithful held b → Yields held (f b) a) : Yields held (get >>= f) a :=
  fun b hb => hf b hb b hb

theorem Yields.modify {f : FormatBuilder κ → FormatBuilder κ}
    (hf : ∀ b, Faithful held b → Faithful held (f b)) : Yields held (modify f) () :=
  fun b hb => ⟨rfl, hf b hb⟩

variable [DecidableEq κ]

/-! ## 2. What is built -/

theorem enumFormat_yields {address : κ} {e : EnumType} (h : held.enum? address = some e) :
    Yields held (enumFormat address e) e.format := by
  refine Yields.get fun b hb => ?_
  cases hfound : b.enums.lookup address with
  | some format =>
    have hformat := hb.enums _ (mem_of_lookup hfound)
    rw [h] at hformat
    exact Option.some.inj hformat ▸ Yields.pure format
  | none =>
    have hremember : ∀ b, Faithful held b →
        Faithful held { b with enums := (address, e.format) :: b.enums } := fun b hb =>
      ⟨hb.messages, List.forall_mem_cons.mpr ⟨congrArg (Option.map EnumType.format) h, hb.enums⟩⟩
    exact (Yields.modify hremember).bind (Yields.pure _)

-- A field is found among those that are built as it is found among the fields.
theorem find?_fieldBuilds (fields : List Field) (address : Addresses κ) (number : UInt16) :
    (fieldBuilds fields address).find? (·.1 == number) =
      (fields.find? (·.number == number)).map fun f =>
        (f.number, build f.type (address.field f.number)) := by
  induction fields with
  | nil => rfl
  | cons f rest ih =>
    rw [fieldBuilds, List.find?_cons, List.find?_cons, ih]
    cases f.number == number with
    | true => rfl
    | false => rfl

theorem placedFields_yields {fields : List Field} {address : Addresses κ}
    (h : ∀ f ∈ fields, Yields held (build f.type (address.field f.number)) f.type.format)
    (entries : List FieldLayout) :
    Yields held (placedFields (fieldBuilds fields address) entries)
      (MessageType.placedFormats fields entries) := by
  induction entries with
  | nil => exact Yields.pure []
  | cons entry rest ih =>
    rw [placedFields, find?_fieldBuilds, MessageType.placedFormats, List.filterMap_cons]
    cases hfind : fields.find? (·.number == entry.number) with
    | none => exact ih
    | some f =>
      have hf := h f (List.mem_of_find?_eq_some hfind)
      exact hf.bind (ih.bind (Yields.pure _))

/-- A message has the format of its type, if its fields have. -/
theorem message_yields {m : MessageType} {address : Addresses κ} (hmade : m.Made)
    (h : held.message? (address [] m.name) = some m)
    (hfields : ∀ f ∈ m.fields, Yields held (build f.type (address.field f.number)) f.type.format) :
    Yields held (message m address) m.format := by
  have hformat : m.format =
      .ofFields m.name (MessageType.placedFormats m.fields m.layout.entries.toList) := by
    have hm := hmade.consistent
    rw [hm.format_eq, hm.entries_eq, MessageType.placedFormats_placed hm.numbers_nodup
      fun f hf => MessageType.mem_sortedFields.mp hf]
  refine Yields.get fun b hb => ?_
  cases hfound : b.messages.lookup (address [] m.name) with
  | some format =>
    have hformat := hb.messages _ (mem_of_lookup hfound)
    rw [h] at hformat
    exact Option.some.inj hformat ▸ Yields.pure format
  | none =>
    refine (placedFields_yields hfields m.layout.entries.toList).bind ?_
    rw [← hformat]
    have hremember : ∀ b, Faithful held b →
        Faithful held { b with messages := (address [] m.name, m.format) :: b.messages } :=
      fun b hb => ⟨List.forall_mem_cons.mpr ⟨congrArg (Option.map MessageTypeOf.format) h,
        hb.messages⟩, hb.enums⟩
    exact (Yields.modify hremember).bind (Yields.pure _)

/-- What is built is the format of the type, whatever was built before. -/
theorem build_yields {t : WireType} {address : Addresses κ} (hmade : t.Made)
    (h : t.HeldIn held address) : Yields held (build t address) t.format := by
  induction t using WireType.induct generalizing address with
  | scalar t hs =>
    cases t with
    | bool | int | uint => exact Yields.pure _
    | enum e => exact (enumFormat_yields h).bind (Yields.pure _)
    | aliased | array | message => exact absurd hs Bool.false_ne_true
  | aliased name target ih => exact ih hmade h
  | array element capacity ih => exact (ih hmade.1 h).bind (Yields.pure _)
  | message m ih =>
    have hm : m.Made := hmade
    have hfields := fun f hf => ih f hf (hm.field hf) ((WireType.allHeldIn_iff _).mp h.2 f hf)
    exact (message_yields hm h.1 hfields).bind (Yields.pure _)

-- The fields of a message that is held build their formats.
theorem message_yields_of_held {m : MessageType} {address : Addresses κ} (hmade : m.Made)
    (h : WireType.HeldIn held (.message m) address) : Yields held (message m address) m.format :=
  message_yields hmade h.1 fun f hf =>
    build_yields (hmade.field hf) ((WireType.allHeldIn_iff _).mp h.2 f hf)

/-! ## 3. Builders that were used -/

/-- Builders that are new or have built formats. -/
inductive Reachable (held : HeldDefinitions κ) : FormatBuilder κ → Prop
  | new : Reachable held {}
  | build {b : FormatBuilder κ} {t : WireType} {address : Addresses κ} :
      Reachable held b → t.Made → t.HeldIn held address →
        Reachable held ((build t address).run b).2
  | message {b : FormatBuilder κ} {m : MessageType} {address : Addresses κ} :
      Reachable held b → m.Made → WireType.HeldIn held (.message m) address →
        Reachable held ((message m address).run b).2

theorem Reachable.faithful {b : FormatBuilder κ} (h : Reachable held b) : Faithful held b := by
  induction h with
  | new => exact ⟨List.forall_mem_nil _, List.forall_mem_nil _⟩
  | build _ hmade hheld ih => exact (build_yields hmade hheld _ ih).2
  | message _ hmade hheld ih => exact (message_yields_of_held hmade hheld _ ih).2

end FormatBuilder

end Bitwire
