import Bitwire.Codec.EnumCheck
import Bitwire.Proofs.Leaves

/-!
# What the check of enums looks at

Which values the check of enums reads, and which nested messages it enters, is known from the format
before the message is seen: a list of inspections, a nested message being one inspection with
inspections of its own.  The check carries them out in order until one of them ends it.
-/

namespace Bitwire

/-- What the check of enums does in a message. -/
inductive Inspection where
  /-- Reads a value whose enum is not extensible. -/
  | value (place : Place) (path : FieldPath) (e : EnumFormat)
  /-- Enters the nested message at a place. -/
  | message (place : Place) (inner : List Inspection)

namespace Format

mutual

/-- The inspections of a value of a format. -/
def inspections : Format → Place → FieldPath → List Inspection
  | .enum e, place, path => if e.extensible then [] else [.value place path e]
  | .array element capacity, place, path =>
    (List.range' 0 capacity).flatMap fun i =>
      element.inspections (place.element i) (path.index i)
  | .message ⟨_, ⟨fields⟩, _⟩, place, path => [.message place (fieldInspections fields path)]
  | .bool, _, _ => []
  | .int _, _, _ => []
  | .uint _, _, _ => []

/-- The inspections of the fields of a message, of those that hold a closed enum. -/
def fieldInspections : List FieldFormat → FieldPath → List Inspection
  | [], _ => []
  | ⟨number, name, _, format⟩ :: rest, path =>
    if format.hasClosedEnum then
      format.inspections ⟨number, []⟩ (path.field name) ++ fieldInspections rest path
    else fieldInspections rest path

end

-- The inspections of fields are those of one of them.
theorem mem_fieldInspections {fields : List FieldFormat} {path : FieldPath} {i : Inspection}
    (h : i ∈ fieldInspections fields path) :
    ∃ f ∈ fields, i ∈ f.format.inspections ⟨f.number, []⟩ (path.field f.name) := by
  induction fields with
  | nil =>
    rw [fieldInspections] at h
    exact absurd h List.not_mem_nil
  | cons f rest ih =>
    rw [fieldInspections] at h
    split at h
    next =>
      obtain hi | hi := List.mem_append.mp h
      · exact ⟨f, List.mem_cons_self, hi⟩
      · obtain ⟨g, hg, hi⟩ := ih hi
        exact ⟨g, List.mem_cons_of_mem _ hg, hi⟩
    next =>
      obtain ⟨g, hg, hi⟩ := ih h
      exact ⟨g, List.mem_cons_of_mem _ hg, hi⟩

end Format

/-- The inspections of a message. -/
def MessageFormat.inspections (f : MessageFormat) : List Inspection :=
  Format.fieldInspections f.fields.toList .root

section

variable {m : Type → Type} [Monad m] {α : Type} (A : Accessor m α) (policy : EnumPolicy)

namespace Inspection

mutual

/-- Carries out an inspection.  `met` are the faults met before; the answer has the new ones behind
them, or is the fault that ends the check. -/
def run : Inspection → α → (met : Array UnknownEnum) → ExceptT UnknownEnum m (Array UnknownEnum)
  | .value place path e, s, met => do
    let value ← ExceptT.lift (A.readPattern s place e.bits)
    if e.contains value then return met
    else ExceptT.mk (pure (policy.meet met ⟨path, e.name, value⟩))
  | .message place inner, s, met => do
    match ← ExceptT.lift (A.message? s place) with
    | some child => runAll inner child met
    | none => return met

/-- Carries out one inspection after the other. -/
def runAll : List Inspection → α → (met : Array UnknownEnum) →
    ExceptT UnknownEnum m (Array UnknownEnum)
  | [], _, met => return met
  | inspection :: rest, s, met => do runAll rest s (← inspection.run s met)

end

variable [LawfulMonad m] {A policy}

theorem runAll_append (xs ys : List Inspection) (s : α) (met : Array UnknownEnum) :
    runAll A policy (xs ++ ys) s met =
      runAll A policy xs s met >>= fun met => runAll A policy ys s met := by
  induction xs generalizing met with
  | nil => rw [List.nil_append, runAll, pure_bind]
  | cons x rest ih =>
    rw [List.cons_append, runAll, runAll, bind_assoc]
    exact bind_congr fun met => ih met

theorem runAll_singleton (inspection : Inspection) (s : α) (met : Array UnknownEnum) :
    runAll A policy [inspection] s met = inspection.run A policy s met := by
  rw [runAll]
  simp only [runAll]
  exact bind_pure _

end Inspection

/-! ## The check carries out the inspections -/

variable [LawfulMonad m]

-- The steps of a loop that may end are those of the elements.
theorem mk_stepThrough {step : Nat → Array UnknownEnum → m (Except UnknownEnum (Array UnknownEnum))}
    {g : Nat → List Inspection} {s : α}
    (h : ∀ i met, ExceptT.mk (step i met) = Inspection.runAll A policy (g i) s met)
    (count i : Nat) (met : Array UnknownEnum) :
    ExceptT.mk (stepThrough step count i met) =
      Inspection.runAll A policy ((List.range' i count).flatMap g) s met := by
  induction count generalizing i met with
  | zero =>
    rw [stepThrough, List.range'_zero, List.flatMap_nil, Inspection.runAll]
    rfl
  | succ count ih =>
    rw [stepThrough, List.range'_succ, List.flatMap_cons, Inspection.runAll_append, ← h]
    refine congrArg ExceptT.mk (bind_congr fun result => ?_)
    cases result with
    | ok met => exact ih (i + 1) met
    | error fault => rfl

theorem checkFieldEnums_eq_runAll {fields : List FieldFormat} {s : α}
    (hfields : ∀ f ∈ fields, ∀ place path met,
      ExceptT.mk (f.format.checkEnums A policy s place path met) =
        Inspection.runAll A policy (f.format.inspections place path) s met)
    (path : FieldPath) (met : Array UnknownEnum) :
    ExceptT.mk (Format.checkFieldEnums A policy fields s path met) =
      Inspection.runAll A policy (Format.fieldInspections fields path) s met := by
  induction fields generalizing met with
  | nil =>
    rw [Format.checkFieldEnums, Format.fieldInspections, Inspection.runAll]
    rfl
  | cons f rest ih =>
    obtain ⟨hf, hrest⟩ := List.forall_mem_cons.mp hfields
    rw [Format.checkFieldEnums, Format.fieldInspections]
    split
    next =>
      rw [Inspection.runAll_append, ← hf]
      refine congrArg ExceptT.mk (bind_congr fun result => ?_)
      cases result with
      | ok met => exact ih hrest met
      | error fault => rfl
    next => exact ih hrest met

theorem Format.checkEnums_eq_runAll (f : Format) (s : α) (place : Place) (path : FieldPath)
    (met : Array UnknownEnum) : ExceptT.mk (f.checkEnums A policy s place path met) =
      Inspection.runAll A policy (f.inspections place path) s met := by
  induction f using Format.induct generalizing s place path met with
  | scalar f hs =>
    cases f with
    | enum e =>
      rw [Format.checkEnums, Format.inspections]
      split
      next =>
        rw [Inspection.runAll]
        rfl
      next =>
        rw [Inspection.runAll_singleton, Inspection.run]
        refine ExceptT.ext ?_
        rw [ExceptT.run_bind_lift]
        refine bind_congr fun value => ?_
        split <;> rfl
    | bool | int | uint =>
      rw [Format.checkEnums, Format.inspections, Inspection.runAll]
      rfl
    | array | message => exact absurd hs Bool.false_ne_true
  | array element capacity ih =>
    rw [Format.checkEnums, Format.inspections]
    exact mk_stepThrough A policy (fun i met => ih s (place.element i) (path.index i) met) capacity 0 met
  | message inner ih =>
    rw [Format.checkEnums, Format.inspections, Inspection.runAll_singleton, Inspection.run]
    refine ExceptT.ext ?_
    rw [ExceptT.run_bind_lift]
    refine bind_congr fun child => ?_
    cases child with
    | none => rfl
    | some child => exact checkFieldEnums_eq_runAll A policy (fun f hf => ih f hf child) path met

/-- The check of a message carries out its inspections. -/
theorem MessageFormat.checkFieldEnums_root (f : MessageFormat) (s : α) :
    ExceptT.mk (Format.checkFieldEnums A policy f.fields.toList s .root #[]) =
      Inspection.runAll A policy f.inspections s #[] :=
  checkFieldEnums_eq_runAll A policy (fun g _ => g.format.checkEnums_eq_runAll A policy s) .root #[]

end

end Bitwire
