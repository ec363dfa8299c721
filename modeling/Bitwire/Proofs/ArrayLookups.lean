import Bitwire.Proofs.CursorPlaces
import Bitwire.Proofs.StoredAddresses
import Bitwire.Typed.Accessor

/-!
# Looking up arrays

Before it touches a value, generated source looks up the arrays of its field, by one index of the
place for each level, and stops the program if an index is missing or too large.  An accessor may do
so in front of any other.  Encoding, decoding and the check of enums never notice, if a message has
one field to a number: they do with it what they do without, and no lookup fails.
-/

namespace Bitwire

namespace Format

/-- The format of the message that a value of this format is. -/
def message? : Format → Option MessageFormat
  | .message m => some m
  | _ => none

theorem Orderly.core {f : Format} (h : f.Orderly) : f.core.Orderly := by
  induction f using Format.induct with
  | scalar f hs => rwa [core_scalar hs]
  | array element capacity ih => exact ih h
  | message m => exact h

end Format

/-! ## 1. Lookups -/

/-- Looks up nested arrays of certain capacities by the indices of a place, from an array level on:
there has to be an index for every array, and it has to be below its capacity. -/
def Place.lookUp (place : Place) : (level : Nat) → (capacities : List Nat) → Except IndexFault Unit
  | _, [] => .ok ()
  | level, capacity :: rest => do
    let i ← place.indexAt level
    if i < capacity then place.lookUp (level + 1) rest else .error (.outOfRange i capacity)

theorem Place.lookUp_append {place : Place} (front : List Nat) {back capacities : List Nat}
    (hplace : place.indices = front ++ back) (h : List.Forall₂ (· < ·) back capacities) :
    place.lookUp front.length capacities = .ok () := by
  induction h generalizing front with
  | nil => rfl
  | @cons i capacity back rest hi hrest ih =>
    have hindex : place.indexAt front.length = .ok i := by
      unfold indexAt index?
      rw [hplace, List.getElem?_append_right (Nat.le_refl _), Nat.sub_self, List.getElem?_cons_zero]
    have hnext := ih (front ++ [i]) (by rw [hplace, List.append_assoc]; rfl)
    rw [List.length_append, List.length_singleton] at hnext
    rw [lookUp, hindex]
    show (if i < capacity then place.lookUp (front.length + 1) rest else _) = _
    rw [if_pos hi, hnext]

/-- A place that leads to a value of a field is looked up in the arrays of the field. -/
theorem PlacedField.Leads.lookUp {f : FieldFormat} {place : Place} {g : Format}
    (h : f.Leads place g) : place.lookUp 0 f.format.capacities = .ok () :=
  Place.lookUp_append [] rfl h.indices

namespace MessageFormat

/-- Looks up the arrays of the field that a place addresses. -/
def lookUp (m : MessageFormat) (place : Place) : Except IndexFault Unit :=
  match m.fields.toList.find? (·.number == place.field) with
  | some f => place.lookUp 0 f.format.capacities
  | none => .ok ()

/-- The format of the messages in the field that a place addresses. -/
def nested? (m : MessageFormat) (place : Place) : Option MessageFormat :=
  match m.fields.toList.find? (·.number == place.field) with
  | some f => f.format.core.message?
  | none => none

variable {m : MessageFormat} (h : m.Orderly)

include h

theorem Orderly.find?_eq {f : FieldFormat} (hf : f ∈ m.fields.toList) :
    m.fields.toList.find? (·.number == f.number) = some f :=
  find?_of_nodup (nodup_of_ascending h.ascending) hf

theorem Orderly.lookUp {f : FieldFormat} {place : Place} {g : Format} (hf : f ∈ m.fields.toList)
    (hleads : f.Leads place g) : m.lookUp place = .ok () := by
  unfold MessageFormat.lookUp
  rw [hleads.field, h.find?_eq hf]
  exact hleads.lookUp

theorem Orderly.nested? {f : FieldFormat} {place : Place} {inner : MessageFormat}
    (hf : f ∈ m.fields.toList) (hleads : f.Leads place (.message inner)) :
    m.nested? place = some inner := by
  unfold MessageFormat.nested?
  rw [hleads.field, h.find?_eq hf]
  show f.format.core.message? = some inner
  rw [hleads.core]
  rfl

/-- The messages in the fields of an orderly message are orderly. -/
theorem Orderly.inner {f : FieldFormat} {place : Place} {inner : MessageFormat}
    (hf : f ∈ m.fields.toList) (hleads : f.Leads place (.message inner)) : inner.Orderly := by
  have hcore := ((Format.allOrderly_iff _).mp h.1 f hf).core
  rw [hleads.core] at hcore
  exact hcore

end MessageFormat

section

variable {m : Type → Type} [Monad m] {α : Type}

/-- Puts a changed message back into a message of format `f`, both held with their formats. -/
def Accessor.putHeld {α : Type} (f : MessageFormat) (put : α → α) (child : α × MessageFormat) :
    α × MessageFormat :=
  (put child.1, f)

/-- The accessor of messages held with their formats that looks up the arrays of the field it is
asked for, before it does what a given one does. -/
def Accessor.indexing (A : Accessor m α) :
    Accessor (ExceptT IndexFault m) (α × MessageFormat) where
  getByte s place shift := do
    ExceptT.mk (pure (s.2.lookUp place))
    ExceptT.lift (A.getByte s.1 place shift)
  setByte s place shift b := do
    ExceptT.mk (pure (s.2.lookUp place))
    return (← ExceptT.lift (A.setByte s.1 place shift b), s.2)
  message? s place := do
    ExceptT.mk (pure (s.2.lookUp place))
    let child ← ExceptT.lift (A.message? s.1 place)
    return child.bind fun c => (s.2.nested? place).map fun inner => (c, inner)
  messageMut? s place := do
    ExceptT.mk (pure (s.2.lookUp place))
    let child ← ExceptT.lift (A.messageMut? s.1 place)
    return child.bind fun c =>
      (s.2.nested? place).map fun inner => ((c.1, inner), putHeld s.2 c.2)

/-! ## 2. Runs -/

variable [LawfulMonad m] {A : Accessor m α} {s : α} {f : MessageFormat} {place : Place}

namespace Accessor

theorem lookUp_bind {β : Type} (hlook : f.lookUp place = .ok ())
    (next : Unit → ExceptT IndexFault m β) :
    (ExceptT.mk (pure (f.lookUp place)) >>= next) = next () := by
  rw [hlook]
  exact pure_bind () next

theorem indexing_getByte (hlook : f.lookUp place = .ok ()) (shift : Int) :
    A.indexing.getByte (s, f) place shift = ExceptT.lift (A.getByte s place shift) :=
  lookUp_bind hlook _

theorem indexing_setByte (hlook : f.lookUp place = .ok ()) (shift : Nat) (b : UInt8) :
    A.indexing.setByte (s, f) place shift b =
      ExceptT.lift (do return (← A.setByte s place shift b, f)) := by
  simp only [ExceptT.lift_bind, ExceptT.lift_pure]
  exact lookUp_bind hlook _

theorem indexing_message? (hlook : f.lookUp place = .ok ()) {inner : MessageFormat}
    (hinner : f.nested? place = some inner) : A.indexing.message? (s, f) place =
      ExceptT.lift (do return (← A.message? s place).map fun c => (c, inner)) := by
  simp only [ExceptT.lift_bind, ExceptT.lift_pure]
  refine (lookUp_bind hlook _).trans (bind_congr fun child => ?_)
  show pure (child.bind fun c => (f.nested? place).map fun inner => (c, inner)) = _
  rw [hinner]
  cases child <;> rfl

theorem indexing_messageMut? (hlook : f.lookUp place = .ok ()) {inner : MessageFormat}
    (hinner : f.nested? place = some inner) : A.indexing.messageMut? (s, f) place =
      ExceptT.lift (do
        return (← A.messageMut? s place).map fun c => ((c.1, inner), putHeld f c.2)) := by
  simp only [ExceptT.lift_bind, ExceptT.lift_pure]
  refine (lookUp_bind hlook _).trans (bind_congr fun child => ?_)
  show pure (child.bind fun c =>
    (f.nested? place).map fun inner => ((c.1, inner), putHeld f c.2)) = _
  rw [hinner]
  cases child <;> rfl

theorem indexing_readPattern (hlook : f.lookUp place = .ok ()) (bits : Nat) :
    A.indexing.readPattern (s, f) place bits = ExceptT.lift (A.readPattern s place bits) := by
  have hread : ∀ (count k : Nat) (pattern : UInt64),
      A.indexing.readBytes (s, f) place count k pattern =
        ExceptT.lift (A.readBytes s place count k pattern) := by
    intro count
    induction count with
    | zero => exact fun k pattern => (ExceptT.lift_pure pattern).symm
    | succ count ih =>
      intro k pattern
      simp only [readBytes, ExceptT.lift_bind, indexing_getByte hlook, ih]
  simp only [readPattern, hread, ExceptT.lift_bind, ExceptT.lift_pure]

end Accessor

-- A list of visits looks up what each of them does.
theorem Visit.readAll_indexing {visits : List Visit}
    (h : ∀ visit ∈ visits, visit.read A.indexing (s, f) = ExceptT.lift (visit.read A s)) :
    readAll A.indexing visits (s, f) = ExceptT.lift (readAll A visits s) := by
  induction visits with
  | nil => simp only [readAll, ExceptT.lift_pure]
  | cons visit rest ih =>
    obtain ⟨hvisit, hrest⟩ := List.forall_mem_cons.mp h
    simp only [readAll, hvisit, ih hrest, ExceptT.lift_bind, ExceptT.lift_pure]

theorem Visit.About.read_indexing {fields : List FieldFormat} {visit : Visit}
    (h : visit.About fields) (hf : f.Orderly) (hfields : f.fields.toList = fields) (s : α) :
    visit.read A.indexing (s, f) = ExceptT.lift (visit.read A s) := by
  induction h generalizing f s with
  | value hg hleads hs =>
    have hlook := hf.lookUp (hfields ▸ hg) hleads
    simp only [read, Accessor.indexing_getByte hlook, ExceptT.lift_bind, ExceptT.lift_pure]
  | message hg hleads hinner ih =>
    subst hfields
    have hlook := hf.lookUp hg hleads
    simp only [read, Accessor.indexing_message? hlook (hf.nested? hg hleads), ExceptT.lift_bind,
      ExceptT.lift_pure, bind_assoc, pure_bind]
    refine bind_congr fun child => ?_
    cases child with
    | none => exact (ExceptT.lift_pure 0).symm
    | some child =>
      exact readAll_indexing fun visit hvisit => ih visit hvisit (hf.inner hg hleads) rfl child

theorem Visit.writeAll_indexing {input : UInt8} {visits : List Visit}
    (h : ∀ visit ∈ visits, ∀ s, visit.write A.indexing input (s, f) =
      ExceptT.lift (do return (← visit.write A input s, f))) (s : α) :
    writeAll A.indexing input visits (s, f) =
      ExceptT.lift (do return (← writeAll A input visits s, f)) := by
  induction visits generalizing s with
  | nil => simp only [writeAll, pure_bind, ExceptT.lift_pure]
  | cons visit rest ih =>
    obtain ⟨hvisit, hrest⟩ := List.forall_mem_cons.mp h
    simp only [writeAll, hvisit, ExceptT.lift_bind, ExceptT.lift_pure, bind_assoc, pure_bind,
      ih hrest]

theorem Visit.About.write_indexing {fields : List FieldFormat} {visit : Visit}
    (h : visit.About fields) (hf : f.Orderly) (hfields : f.fields.toList = fields) (input : UInt8)
    (s : α) : visit.write A.indexing input (s, f) =
      ExceptT.lift (do return (← visit.write A input s, f)) := by
  induction h generalizing f s with
  | value hg hleads hs =>
    have hlook := hf.lookUp (hfields ▸ hg) hleads
    simp only [write, Accessor.indexing_setByte hlook]
  | message hg hleads hinner ih =>
    subst hfields
    have hlook := hf.lookUp hg hleads
    simp only [write, Accessor.indexing_messageMut? hlook (hf.nested? hg hleads), ExceptT.lift_bind,
      ExceptT.lift_pure, bind_assoc, pure_bind]
    refine bind_congr fun child => ?_
    cases child with
    | none => simp only [Option.map_none, ExceptT.lift_pure, pure_bind]
    | some child =>
      have hchild := writeAll_indexing (A := A)
        (fun visit hvisit => ih visit hvisit (hf.inner hg hleads) rfl) child.1
      simp only [Option.map_some, hchild, Accessor.putHeld, ExceptT.lift_bind, ExceptT.lift_pure,
        bind_assoc, pure_bind]

theorem Inspection.runAll_indexing {policy : EnumPolicy} {inspections : List Inspection}
    (h : ∀ i ∈ inspections, ∀ met, (i.run A.indexing policy (s, f) met).run =
      ExceptT.lift (i.run A policy s met).run) (met : Array UnknownEnum) :
    (runAll A.indexing policy inspections (s, f) met).run =
      ExceptT.lift (runAll A policy inspections s met).run := by
  induction inspections generalizing met with
  | nil =>
    simp only [runAll, ExceptT.run_pure, ExceptT.lift_pure]
  | cons i rest ih =>
    obtain ⟨hi, hrest⟩ := List.forall_mem_cons.mp h
    simp only [runAll, ExceptT.run_bind, hi, ExceptT.lift_bind]
    refine bind_congr fun result => ?_
    cases result with
    | ok met => exact ih hrest met
    | error fault => exact (ExceptT.lift_pure _).symm

theorem Inspection.About.run_indexing {policy : EnumPolicy} {fields : List FieldFormat}
    {i : Inspection} (h : i.About fields) (hf : f.Orderly) (hfields : f.fields.toList = fields)
    (s : α) (met : Array UnknownEnum) : (i.run A.indexing policy (s, f) met).run =
      ExceptT.lift (i.run A policy s met).run := by
  induction h generalizing f s met with
  | value hg hleads =>
    have hlook := hf.lookUp (hfields ▸ hg) hleads
    simp only [run, Accessor.indexing_readPattern hlook, ExceptT.run_bind_lift, ExceptT.lift_bind]
    refine bind_congr fun value => ?_
    split <;> exact (ExceptT.lift_pure (m := m) _).symm
  | message hg hleads hinner ih =>
    subst hfields
    have hlook := hf.lookUp hg hleads
    simp only [run, Accessor.indexing_message? hlook (hf.nested? hg hleads), ExceptT.run_bind_lift,
      ExceptT.lift_bind, ExceptT.lift_pure, bind_assoc, pure_bind]
    refine bind_congr fun child => ?_
    cases child with
    | none => exact (ExceptT.lift_pure (m := m) (Except.ok met)).symm
    | some child =>
      exact runAll_indexing (fun i hi => ih i hi (hf.inner hg hleads) rfl child) met

namespace MessageFormat.Orderly

variable (h : f.Orderly)

include h

theorem encode_indexing (s : α) :
    f.encode A.indexing (s, f) = ExceptT.lift (f.encode A s) := by
  have hbyte : ∀ byte, f.encodeByte A.indexing (s, f) byte = ExceptT.lift (f.encodeByte A s byte) :=
    fun byte => Visit.readAll_indexing fun visit hvisit =>
      (f.about_visits byte visit hvisit).read_indexing h rfl s
  have hfrom : ∀ (count byte : Nat) (out : Array UInt8),
      f.encodeFrom A.indexing (s, f) count byte out =
        ExceptT.lift (f.encodeFrom A s count byte out) := by
    intro count
    induction count with
    | zero => exact fun byte out => (ExceptT.lift_pure out).symm
    | succ count ih =>
      intro byte out
      simp only [encodeFrom, hbyte, ih, ExceptT.lift_bind]
  simp only [encode, encodeBytes, hfrom, ExceptT.lift_bind, ExceptT.lift_pure]

theorem decodeInto_indexing (s : α) (data : List UInt8) :
    f.decodeInto A.indexing (s, f) data = ExceptT.lift (do
      return (← f.decodeInto A s data).map (Except.map fun s' => (s', f))) := by
  have hfrom : ∀ (data : List UInt8) (byte : Nat) (s : α),
      f.decodeFrom A.indexing data byte (s, f) =
        ExceptT.lift (do return (← f.decodeFrom A data byte s, f)) := by
    intro data
    induction data with
    | nil =>
      intro byte s
      simp only [decodeFrom, pure_bind, ExceptT.lift_pure]
    | cons input rest ih =>
      intro byte s
      have hbyte := Visit.writeAll_indexing (A := A)
        (fun visit hvisit => (f.about_visits byte visit hvisit).write_indexing h rfl input) s
      simp only [decodeFrom, hbyte, ih, ExceptT.lift_bind, ExceptT.lift_pure, bind_assoc, pure_bind]
  unfold decodeInto
  split
  next => simp only [pure_bind, ExceptT.lift_pure]; rfl
  next =>
    simp only [hfrom, ExceptT.lift_bind, ExceptT.lift_pure, bind_assoc, pure_bind]
    rfl

theorem checkEnums_indexing (s : α) (policy : EnumPolicy) :
    f.checkEnums A.indexing (s, f) policy = ExceptT.lift (f.checkEnums A s policy) := by
  have hfields : Format.checkFieldEnums A.indexing policy f.fields.toList (s, f) .root #[] =
      ExceptT.lift (Format.checkFieldEnums A policy f.fields.toList s .root #[]) := by
    have hall : ∀ i ∈ f.inspections, ∀ met, (i.run A.indexing policy (s, f) met).run =
        ExceptT.lift (i.run A policy s met).run :=
      fun i hi => (f.about_inspections i hi).run_indexing h rfl s
    have hrun := Inspection.runAll_indexing hall #[]
    rw [← f.checkFieldEnums_root, ← f.checkFieldEnums_root] at hrun
    exact hrun
  simp only [checkEnums, hfields, ExceptT.lift_bind]
  refine bind_congr fun result => ?_
  cases result <;> exact (ExceptT.lift_pure _).symm

end MessageFormat.Orderly

end

end Bitwire
