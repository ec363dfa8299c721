import Bitwire.Proofs.ArrayLookups
import Bitwire.Proofs.CursorWalks
import Bitwire.Proofs.TypedMessages

/-!
# Cursor discipline

Every call that a run makes on a message is made for one of the fields of that message: the cursor
shows the number of the field and one index for each of its array levels, each below the capacity of
the level, and nothing of the messages around.  So an accessor that looks up arrays by these indices
never looks past one.
-/

namespace Bitwire

section

variable {m : Type → Type} [Monad m] {α : Type}

/-! ## 1. The discipline -/

open Cursor

/-- The walks over the messages of an accessor keep the cursor.  A value, an element of an array and
a nested message are each left with the cursor that they were entered with, and on the way the
accessor is called at the places of their visits, or of their inspections. -/
structure Accessor.KeepsCursor (A : Accessor m α) : Prop where
  encode_value : ∀ (g : Format) (offset byte : Nat) (s : α),
    Follows (g.encodeAt A offset byte s) fun place =>
      Visit.readAll A (g.visits place offset byte) s
  encode_element : ∀ (g : Format) (i offset byte : Nat) (s : α),
    Follows (atIndex i (g.encodeAt A offset byte s)) fun place =>
      Visit.readAll A (g.visits (place.element i) offset byte) s
  encode_message : ∀ (fields : List FieldFormat) (skip base byte : Nat) (s : α),
    Follows (inMessage (Format.encodeFieldsAt A fields skip base byte s)) fun _ =>
      Visit.readAll A (Format.fieldVisits fields skip base byte) s
  decode_value : ∀ (input : UInt8) (g : Format) (offset byte : Nat) (s : α),
    Follows (g.decodeAt A input offset byte s) fun place =>
      Visit.writeAll A input (g.visits place offset byte) s
  decode_element : ∀ (input : UInt8) (g : Format) (i offset byte : Nat) (s : α),
    Follows (atIndex i (g.decodeAt A input offset byte s)) fun place =>
      Visit.writeAll A input (g.visits (place.element i) offset byte) s
  decode_message : ∀ (input : UInt8) (fields : List FieldFormat) (skip base byte : Nat) (s : α),
    Follows (inMessage (Format.decodeFieldsAt A input fields skip base byte s)) fun _ =>
      Visit.writeAll A input (Format.fieldVisits fields skip base byte) s
  check_value : ∀ (policy : EnumPolicy) (g : Format) (s : α) (path : FieldPath)
    (met : Array UnknownEnum), Follows (g.checkAt A policy s path met) fun place =>
      Inspection.runAll A policy (g.inspections place path) s met
  check_element : ∀ (policy : EnumPolicy) (g : Format) (i : Nat) (s : α) (path : FieldPath)
    (met : Array UnknownEnum), Follows (atIndex i (g.checkAt A policy s path met)) fun place =>
      Inspection.runAll A policy (g.inspections (place.element i) path) s met
  check_message : ∀ (policy : EnumPolicy) (fields : List FieldFormat) (s : α) (path : FieldPath)
    (met : Array UnknownEnum),
      Follows (inMessage (Format.checkFieldsAt A policy fields s path met)) fun _ =>
        Inspection.runAll A policy (Format.fieldInspections fields path) s met

/-- The calls about a field show its number and, for each of its array levels, one index below the
capacity; inside a nested message they are about the fields of that message. -/
structure FieldFormat.CallsAbout (f : FieldFormat) : Prop where
  visits : ∀ offset byte, ∀ visit ∈ f.format.visits ⟨f.number, []⟩ offset byte, visit.About [f]
  inspections : ∀ path, ∀ i ∈ f.format.inspections ⟨f.number, []⟩ path, i.About [f]

/-- Runs over a message make calls about its fields, and do what they do when every call is told its
place. -/
structure MessageFormat.WalksByCursor (f : MessageFormat) (A : Accessor m α) (s : α) : Prop where
  visits : ∀ byte, ∀ visit ∈ f.visits byte, visit.About f.fields.toList
  inspections : ∀ i ∈ f.inspections, i.About f.fields.toList
  encode : f.encodeWithCursor A s = f.encode A s
  decodeInto : ∀ data, f.decodeIntoWithCursor A s data = f.decodeInto A s data
  checkEnums : ∀ policy, f.checkEnumsWithCursor A s policy = f.checkEnums A s policy

/-- Runs over a message never look past one of its arrays when lookups are put before the accessor:
they do what they do without. -/
structure MessageFormat.LooksInside (f : MessageFormat) (A : Accessor m α) (s : α) : Prop where
  encode : f.encodeWithCursor A.indexing (s, f) = ExceptT.lift (f.encodeWithCursor A s)
  decodeInto : ∀ data, f.decodeIntoWithCursor A.indexing (s, f) data = ExceptT.lift (do
    return (← f.decodeIntoWithCursor A s data).map (Except.map fun s' => (s', f)))
  checkEnums : ∀ policy, f.checkEnumsWithCursor A.indexing (s, f) policy =
    ExceptT.lift (f.checkEnumsWithCursor A s policy)

/-- Nor do runs over a typed message: each of them ends with a result. -/
structure TypedMessage.LooksInside (msg : TypedMessage) : Prop where
  encode : ∃ out, msg.format.encodeWithCursor accessor msg = .ok out
  decodeInto : ∀ data, ∃ out, msg.format.decodeIntoWithCursor accessor msg data = .ok out
  checkEnums : ∀ policy, ∃ out, msg.format.checkEnumsWithCursor accessor msg policy = .ok out

section

variable [LawfulMonad m]

theorem Accessor.keepsCursor (A : Accessor m α) : A.KeepsCursor where
  encode_value := Format.encodeAt_follows
  encode_element g i offset byte s := (g.encodeAt_follows offset byte s).atIndex i
  encode_message := Format.encodeMessage_follows
  decode_value _ := Format.decodeAt_follows
  decode_element _ g i offset byte s := (g.decodeAt_follows offset byte s).atIndex i
  decode_message _ := Format.decodeMessage_follows
  check_value _ := Format.checkAt_follows
  check_element _ g i s path met := (g.checkAt_follows s path met).atIndex i
  check_message _ := Format.checkMessage_follows

theorem FieldFormat.callsAbout (f : FieldFormat) : f.CallsAbout where
  visits _ _ := f.format.about_visits (.refl f) _ _
  inspections _ := f.format.about_inspections (.refl f) _

theorem MessageFormat.walksByCursor (f : MessageFormat) (A : Accessor m α) (s : α) :
    f.WalksByCursor A s where
  visits := f.about_visits
  inspections := f.about_inspections
  encode := f.encodeWithCursor_eq s
  decodeInto := f.decodeIntoWithCursor_eq s
  checkEnums := f.checkEnumsWithCursor_eq s

theorem MessageFormat.Orderly.looksInside {f : MessageFormat} (h : f.Orderly) (A : Accessor m α)
    (s : α) : f.LooksInside A s where
  encode := by
    rw [f.encodeWithCursor_eq, f.encodeWithCursor_eq, h.encode_indexing s]
  decodeInto data := by
    rw [f.decodeIntoWithCursor_eq, f.decodeIntoWithCursor_eq, h.decodeInto_indexing s data]
  checkEnums policy := by
    rw [f.checkEnumsWithCursor_eq, f.checkEnumsWithCursor_eq, h.checkEnums_indexing s policy]

theorem TypedMessage.looksInside (msg : TypedMessage) : msg.LooksInside where
  encode := by
    rw [msg.format.encodeWithCursor_eq]
    exact ⟨_, simulates.encode_eq msg⟩
  decodeInto data := by
    obtain ⟨out, hout, -⟩ := simulates.decodeInto_eq msg data
    rw [msg.format.decodeIntoWithCursor_eq]
    exact ⟨out, hout⟩
  checkEnums policy := by
    rw [msg.format.checkEnumsWithCursor_eq]
    exact ⟨_, simulates.checkEnums_eq msg policy⟩

/-- The walks of encoding, decoding and checking keep the cursor, and the calls in between are about
the field that is walked over.  So runs do what they do when every call is told its place, and no run
over a message looks past an array of it, neither with the lookups put before an accessor nor in the
typed messages. -/
theorem Accessor.cursor_discipline (A : Accessor m α) :
    A.KeepsCursor ∧ (∀ f : FieldFormat, f.CallsAbout) ∧
    (∀ (f : MessageFormat) (s : α), f.WalksByCursor A s ∧ (f.Orderly → f.LooksInside A s)) ∧
    ∀ msg : TypedMessage, msg.LooksInside := by
  refine ⟨A.keepsCursor, FieldFormat.callsAbout, fun f s => ?_, TypedMessage.looksInside⟩
  exact ⟨f.walksByCursor A s, fun h => h.looksInside A s⟩

end

end

/-! ## 2. An array of messages with arrays -/

/-- Two units, each with two numbers; the second unit begins in the byte that the first ends in. -/
def fleetFormat : MessageFormat :=
  ⟨"Fleet", #[⟨4, "units", 0, .array (.message
    ⟨"Unit", #[⟨7, "grid", 0, .array (.uint 3) 2⟩], 6⟩) 2⟩], 12⟩

theorem fleetFormat_orderly : fleetFormat.Orderly := by
  simp [fleetFormat, MessageFormat.Orderly, Format.Orderly, Format.AllOrderly]

theorem Accessor.cursor_discipline_fleet :
    fleetFormat.Orderly ∧
    fleetFormat.encodeWithCursor (Accessor.constant 5 true).recording.indexing ((), fleetFormat) =
      ExceptT.lift (fleetFormat.encodeWithCursor (Accessor.constant 5 true).recording ()) ∧
    ((fleetFormat.encodeWithCursor (Accessor.constant 5 true).recording ()).run #[]).run.2 =
      #[.message ⟨4, [0]⟩, .getByte ⟨7, [0]⟩ 0, .getByte ⟨7, [1]⟩ (-3),
        .message ⟨4, [1]⟩, .getByte ⟨7, [0]⟩ (-6),
        .message ⟨4, [1]⟩, .getByte ⟨7, [0]⟩ 2, .getByte ⟨7, [1]⟩ (-1)] := by
  obtain ⟨-, -, hruns, -⟩ := cursor_discipline (Accessor.constant 5 true).recording
  obtain ⟨-, hlookups⟩ := hruns fleetFormat ()
  exact ⟨fleetFormat_orderly, (hlookups fleetFormat_orderly).encode, by cbv⟩

end Bitwire
