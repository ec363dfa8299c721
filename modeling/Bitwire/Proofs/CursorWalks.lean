import Bitwire.Codec.Cursor
import Bitwire.Proofs.EnumInspections

/-!
# The cursor comes back

The walk over a value pushes an index for every element that it visits, and the walk over a nested
message opens a frame.  Each gives back what it took: whatever the accessor answers, the walk over a
value ends with the cursor that it started from, and every call in between is made at the place
that the visit of the value names.
-/

namespace Bitwire

namespace Cursor

/-! ## 1. Moves of the cursor -/

section

variable (c : Cursor) (i : Nat)

theorem popIndex_pushIndex : (c.pushIndex i).popIndex = c := by
  unfold pushIndex popIndex
  rw [List.dropLast_concat]

/-- An index that is pushed is one of the message at hand. -/
theorem place_pushIndex (h : c.base ≤ c.indices.length) :
    (c.pushIndex i).place = c.place.element i := by
  unfold place pushIndex Place.element
  rw [List.drop_append_of_le_length h]

theorem base_pushIndex (h : c.base ≤ c.indices.length) :
    (c.pushIndex i).base ≤ (c.pushIndex i).indices.length := by
  show c.base ≤ (c.indices ++ [i]).length
  rw [List.length_append]
  omega

/-- Where a message begins, no index of it is entered. -/
theorem place_setField (number : UInt16) (h : c.base = c.indices.length) :
    (c.setField number).place = ⟨number, []⟩ := by
  show Place.mk number (c.indices.drop c.base) = _
  rw [h, List.drop_length]

/-- A message is left with the indices that it was entered with, whichever of its fields was the
last. -/
theorem leaveMessage_enterMessage (number : UInt16) :
    (c.enterMessage.setField number).leaveMessage c.frame = c := by
  show Cursor.mk c.field (c.indices.take c.indices.length) c.base = c
  rw [List.take_length]

end

/-! ## 2. Walks -/

section

variable {m : Type → Type} [Monad m] {β γ : Type}

/-- A walk that does, at the place that the cursor shows, what it is said to do, and brings the
cursor back. -/
def Follows (walk : StateT Cursor m β) (spec : Place → m β) : Prop :=
  ∀ c : Cursor, c.base ≤ c.indices.length → walk.run c = (fun b => (b, c)) <$> spec c.place

/-- A walk over fields of a message, none of whose indices is entered: it brings back all of the
cursor but its field, which is some function of what it was. -/
def Tours (walk : StateT Cursor m β) (last : UInt16 → UInt16) (spec : m β) : Prop :=
  ∀ c : Cursor, c.base = c.indices.length →
    walk.run c = (fun b => (b, c.setField (last c.field))) <$> spec

variable [LawfulMonad m] {walk : StateT Cursor m β} {next : β → StateT Cursor m γ}

namespace Follows

theorem pure (b : β) : Follows (Pure.pure b : StateT Cursor m β) fun _ => Pure.pure b := by
  intro c _
  rw [StateT.run_pure, map_pure]

theorem call (op : Place → m β) : Follows (Cursor.call op) op := by
  intro c _
  unfold Cursor.call
  rw [StateT.run_bind, StateT.run_get, pure_bind, StateT.run_monadLift, bind_pure_comp]
  rfl

theorem lift (x : m β) : Follows (StateT.lift x : StateT Cursor m β) fun _ => x := by
  intro c _
  rw [StateT.run_lift, bind_pure_comp]

theorem bind {spec : Place → m β} {spec' : β → Place → m γ} (h : Follows walk spec)
    (hnext : ∀ b, Follows (next b) (spec' b)) :
    Follows (walk >>= next) fun place => spec place >>= fun b => spec' b place := by
  intro c hc
  rw [StateT.run_bind, h c hc, bind_map_left, map_bind]
  exact bind_congr fun b => hnext b c hc

/-- The walk over an element is that at the place of the element. -/
theorem atIndex {spec : Place → m β} (h : Follows walk spec) (i : Nat) :
    Follows (Cursor.atIndex i walk) fun place => spec (place.element i) := by
  intro c hc
  have hrun := h (c.pushIndex i) (c.base_pushIndex i hc)
  rw [c.place_pushIndex i hc] at hrun
  unfold Cursor.atIndex
  rw [StateT.run_bind, StateT.run_modify, pure_bind, StateT.run_bind, hrun, bind_map_left,
    map_eq_pure_bind]
  refine bind_congr fun b => ?_
  rw [StateT.run_bind, StateT.run_modify, pure_bind, popIndex_pushIndex, StateT.run_pure]

end Follows

namespace Tours

theorem pure (b : β) : Tours (Pure.pure b : StateT Cursor m β) id (Pure.pure b) := by
  intro c _
  rw [StateT.run_pure, map_pure]
  rfl

theorem bind {spec : m β} {spec' : β → m γ} {last last' : UInt16 → UInt16}
    (h : Tours walk last spec) (hnext : ∀ b, Tours (next b) last' (spec' b)) :
    Tours (walk >>= next) (last' ∘ last) (spec >>= spec') := by
  intro c hc
  rw [StateT.run_bind, h c hc, bind_map_left, map_bind]
  exact bind_congr fun b => hnext b (c.setField (last c.field)) hc

/-- The walk over a field begins at the place of the field. -/
theorem field {spec : Place → m β} (h : Follows walk spec) (number : UInt16) :
    Tours (do modify (·.setField number); walk) (fun _ => number) (spec ⟨number, []⟩) := by
  intro c hc
  rw [StateT.run_bind, StateT.run_modify, pure_bind, h (c.setField number) (Nat.le_of_eq hc),
    c.place_setField number hc]

/-- A nested message is left with the cursor that it was entered with. -/
theorem inMessage {spec : m β} {last : UInt16 → UInt16} (h : Tours walk last spec) :
    Follows (Cursor.inMessage walk) fun _ => spec := by
  intro c _
  unfold Cursor.inMessage
  rw [StateT.run_bind, StateT.run_get, pure_bind, StateT.run_bind, StateT.run_modify, pure_bind,
    StateT.run_bind, h c.enterMessage rfl, bind_map_left, map_eq_pure_bind]
  refine bind_congr fun b => ?_
  rw [StateT.run_bind, StateT.run_modify, pure_bind, leaveMessage_enterMessage, StateT.run_pure]

end Tours

end

end Cursor

section

variable {m : Type → Type} [Monad m] [LawfulMonad m] {α : Type} {A : Accessor m α}

/-! ## 3. Encoding -/

namespace Visit

theorem readAll_append (xs ys : List Visit) (s : α) : readAll A (xs ++ ys) s = do
    let first ← readAll A xs s
    let others ← readAll A ys s
    return first ||| others := by
  induction xs with
  | nil =>
    rw [List.nil_append, readAll, pure_bind]
    simp only [UInt8.zero_or]
    exact (bind_pure _).symm
  | cons x rest ih =>
    rw [List.cons_append, readAll, readAll, ih]
    simp only [bind_assoc, pure_bind, UInt8.or_assoc]

theorem readAll_singleton (visit : Visit) (s : α) : readAll A [visit] s = visit.read A s := by
  rw [readAll]
  simp only [readAll, pure_bind, UInt8.or_zero]
  exact bind_pure _

end Visit

open Cursor

namespace Format

theorem encodeScalarAt_follows (width offset byte : Nat) (s : α) :
    Follows (encodeScalarAt A width offset byte s) fun place =>
      Visit.readAll A (Visit.ofLeaf width place offset byte) s := by
  unfold encodeScalarAt Visit.ofLeaf
  cases ByteSpan.of? offset width byte with
  | some span =>
    simp only [Visit.readAll_singleton, Visit.read]
    exact (Follows.call _).bind fun b => .pure _
  | none =>
    simp only [Visit.readAll]
    exact .pure 0

-- What is or-ed together over the elements is what their visits contribute.
theorem orEach_follows {walk : Nat → StateT Cursor m UInt8} {visits : Place → Nat → List Visit}
    {s : α} (h : ∀ i, Follows (walk i) fun place => Visit.readAll A (visits place i) s)
    (is : List Nat) :
    Follows (orEach walk is) fun place => Visit.readAll A (is.flatMap (visits place)) s := by
  induction is with
  | nil =>
    simp only [orEach, List.flatMap_nil, Visit.readAll]
    exact .pure 0
  | cons i rest ih =>
    simp only [orEach, List.flatMap_cons, Visit.readAll_append]
    exact (h i).bind fun first => ih.bind fun others => .pure _

theorem encodeFieldsAt_tours {fields : List FieldFormat}
    (hfields : ∀ f ∈ fields, ∀ (offset byte : Nat) (s : α),
      Follows (f.format.encodeAt A offset byte s) fun place =>
        Visit.readAll A (f.format.visits place offset byte) s)
    (skip base byte : Nat) : ∃ last, ∀ s : α, Tours (encodeFieldsAt A fields skip base byte s) last
      (Visit.readAll A (fieldVisits fields skip base byte) s) := by
  induction fields generalizing skip with
  | nil =>
    refine ⟨id, fun s => ?_⟩
    rw [encodeFieldsAt, fieldVisits, Visit.readAll]
    exact .pure 0
  | cons f rest ih =>
    obtain ⟨hf, hrest⟩ := List.forall_mem_cons.mp hfields
    cases skip with
    | succ skip =>
      simp only [encodeFieldsAt, fieldVisits]
      exact ih hrest skip
    | zero =>
      simp only [encodeFieldsAt, fieldVisits]
      split
      next =>
        refine ⟨id, fun s => ?_⟩
        rw [Visit.readAll]
        exact .pure 0
      next =>
        obtain ⟨last, hlast⟩ := ih hrest 0
        refine ⟨last ∘ fun _ => f.number, fun s => ?_⟩
        rw [Visit.readAll_append]
        have hfield := Tours.field (hf (base + f.offset) byte s) f.number
        have hboth := hfield.bind fun first => (hlast s).bind fun others => Tours.pure (first ||| others)
        simp only [bind_assoc] at hboth
        exact hboth

theorem encodeAt_follows (f : Format) (offset byte : Nat) (s : α) :
    Follows (f.encodeAt A offset byte s) fun place =>
      Visit.readAll A (f.visits place offset byte) s := by
  induction f using Format.induct generalizing offset byte s with
  | scalar f hs =>
    cases f with
    | bool | int | uint | enum =>
      simp only [encodeAt, visits]
      exact encodeScalarAt_follows _ offset byte s
    | array | message => exact absurd hs Bool.false_ne_true
  | array element capacity ih =>
    simp only [encodeAt, visits]
    exact orEach_follows (fun i => (ih (offset + element.elementOffset i) byte s).atIndex i) _
  | message inner ih =>
    simp only [encodeAt, visits, Visit.readAll_singleton, Visit.read]
    refine (Follows.call _).bind fun child => ?_
    cases child with
    | none => exact .pure 0
    | some child =>
      obtain ⟨last, hlast⟩ := encodeFieldsAt_tours ih (inner.endedBefore (8 * byte - offset)) offset byte
      exact (hlast child).inMessage

/-- The walk over a message, wherever it is nested. -/
theorem encodeMessage_follows (fields : List FieldFormat) (skip base byte : Nat) (s : α) :
    Follows (inMessage (encodeFieldsAt A fields skip base byte s)) fun _ =>
      Visit.readAll A (fieldVisits fields skip base byte) s := by
  have hfields : ∀ f ∈ fields, ∀ (offset byte : Nat) (s : α),
      Follows (f.format.encodeAt A offset byte s) fun place =>
        Visit.readAll A (f.format.visits place offset byte) s :=
    fun f _ => f.format.encodeAt_follows
  obtain ⟨last, hlast⟩ := encodeFieldsAt_tours hfields skip base byte
  exact (hlast s).inMessage

end Format

/-! ## 4. Decoding -/

namespace Visit

theorem writeAll_append (input : UInt8) (xs ys : List Visit) (s : α) :
    writeAll A input (xs ++ ys) s =
      writeAll A input xs s >>= fun s => writeAll A input ys s := by
  induction xs generalizing s with
  | nil => rw [List.nil_append, writeAll, pure_bind]
  | cons x rest ih =>
    rw [List.cons_append, writeAll, writeAll, bind_assoc]
    exact bind_congr fun s => ih s

theorem writeAll_singleton (input : UInt8) (visit : Visit) (s : α) :
    writeAll A input [visit] s = visit.write A input s := by
  rw [writeAll]
  simp only [writeAll]
  exact bind_pure _

end Visit

namespace Format

variable {input : UInt8}

theorem decodeScalarAt_follows (width offset byte : Nat) (s : α) :
    Follows (decodeScalarAt A input width offset byte s) fun place =>
      Visit.writeAll A input (Visit.ofLeaf width place offset byte) s := by
  unfold decodeScalarAt Visit.ofLeaf
  cases ByteSpan.of? offset width byte with
  | some span =>
    simp only [Visit.writeAll_singleton, Visit.write]
    exact .call _
  | none =>
    simp only [Visit.writeAll]
    exact .pure s

-- Going over the elements makes of a message what their visits make of it.
theorem foldlM_follows {walk : Nat → α → StateT Cursor m α} {visits : Place → Nat → List Visit}
    (h : ∀ i s, Follows (walk i s) fun place => Visit.writeAll A input (visits place i) s)
    (is : List Nat) (s : α) : Follows (is.foldlM (fun s i => walk i s) s) fun place =>
      Visit.writeAll A input (is.flatMap (visits place)) s := by
  induction is generalizing s with
  | nil =>
    simp only [List.foldlM_nil, List.flatMap_nil, Visit.writeAll]
    exact .pure s
  | cons i rest ih =>
    simp only [List.foldlM_cons, List.flatMap_cons, Visit.writeAll_append]
    exact (h i s).bind fun s => ih s

theorem decodeFieldsAt_tours {fields : List FieldFormat}
    (hfields : ∀ f ∈ fields, ∀ (offset byte : Nat) (s : α),
      Follows (f.format.decodeAt A input offset byte s) fun place =>
        Visit.writeAll A input (f.format.visits place offset byte) s)
    (skip base byte : Nat) : ∃ last, ∀ s : α,
      Tours (decodeFieldsAt A input fields skip base byte s) last
        (Visit.writeAll A input (fieldVisits fields skip base byte) s) := by
  induction fields generalizing skip with
  | nil =>
    refine ⟨id, fun s => ?_⟩
    rw [decodeFieldsAt, fieldVisits, Visit.writeAll]
    exact .pure s
  | cons f rest ih =>
    obtain ⟨hf, hrest⟩ := List.forall_mem_cons.mp hfields
    cases skip with
    | succ skip =>
      simp only [decodeFieldsAt, fieldVisits]
      exact ih hrest skip
    | zero =>
      simp only [decodeFieldsAt, fieldVisits]
      split
      next =>
        refine ⟨id, fun s => ?_⟩
        rw [Visit.writeAll]
        exact .pure s
      next =>
        obtain ⟨last, hlast⟩ := ih hrest 0
        refine ⟨last ∘ fun _ => f.number, fun s => ?_⟩
        rw [Visit.writeAll_append]
        have hfield := Tours.field (hf (base + f.offset) byte s) f.number
        have hboth := hfield.bind hlast
        rw [bind_assoc] at hboth
        exact hboth

theorem decodeAt_follows (f : Format) (offset byte : Nat) (s : α) :
    Follows (f.decodeAt A input offset byte s) fun place =>
      Visit.writeAll A input (f.visits place offset byte) s := by
  induction f using Format.induct generalizing offset byte s with
  | scalar f hs =>
    cases f with
    | bool | int | uint | enum =>
      simp only [decodeAt, visits]
      exact decodeScalarAt_follows _ offset byte s
    | array | message => exact absurd hs Bool.false_ne_true
  | array element capacity ih =>
    simp only [decodeAt, visits]
    exact foldlM_follows
      (fun i s => (ih (offset + element.elementOffset i) byte s).atIndex i) _ s
  | message inner ih =>
    simp only [decodeAt, visits, Visit.writeAll_singleton, Visit.write]
    refine (Follows.call _).bind fun child => ?_
    cases child with
    | none => exact .pure s
    | some child =>
      obtain ⟨last, hlast⟩ := decodeFieldsAt_tours ih (inner.endedBefore (8 * byte - offset)) offset byte
      exact (hlast child.1).inMessage.bind fun child' => .pure _

theorem decodeMessage_follows (fields : List FieldFormat) (skip base byte : Nat) (s : α) :
    Follows (inMessage (decodeFieldsAt A input fields skip base byte s)) fun _ =>
      Visit.writeAll A input (fieldVisits fields skip base byte) s := by
  have hfields : ∀ f ∈ fields, ∀ (offset byte : Nat) (s : α),
      Follows (f.format.decodeAt A input offset byte s) fun place =>
        Visit.writeAll A input (f.format.visits place offset byte) s :=
    fun f _ => f.format.decodeAt_follows
  obtain ⟨last, hlast⟩ := decodeFieldsAt_tours hfields skip base byte
  exact (hlast s).inMessage

end Format

/-! ## 5. Checking enums -/

namespace Format

variable {policy : EnumPolicy}

-- Going over the indices of an array carries out the inspections of its elements.
theorem eachIndex_follows
    {walk : Nat → Array UnknownEnum → StateT Cursor (ExceptT UnknownEnum m) (Array UnknownEnum)}
    {inspections : Place → Nat → List Inspection} {s : α}
    (h : ∀ i met, Follows (walk i met) fun place =>
      Inspection.runAll A policy (inspections place i) s met)
    (count i : Nat) (met : Array UnknownEnum) : Follows (eachIndex walk count i met) fun place =>
      Inspection.runAll A policy ((List.range' i count).flatMap (inspections place)) s met := by
  induction count generalizing i met with
  | zero =>
    simp only [eachIndex, List.range'_zero, List.flatMap_nil, Inspection.runAll]
    exact .pure met
  | succ count ih =>
    simp only [eachIndex, List.range'_succ, List.flatMap_cons, Inspection.runAll_append]
    exact (h i met).bind fun met => ih (i + 1) met

theorem checkFieldsAt_tours {fields : List FieldFormat}
    (hfields : ∀ f ∈ fields, ∀ (s : α) (path : FieldPath) (met : Array UnknownEnum),
      Follows (f.format.checkAt A policy s path met) fun place =>
        Inspection.runAll A policy (f.format.inspections place path) s met)
    (path : FieldPath) : ∃ last, ∀ (s : α) (met : Array UnknownEnum),
      Tours (checkFieldsAt A policy fields s path met) last
        (Inspection.runAll A policy (fieldInspections fields path) s met) := by
  induction fields with
  | nil =>
    refine ⟨id, fun s met => ?_⟩
    rw [checkFieldsAt, fieldInspections, Inspection.runAll]
    exact .pure met
  | cons f rest ih =>
    obtain ⟨hf, hrest⟩ := List.forall_mem_cons.mp hfields
    obtain ⟨last, hlast⟩ := ih hrest
    simp only [checkFieldsAt, fieldInspections]
    split
    next =>
      refine ⟨last ∘ fun _ => f.number, fun s met => ?_⟩
      rw [Inspection.runAll_append]
      have hfield := Tours.field (hf s (path.field f.name) met) f.number
      have hboth := hfield.bind (hlast s)
      rw [bind_assoc] at hboth
      exact hboth
    next => exact ⟨last, hlast⟩

theorem checkAt_follows (f : Format) (s : α) (path : FieldPath) (met : Array UnknownEnum) :
    Follows (f.checkAt A policy s path met) fun place =>
      Inspection.runAll A policy (f.inspections place path) s met := by
  induction f using Format.induct generalizing s path met with
  | scalar f hs =>
    cases f with
    | enum e =>
      simp only [checkAt, inspections]
      split
      next =>
        simp only [Inspection.runAll]
        exact .pure met
      next =>
        simp only [Inspection.runAll_singleton, Inspection.run]
        refine (Follows.call _).bind fun value => ?_
        split
        next => exact .pure met
        next => exact .lift _
    | bool | int | uint =>
      simp only [checkAt, inspections, Inspection.runAll]
      exact .pure met
    | array | message => exact absurd hs Bool.false_ne_true
  | array element capacity ih =>
    simp only [checkAt, inspections]
    exact eachIndex_follows (fun i met => (ih s (path.index i) met).atIndex i) capacity 0 met
  | message inner ih =>
    simp only [checkAt, inspections, Inspection.runAll_singleton, Inspection.run]
    refine (Follows.call _).bind fun child => ?_
    cases child with
    | none => exact .pure met
    | some child =>
      obtain ⟨last, hlast⟩ := checkFieldsAt_tours ih path
      exact (hlast child met).inMessage

theorem checkMessage_follows (fields : List FieldFormat) (s : α) (path : FieldPath)
    (met : Array UnknownEnum) : Follows (inMessage (checkFieldsAt A policy fields s path met))
      fun _ => Inspection.runAll A policy (fieldInspections fields path) s met := by
  have hfields : ∀ f ∈ fields, ∀ (s : α) (path : FieldPath) (met : Array UnknownEnum),
      Follows (f.format.checkAt A policy s path met) fun place =>
        Inspection.runAll A policy (f.format.inspections place path) s met :=
    fun f _ => f.format.checkAt_follows
  obtain ⟨last, hlast⟩ := checkFieldsAt_tours hfields path
  exact (hlast s met).inMessage

end Format

/-! ## 6. Runs -/

namespace MessageFormat

variable (f : MessageFormat)

theorem encodeRun_follows (s : α) (count byte : Nat) (out : Array UInt8) :
    Follows (f.encodeRun A s count byte out) fun _ => f.encodeFrom A s count byte out := by
  induction count generalizing byte out with
  | zero =>
    simp only [encodeRun, encodeFrom]
    exact .pure out
  | succ count ih =>
    simp only [encodeRun, encodeFrom]
    exact (Format.encodeMessage_follows _ _ 0 byte s).bind fun b => ih (byte + 1) (out.push b)

theorem decodeRun_follows (data : List UInt8) (byte : Nat) (s : α) :
    Follows (f.decodeRun A data byte s) fun _ => f.decodeFrom A data byte s := by
  induction data generalizing byte s with
  | nil =>
    simp only [decodeRun, decodeFrom]
    exact .pure s
  | cons input rest ih =>
    simp only [decodeRun, decodeFrom]
    exact (Format.decodeMessage_follows _ _ 0 byte s).bind fun s => ih (byte + 1) s

theorem checkRun_follows (s : α) (policy : EnumPolicy) : Follows (f.checkRun A s policy) fun _ =>
    Inspection.runAll A policy f.inspections s #[] :=
  Format.checkMessage_follows f.fields.toList s .root #[]

/-! ## 7. Whole runs -/

-- A run starts from a fresh cursor, which is one that it can come back to.
theorem encodeWithCursor_eq (s : α) : f.encodeWithCursor A s = f.encode A s := by
  have hrun := f.encodeRun_follows (A := A) s f.byteCount 0 #[] {} (Nat.le_refl _)
  unfold encodeWithCursor encode encodeBytes
  rw [StateT.run'_eq, hrun]
  simp only [Functor.map_map, id_map', bind_assoc, pure_bind]

theorem decodeIntoWithCursor_eq (s : α) (data : List UInt8) :
    f.decodeIntoWithCursor A s data = f.decodeInto A s data := by
  have hrun := f.decodeRun_follows (A := A) (data.take f.byteCount) 0 s {} (Nat.le_refl _)
  unfold decodeIntoWithCursor decodeInto
  split
  next => rfl
  next =>
    rw [StateT.run'_eq, hrun]
    simp only [Functor.map_map, id_map']

theorem checkEnumsWithCursor_eq (s : α) (policy : EnumPolicy) :
    f.checkEnumsWithCursor A s policy = f.checkEnums A s policy := by
  have hrun := f.checkRun_follows (A := A) s policy {} (Nat.le_refl _)
  unfold checkEnumsWithCursor checkEnums
  rw [StateT.run'_eq, hrun]
  simp only [Functor.map_map, id_map']
  rw [← f.checkFieldEnums_root]
  rfl

end MessageFormat

end

end Bitwire
