import Bitwire.Proofs.Bisection
import Bitwire.Proofs.RoundTrip

/-!
# Decoding that refuses unknown values

Formats are built with the values of every enum and the fields of every message in ascending order,
so that a value is declared exactly if it is one of the values its enum was given.  A message that
is decoded strictly is the one that is decoded by default, unless it holds an undeclared value of a
closed enum: then the first such value is the error.
-/

namespace Bitwire

/-! ## 1. The written form of a path -/

namespace FieldPath

/-- What a path says of each message on the way: the name of a field with its indices. -/
def parts : FieldPath → List String
  | root => []
  | field path name => path.parts ++ [name]
  | index path i => path.parts.dropLast ++ [path.parts.getLastD "" ++ "[" ++ toString i ++ "]"]

/-- The written form of parts: a dot between any two, once one is written that is not empty. -/
def joined (parts : List String) : String :=
  ".".intercalate (parts.dropWhile (·.isEmpty))

theorem intercalate_ne_empty {x : String} (hx : x ≠ "") (rest : List String) :
    ".".intercalate (x :: rest) ≠ "" := by
  cases rest with
  | nil => rwa [String.intercalate_singleton]
  | cons y rest =>
    rw [String.intercalate_cons_cons]
    intro h
    exact hx (String.append_eq_empty_iff.mp (String.append_eq_empty_iff.mp h).1).1

theorem joined_concat (front : List String) (x : String) :
    joined (front ++ [x]) = if joined front = "" then x else joined front ++ "." ++ x := by
  unfold joined
  rw [List.dropWhile_append]
  cases hfront : front.dropWhile (·.isEmpty) with
  | nil =>
    rw [if_pos List.isEmpty_nil, String.intercalate_nil, if_pos (Eq.refl "")]
    by_cases hx : x.isEmpty = true
    · rw [List.dropWhile_cons_of_pos hx, String.isEmpty_iff.mp hx]
      rfl
    · rw [List.dropWhile_cons_of_neg hx, String.intercalate_singleton]
  | cons y rest =>
    have hy : y ≠ "" := by
      have hhead := @List.head?_dropWhile_not _ (fun x : String => x.isEmpty) front
      rw [hfront] at hhead
      intro h
      rw [h] at hhead
      exact absurd hhead Bool.noConfusion
    rw [List.isEmpty_cons, if_neg Bool.false_ne_true, if_neg (intercalate_ne_empty hy rest),
      String.intercalate_append_of_ne_nil (List.cons_ne_nil _ _) (List.cons_ne_nil _ _),
      String.intercalate_singleton]

/-- A path is written as its parts. -/
theorem text_eq_joined (path : FieldPath) : path.text = joined path.parts := by
  induction path with
  | root => rfl
  | field path name ih =>
    rw [text, parts, joined_concat, ih]
    simp only [String.isEmpty_iff]
  | index path i ih =>
    rw [text, parts, ih]
    obtain hnil | ⟨front, last, hconcat⟩ := List.eq_nil_or_concat path.parts
    · have hroot : joined [] = "" := rfl
      rw [hnil, List.dropLast_nil, joined_concat, hroot, if_pos rfl]
      rfl
    · rw [hconcat, List.concat_eq_append, List.dropLast_concat, List.getLastD_concat, joined_concat,
        joined_concat]
      split
      next => rfl
      next => simp only [String.append_assoc]

end FieldPath

/-! ## 2. Declared values -/

-- Erasing repetitions from a list keeps its order.
theorem pairwise_eraseDups {α : Type} [BEq α] [LawfulBEq α] {r : α → α → Prop} {xs : List α}
    (h : xs.Pairwise r) : xs.eraseDups.Pairwise r := by
  induction hlen : xs.length using Nat.strong_induction_on generalizing xs with
  | h n ih =>
    cases xs with
    | nil => exact List.Pairwise.nil
    | cons x rest =>
      obtain ⟨hx, hrest⟩ := List.pairwise_cons.mp h
      rw [List.eraseDups_cons, List.pairwise_cons]
      refine ⟨fun y hy => hx y (List.mem_of_mem_filter (List.mem_eraseDups.mp hy)), ?_⟩
      refine ih _ ?_ (hrest.filter _) rfl
      have := List.length_filter_le (fun b => !b == x) rest
      rw [← hlen, List.length_cons]
      omega

namespace EnumFormat

theorem mem_ofValues {name : String} {bits : Nat} {extensible : Bool} {values : List UInt64}
    {v : UInt64} : v ∈ (ofValues name bits extensible values).values ↔ v ∈ values := by
  unfold ofValues
  rw [List.mem_toArray, List.mem_eraseDups, List.mem_mergeSort]

theorem ofValues_ascending (name : String) (bits : Nat) (extensible : Bool) (values : List UInt64) :
    (ofValues name bits extensible values).values.toList.Pairwise (· ≤ ·) :=
  pairwise_eraseDups (Bisect.pairwise_mergeSort id values)

-- Bisection finds the values of an enum whose values ascend.
theorem contains_iff {e : EnumFormat} (h : e.values.toList.Pairwise (· ≤ ·)) (v : UInt64) :
    e.contains v = true ↔ v ∈ e.values := by
  unfold contains
  rw [← Array.mem_toList_iff]
  have hfound := @Bisect.isSome_indexOf?_iff _ _ _ _ _ _ id e.values.toList h v
  rw [Array.toArray_toList] at hfound
  rw [hfound]
  exact ⟨fun ⟨a, ha, hav⟩ => hav ▸ ha, fun hv => ⟨v, hv, rfl⟩⟩

end EnumFormat

/-! ## 3. Formats in order -/

namespace Format

mutual

/-- Formats as they are built: the values of every enum ascend, and so do the numbers of the fields
of every message. -/
def Ordered : Format → Prop
  | .enum e => e.values.toList.Pairwise (· ≤ ·)
  | .array element _ => element.Ordered
  | .message ⟨_, ⟨fields⟩, _⟩ =>
    AllOrdered fields ∧ fields.Pairwise fun f g => f.number ≤ g.number
  | _ => True

/-- Fields whose formats are ordered. -/
def AllOrdered : List FieldFormat → Prop
  | [] => True
  | ⟨_, _, _, format⟩ :: rest => format.Ordered ∧ AllOrdered rest

end

theorem allOrdered_iff (fields : List FieldFormat) :
    AllOrdered fields ↔ ∀ f ∈ fields, f.format.Ordered := by
  induction fields with
  | nil => exact ⟨fun _ f hf => absurd hf List.not_mem_nil, fun _ => trivial⟩
  | cons f rest ih => rw [AllOrdered, ih, List.forall_mem_cons]

end Format

/-- Message formats that are ordered. -/
def MessageFormat.Ordered (m : MessageFormat) : Prop :=
  (Format.message m).Ordered

-- The values of the closed enums of an ordered message ascend.
theorem MessageFormat.Ordered.of_mem_closedEnums {α : Type} {A : Accessor Id α} {f : MessageFormat}
    (h : f.Ordered) {s : α} {l : EnumLeaf} (hl : l ∈ f.closedEnums A s) :
    l.enum.extensible = false ∧ l.enum.values.toList.Pairwise (· ≤ ·) := by
  refine MessageFormat.of_mem_closedEnums A (P := Format.Ordered) (fun _ _ helement => helement) ?_ h hl
  exact fun _ hm => (Format.allOrdered_iff _).mp hm.1

-- The closed enums of a sound message fit in a word.
theorem MessageFormat.Sound.bits_le {α : Type} {A : Accessor Id α} {f : MessageFormat}
    (h : f.Sound) {s : α} {l : EnumLeaf} (hl : l ∈ f.closedEnums A s) : l.enum.bits ≤ 64 := by
  have hsound := MessageFormat.of_mem_closedEnums A (P := Format.Sound)
    (fun _ _ harray => harray.1) (fun _ hm _ hf => MessageFormat.Sound.field hm hf) h hl
  exact hsound.2.2

-- Whatever order the fields are listed in, the format has them by number.
theorem MessageFormat.ofFields_ordered (name : String) {fields : List FieldFormat}
    (h : ∀ f ∈ fields, f.format.Ordered) : (ofFields name fields).Ordered :=
  ⟨(Format.allOrdered_iff _).mpr fun f hf => h f (List.mem_mergeSort.mp hf),
    Bisect.pairwise_mergeSort PlacedField.number fields⟩

-- Made types have ordered formats.
theorem WireType.Made.ordered {t : WireType} (h : t.Made) : t.format.Ordered := by
  induction t using WireType.induct with
  | scalar t hs =>
    cases t with
    | enum e => exact EnumFormat.ofValues_ascending _ _ _ _
    | bool | int | uint => trivial
    | aliased | array | message => exact absurd hs Bool.false_ne_true
  | aliased name target ih => exact ih h
  | array element capacity ih => exact ih h.1
  | message m ih =>
    have hmade : MessageType.Made m := h
    have hfields : m.format.fields.toList = MessageType.placedFields 0 m.sortedFields :=
      hmade.consistent.format_fields
    refine ⟨(Format.allOrdered_iff m.format.fields.toList).mpr fun p hp => ?_, ?_⟩
    · rw [hfields] at hp
      obtain ⟨f, hf, -, -, hformat⟩ := MessageType.mem_placedFields hp
      have hfm := MessageType.mem_sortedFields.mp hf
      rw [hformat]
      exact ih f hfm (hmade.field hfm)
    · show m.format.fields.toList.Pairwise _
      rw [hfields]
      exact hmade.consistent.ascending_placed.imp fun hlt => UInt16.le_of_lt hlt

/-! ## 4. Decoding -/

-- Only the result that was reached matters for how to go on.
theorem Logged.thenTry_congr {ε α β : Type} {first : Logged (Except ε α)}
    {next next' : α → Logged (Except ε β)} (h : ∀ a, first.value = .ok a → next a = next' a) :
    first.thenTry next = first.thenTry next' := by
  unfold thenTry andThen
  cases hvalue : first.value with
  | ok a =>
    dsimp only
    rw [h a hvalue]
  | error e => rfl

namespace MessageType

variable (m : MessageType) (data : List UInt8)

-- A message without undeclared values is decoded the same under both policies.
theorem decode_strict_of_declared
    (h : ∀ msg, (m.decoded data).value = .ok msg →
      m.format.undeclared DynamicMessage.accessor msg = []) :
    m.decode data .strict = m.decode data := by
  refine Logged.thenTry_congr fun msg hmsg => congrArg (Logged.map _) ?_
  show (m.format.checkEnums DynamicMessage.accessor msg .reject).run =
    (m.format.checkEnums DynamicMessage.accessor msg .tolerate).run
  rw [MessageFormat.checkEnums_reject, MessageFormat.checkEnums_tolerate, h msg hmsg]
  rfl

-- The first undeclared value is what a message is refused for.
theorem decode_strict_of_undeclared {msg : DynamicMessage} {l : EnumLeaf}
    (hmsg : (m.decoded data).value = .ok msg)
    (hl : (m.format.undeclared DynamicMessage.accessor msg).head? = some l) :
    (m.decode data .strict).value =
      .error (.returned (.validation (.unknownEnumValue l.path l.enum.name l.value))) := by
  have hstrict := m.format.checkEnums_reject DynamicMessage.accessor msg
  rw [hl] at hstrict
  have hverify : (m.format.verify DynamicMessage.accessor msg .strict : Id _).run =
      .silent (.error (.unknownEnumValue l.path l.enum.name l.value)) := hstrict
  rw [decode, Logged.value_thenTry hmsg, Logged.value_map, hverify]
  rfl

end MessageType

/-! ## 5. Both policies -/

/-- What a value of a closed enum is, if the enum fits in a word: the low bits of the number that
its bytes are the digits of, put together without a shift that is as wide as a word.  It is declared
if its enum was given it, and it has the parts of its path, joined by dots, as its name. -/
structure EnumLeaf.Exact (l : EnumLeaf) : Prop where
  closed : l.enum.extensible = false
  read : l.value? = some l.value
  number : l.value.toNat = l.number % 2 ^ l.enum.bits
  declared : l.declared = true ↔ l.value ∈ l.enum.values
  path : l.path.text = ".".intercalate (l.path.parts.dropWhile (·.isEmpty))

theorem MessageFormat.Ordered.exact {α : Type} {A : Accessor Id α} {f : MessageFormat}
    (h : f.Ordered) {s : α} {l : EnumLeaf} (hl : l ∈ f.closedEnums A s) (hbits : l.enum.bits ≤ 64) :
    l.Exact where
  closed := (h.of_mem_closedEnums hl).1
  read := EnumLeaf.value?_eq_some_iff.mpr ⟨hbits, rfl⟩
  number := EnumLeaf.toNat_value hbits
  declared := EnumFormat.contains_iff (h.of_mem_closedEnums hl).2 l.value
  path := l.path.text_eq_joined

/-- What becomes of the undeclared values of the closed enums of a message, all of which fit in a
word: a check that refuses reports the first, and a check that tolerates reports each.  Formats are
ordered, however they are built, and the enums of compiled messages fit in a word. -/
theorem MessageFormat.checkEnums_exact :
    (∀ {α : Type} (f : MessageFormat) (A : Accessor Id α) (s : α), f.Ordered →
      (∀ l ∈ f.closedEnums A s, l.enum.bits ≤ 64) →
      (f.checkEnums A s .reject).run = .silent (match (f.undeclared A s).head? with
        | some l => .error (.unknownEnumValue l.path l.enum.name l.value)
        | none => .ok ()) ∧
      (f.checkEnums A s .tolerate).run = ⟨.ok (), (f.undeclared A s).map fun l =>
        .unknownEnumTolerated l.path l.enum.name l.value⟩ ∧
      ∀ l ∈ f.closedEnums A s, l.Exact) ∧
    (∀ name bits extensible values, (Format.enum (.ofValues name bits extensible values)).Ordered ∧
      ∀ v, v ∈ (EnumFormat.ofValues name bits extensible values).values ↔ v ∈ values) ∧
    (∀ name fields, (∀ f ∈ fields, f.format.Ordered) → (MessageFormat.ofFields name fields).Ordered) ∧
    ∀ {d : SchemaDef} {schema : Schema} {m : MessageType}, (Schema.compile d).value = .ok schema →
      m ∈ schema.messages → m.format.Ordered ∧
        (∀ {α : Type} (A : Accessor Id α) (s : α), ∀ l ∈ m.format.closedEnums A s,
          l.enum.bits ≤ 64) ∧
        ∀ data,
          (∀ msg l, (m.decoded data).value = .ok msg →
            (m.format.undeclared DynamicMessage.accessor msg).head? = some l →
            (m.decode data .strict).value =
              .error (.returned (.validation (.unknownEnumValue l.path l.enum.name l.value)))) ∧
          ((∀ msg, (m.decoded data).value = .ok msg →
            m.format.undeclared DynamicMessage.accessor msg = []) →
            m.decode data .strict = m.decode data) := by
  refine ⟨fun f A s h hbits => ⟨f.checkEnums_reject A s, f.checkEnums_tolerate A s,
      fun l hl => h.exact hl (hbits l hl)⟩,
    fun name bits extensible values => ⟨EnumFormat.ofValues_ascending name bits extensible values,
      fun v => EnumFormat.mem_ofValues⟩,
    fun name fields h => MessageFormat.ofFields_ordered name h, fun hschema hm => ?_⟩
  have hmade := Schema.compile_made hschema hm
  refine ⟨WireType.Made.ordered hmade, fun A s l hl => hmade.format.1.bits_le hl, fun data => ⟨?_, ?_⟩⟩
  · exact fun msg l => MessageType.decode_strict_of_undeclared _ data
  · exact MessageType.decode_strict_of_declared _ data

/-- A mode in a message that is the field without a name of another. -/
def unnamedSchema : SchemaDef where
  name := "unnamed"
  enums := [{ name := "Mode", bits := 2, fields := [⟨"ON", 1⟩] }]
  messages := [⟨"Inner", [⟨1, "mode", .named "Mode"⟩]⟩, ⟨"Outer", [⟨1, "", .named "Inner"⟩]⟩]

/-- A message of one mode of 72 bits. -/
def wideFormat : MessageFormat :=
  ⟨"Wide", #[⟨1, "mode", 0, .enum ⟨"Mode", 72, false, #[1]⟩⟩], 72⟩

/-- An accessor all of whose values are the 64th power of 2. -/
def Accessor.ninthByte : Accessor Id Unit where
  getByte _ _ shift := pure (if shift = 64 then 1 else 0)
  setByte s _ _ _ := pure s
  message? _ _ := pure none
  messageMut? _ _ := pure none

-- Not all the dots are written: there is none behind the names in front, if they are empty.  And a
-- value of more than 64 bits is not put together from its bytes: where arithmetic is checked it is
-- not read, and elsewhere it may pass for a value that it is not.
theorem MessageFormat.checkEnums_unnamed_wide :
    (∃ schema m path, (Schema.compile unnamedSchema).value = .ok schema ∧ m ∈ schema.messages ∧
      (m.decode [0] .strict).value =
        .error (.returned (.validation (.unknownEnumValue path "Mode" 0))) ∧
      path.parts = ["", "mode"] ∧ path.text ≠ ".".intercalate path.parts) ∧
    wideFormat.Ordered ∧ (wideFormat.checkEnums Accessor.ninthByte () .reject).run = .silent (.ok ()) ∧
    ∃ l, wideFormat.closedEnums Accessor.ninthByte () = [l] ∧ l.enum.bits = 72 ∧ l.value? = none ∧
      ¬∃ v ∈ l.enum.values, v.toNat = l.number % 2 ^ l.enum.bits := by
  refine ⟨?_, ?_, by cbv, ⟨.field .root "mode", ⟨"Mode", 72, false, #[1]⟩, _⟩, rfl, rfl, rfl, ?_⟩
  · obtain ⟨schema, m, hschema, hm, hp⟩ := @Schema.exists_message unnamedSchema "Outer"
      (fun m => (m.decode [0] .strict).value.map (fun _ => ()) == .error (.returned (.validation
        (.unknownEnumValue ((FieldPath.root.field "").field "mode") "Mode" 0)))) (by cbv)
    refine ⟨schema, m, (FieldPath.root.field "").field "mode", hschema, hm, ?_, rfl, by decide⟩
    have hvalue := eq_of_beq hp
    cases hdecode : (m.decode [0] .strict).value with
    | error e =>
      rw [hdecode] at hvalue
      exact congrArg Except.error (Except.error.inj hvalue)
    | ok r =>
      rw [hdecode] at hvalue
      cases hvalue
  · exact ⟨⟨List.pairwise_singleton _ _, trivial⟩, List.pairwise_singleton _ _⟩
  · decide

theorem MessageFormat.checkEnums_exact_station : ∃ schema m,
    (Schema.compile stationSchema).value = .ok schema ∧ m ∈ schema.messages ∧
      (m.decode [1, 0, 0, 0, 0, 0, 0] .strict).value =
        .error (.returned (.validation (.unknownEnumValue (.field .root "wind") "Wind" 1))) ∧
      m.decode [5, 0, 0, 0, 0, 0, 0] .strict = m.decode [5, 0, 0, 0, 0, 0, 0] ∧
      (m.format.checkEnums (Accessor.constant 255 true) () .tolerate).run =
        ⟨.ok (), [.unknownEnumTolerated (.field .root "wind") "Wind" 7]⟩ := by
  obtain ⟨schema, m, hschema, hm, hp⟩ := @Schema.exists_message stationSchema "Station"
    (fun m =>
      ((m.decoded [1, 0, 0, 0, 0, 0, 0]).value.toOption.any fun msg =>
        (m.format.undeclared DynamicMessage.accessor msg).head?.any fun l =>
          l.path == .field .root "wind" && l.enum.name == "Wind" && l.value == 1) &&
      ((m.decoded [5, 0, 0, 0, 0, 0, 0]).value.toOption.any fun msg =>
        (m.format.undeclared DynamicMessage.accessor msg).isEmpty) &&
      (m.format.undeclared (Accessor.constant 255 true) ()).map EnumLeaf.fault ==
        [⟨.field .root "wind", "Wind", 7⟩]) (by cbv)
  obtain ⟨hp, hthird⟩ := Bool.and_eq_true_iff.mp hp
  obtain ⟨hfirst, hsecond⟩ := Bool.and_eq_true_iff.mp hp
  obtain ⟨hcheck, -, -, hdecode⟩ := checkEnums_exact
  obtain ⟨hordered, hbits, hpolicies⟩ := hdecode hschema hm
  refine ⟨schema, m, hschema, hm, ?_, (hpolicies [5, 0, 0, 0, 0, 0, 0]).2 ?_, ?_⟩
  · cases hmsg : (m.decoded [1, 0, 0, 0, 0, 0, 0]).value with
    | error e =>
      rw [hmsg] at hfirst
      exact absurd hfirst Bool.false_ne_true
    | ok msg =>
      rw [hmsg] at hfirst
      change (m.format.undeclared DynamicMessage.accessor msg).head?.any _ = true at hfirst
      obtain ⟨l, hl, hleaf⟩ := (Option.any_eq_true _ _).mp hfirst
      obtain ⟨hleaf, hvalue⟩ := Bool.and_eq_true_iff.mp hleaf
      obtain ⟨hpath, hname⟩ := Bool.and_eq_true_iff.mp hleaf
      rw [(hpolicies [1, 0, 0, 0, 0, 0, 0]).1 msg l hmsg hl, eq_of_beq hpath, eq_of_beq hname,
        eq_of_beq hvalue]
  · intro msg hmsg
    rw [hmsg] at hsecond
    exact List.isEmpty_iff.mp hsecond
  · rw [(hcheck m.format (Accessor.constant 255 true) () hordered (hbits _ ())).2.1]
    have hmap := congrArg (List.map UnknownEnum.event) (eq_of_beq hthird)
    rw [List.map_map] at hmap
    exact congrArg (Logged.mk _) hmap

end Bitwire
