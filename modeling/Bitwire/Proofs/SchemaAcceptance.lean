import Bitwire.Proofs.WireFormat

/-!
# Which schemas compile

Compiling accepts the well-formed schemas and no others.  It ends on every schema, however its
definitions refer to each other: the depth that resolving is given is more than it can use.  A schema
that is refused has the defect that the error describes.
-/

namespace Bitwire

namespace Resolve

variable {d : SchemaDef}

/-! ## 1. Depth -/

-- One more name makes no difference when there is room for all definitions.
theorem name_succ {depth : Nat} {opened : List String} (n : String) (hnodup : opened.Nodup)
    (hdeclared : ∀ o ∈ opened, d.Declares o)
    (henough : d.definitions.length ≤ opened.length + depth) :
    name d (depth + 1) opened n = name d depth opened n := by
  induction depth generalizing opened n with
  | zero =>
    unfold name
    refine bind_congr fun s => ?_
    cases s.resolved.lookup n with
    | some t => rfl
    | none =>
      cases hfind : d.find? n with
      | none => rfl
      | some x =>
        have hmem := mem_of_exhausted hnodup hdeclared ⟨x, SchemaDef.find?_some hfind⟩ henough
        change (if opened.contains n = true then _ else _) = _
        rw [if_pos (List.contains_iff_mem.mpr hmem)]
        rfl
  | succ depth ih =>
    unfold name
    refine bind_congr fun s => ?_
    cases s.resolved.lookup n with
    | some t => rfl
    | none =>
      cases hfind : d.find? n with
      | none => rfl
      | some x =>
        by_cases hopen : opened.contains n = true
        · change (if opened.contains n = true then _ else _) =
            (if opened.contains n = true then _ else _)
          rw [if_pos hopen, if_pos hopen]
          rfl
        · have hnew : n ∉ opened := fun hmem => hopen (List.contains_iff_mem.mpr hmem)
          have hnamed : name d (depth + 1) (n :: opened) = name d depth (n :: opened) := by
            funext n'
            refine ih n' (List.nodup_cons.mpr ⟨hnew, hnodup⟩)
              (List.forall_mem_cons.mpr ⟨⟨x, SchemaDef.find?_some hfind⟩, hdeclared⟩) ?_
            rw [List.length_cons]
            omega
          change (if opened.contains n = true then _ else definition _ x >>= _) =
            (if opened.contains n = true then _ else definition _ x >>= _)
          rw [hnamed]

/-- Resolving never runs out of depth: more of it gives the same run. -/
theorem name_eq_root {depth : Nat} (h : d.definitions.length ≤ depth) (n : String) :
    name d depth [] n = root d n := by
  induction depth, h using Nat.le_induction with
  | base => rfl
  | succ depth hle ih =>
    rw [← ih]
    exact name_succ n List.nodup_nil (fun _ ho => absurd ho List.not_mem_nil) (by
      rwa [List.length_nil, Nat.zero_add])

end Resolve

/-! ## 2. Schemas -/

namespace Schema

variable {d : SchemaDef}

-- The messages that are found are those that were declared.
theorem Lists.isSome_message? {schema : Schema} (h : schema.Lists d) (name : String) :
    (schema.message? name).isSome = true ↔ ∃ m ∈ d.messages, m.name = name := by
  have hnames : schema.messages.map MessageTypeOf.name = d.messages.map MessageDef.name :=
    map_eq_of_partners (fun _ _ hm => hm.1) h.messages
  have hmem : name ∈ schema.messages.map MessageTypeOf.name ↔
      name ∈ d.messages.map MessageDef.name := by rw [hnames]
  rw [List.mem_map, List.mem_map] at hmem
  rw [message?, List.find?_isSome]
  simpa only [beq_iff_eq] using hmem

/-- A schema compiles exactly if it is well formed, however its definitions refer to each other.
What comes out lists its definitions in the order of declaration and finds the declared messages.
The depth of resolving is no limit: more of it gives the same run. -/
theorem compile_exact (d : SchemaDef) :
    ((∃ schema, (compile d).value = .ok schema) ↔ d.WellFormed) ∧
      (∀ schema, (compile d).value = .ok schema → schema.Lists d ∧
        ∀ name, (schema.message? name).isSome = true ↔ ∃ m ∈ d.messages, m.name = name) ∧
      ∀ depth n, d.definitions.length ≤ depth →
        Resolve.name d depth [] n = Resolve.root d n := by
  obtain ⟨hok, herror⟩ := compile_decides d
  refine ⟨⟨fun ⟨schema, h⟩ => (hok schema h).1, fun hwell => ?_⟩, fun schema h => ?_,
    fun depth n h => Resolve.name_eq_root h n⟩
  · cases hvalue : (compile d).value with
    | ok schema => exact ⟨schema, rfl⟩
    | error e => exact absurd hwell (herror e hvalue)
  · have hlists := (hok schema h).2.1
    exact ⟨hlists, hlists.isSome_message?⟩

theorem compile_exact_station : ∃ schema, (compile stationSchema).value = .ok schema ∧
    stationSchema.WellFormed ∧ schema.Lists stationSchema ∧
    (schema.message? "Station").isSome = true ∧ (schema.message? "Wind").isSome = false ∧
    Resolve.name stationSchema 9 [] "Station" = Resolve.root stationSchema "Station" := by
  obtain ⟨schema, m, hschema, -, -⟩ := @Schema.exists_message stationSchema "Station"
    (fun _ => true) (by cbv)
  obtain ⟨hiff, hlists, hdepth⟩ := compile_exact stationSchema
  obtain ⟨hlisted, hfound⟩ := hlists schema hschema
  refine ⟨schema, hschema, hiff.mp ⟨schema, hschema⟩, hlisted, ?_, ?_, hdepth 9 _ (by decide)⟩
  · rw [hfound]
    decide
  · rw [← Bool.not_eq_true, hfound]
    decide

/-- The error of a schema that does not compile describes a defect that the schema has, and a schema
with any defect does not compile. -/
theorem compile_error_describes (d : SchemaDef) :
    (∀ e, (compile d).value = .error e → d.Defect e) ∧
      ((∃ e, (compile d).value = .error e) ↔ ∃ e, d.Defect e) := by
  have hreports := compile_reports d
  refine ⟨hreports.2, fun ⟨e, he⟩ => ⟨e, hreports.2 e he⟩, fun ⟨e, hdefect⟩ => ?_⟩
  cases hvalue : (compile d).value with
  | error e => exact ⟨e, rfl⟩
  | ok schema => exact absurd (hreports.1 schema hvalue).1 hdefect.not_wellFormed

/-- An alias that leads to two others, which lead to each other. -/
def tangledSchema : SchemaDef :=
  { aliases := [⟨"A", .named "B"⟩, ⟨"B", .array (.named "C") 2⟩, ⟨"C", .named "B"⟩] }

/-- A message whose second and third fields, by number, have no room behind the first. -/
def crowdedSchema : SchemaDef :=
  { messages := [⟨"Log", [⟨3, "mark", .uint 8⟩, ⟨1, "bits", .array .bool 4294967295⟩,
      ⟨2, "level", .uint 5⟩]⟩] }

theorem compile_error_describes_tangled :
    (compile tangledSchema).value = .error (.cyclicType "B") ∧
    Relation.TransGen tangledSchema.RefersTo "B" "B" ∧
    (compile crowdedSchema).value = .error (.messageTooLarge "Log" 4294967300) ∧
    crowdedSchema.Defect (.messageTooLarge "Log" 4294967300) := by
  have htangled : (compile tangledSchema).value = .error (.cyclicType "B") := by cbv
  have hcrowded : (compile crowdedSchema).value = .error (.messageTooLarge "Log" 4294967300) := by
    cbv
  refine ⟨htangled, ?_, hcrowded, (compile_error_describes crowdedSchema).1 _ hcrowded⟩
  cases (compile_error_describes tangledSchema).1 _ htangled with
  | cyclicType hcycle => exact hcycle

-- Two aliases that lead to each other, one of them through an array.
example : (compile { aliases := [⟨"A", .array (.named "B") 2⟩, ⟨"B", .named "A"⟩] }).value =
    .error (.cyclicType "A") := by cbv

end Schema

end Bitwire
