import Bitwire.Proofs.ClaimedIdentifiers
import Bitwire.Proofs.Leaves
import Bitwire.Proofs.SharedFormats
import Bitwire.Proofs.WireFormat
import Bitwire.Source.Module

/-!
# Array levels

A field may be an array of arrays, with aliases anywhere in between.  Generated source says so five
times over: in the place of an element, in the type of the struct's field, in its zero value, in the
expression for its format, and in the format that is built.  Each looks through aliases in its own
way.  All of them have the same array levels, with the same capacities, around the same leaf.
-/

namespace Bitwire

/-- Arrays of the given capacities around a leaf, the outermost first. -/
def nestArrays {τ : Type} (array : τ → Nat → τ) (capacities : List Nat) (leaf : τ) : τ :=
  capacities.foldr (fun capacity element => array element capacity) leaf

theorem nestArrays_cons {τ : Type} (array : τ → Nat → τ) (capacity : Nat) (rest : List Nat)
    (leaf : τ) : nestArrays array (capacity :: rest) leaf = array (nestArrays array rest leaf) capacity :=
  rfl

-- The written form of an array, for which the text itself does not have to be looked into.
theorem ZeroExpr.text_array (element : ZeroExpr) : (ZeroExpr.array element).text =
    toString "std::array::from_fn(|_| " ++ toString element.text ++ toString ")" :=
  rfl

/-! ## 1. Levels of formats -/

namespace Format

/-- The capacities of the array levels of a format, the outermost first. -/
def capacities : Format → List Nat
  | .array element capacity => capacity :: element.capacities
  | _ => []

/-- What is behind all array levels of a format. -/
def core : Format → Format
  | .array element _ => element.core
  | f => f

theorem capacities_nestArrays (capacities : List Nat) (f : Format) :
    (nestArrays Format.array capacities f).capacities = capacities ++ f.capacities := by
  induction capacities with
  | nil => rfl
  | cons capacity rest ih => rw [nestArrays_cons, Format.capacities, ih, List.cons_append]

theorem core_nestArrays (capacities : List Nat) (f : Format) :
    (nestArrays Format.array capacities f).core = f.core := by
  induction capacities with
  | nil => rfl
  | cons capacity rest ih => rw [nestArrays_cons, core, ih]

theorem capacities_scalar {f : Format} (hs : f.isScalar = true) : f.capacities = [] := by
  cases f <;> first | rfl | exact absurd hs Bool.false_ne_true

theorem core_scalar {f : Format} (hs : f.isScalar = true) : f.core = f := by
  cases f <;> first | rfl | exact absurd hs Bool.false_ne_true

end Format

/-! ## 2. Levels of types -/

namespace WireType

/-- The capacities of the array levels of a type, the outermost first, aliases looked through. -/
def capacities : WireType → List Nat
  | .aliased _ target => target.capacities
  | .array element capacity => capacity :: element.capacities
  | _ => []

/-- What is behind all aliases and array levels of a type. -/
def core : WireType → WireType
  | .aliased _ target => target.core
  | .array element _ => element.core
  | t => t

/-- Whether a type is neither an alias nor an array. -/
def isCore : WireType → Bool
  | .aliased .. => false
  | .array .. => false
  | _ => true

theorem isCore_core (t : WireType) : t.core.isCore = true := by
  induction t using WireType.induct with
  | scalar t hs => cases t <;> first | rfl | exact absurd hs Bool.false_ne_true
  | aliased name target ih => exact ih
  | array element capacity ih => exact ih
  | message m => rfl

/-- The aliases that are removed in front of a type hide none of its levels. -/
theorem levels_resolve (t : WireType) :
    t.resolve.capacities = t.capacities ∧ t.resolve.core = t.core := by
  induction t using WireType.induct with
  | scalar t hs => cases t <;> first | exact ⟨rfl, rfl⟩ | exact absurd hs Bool.false_ne_true
  | aliased name target ih => exact ih
  | array | message => exact ⟨rfl, rfl⟩

/-- What a function makes of a type that looks through aliases and makes an array of an array. -/
theorem eq_nestArrays {τ : Type} {array : τ → Nat → τ} {f : WireType → τ}
    (haliased : ∀ name target, f (.aliased name target) = f target)
    (harray : ∀ element capacity, f (.array element capacity) = array (f element) capacity)
    (t : WireType) : f t = nestArrays array t.capacities (f t.core) := by
  induction t using WireType.induct with
  | scalar t hs => cases t <;> first | rfl | exact absurd hs Bool.false_ne_true
  | aliased name target ih => exact (haliased name target).trans ih
  | array element capacity ih =>
    rw [harray, ih]
    rfl
  | message m => rfl

theorem arrayDepth_eq (t : WireType) : t.arrayDepth = t.capacities.length := by
  induction t using WireType.induct with
  | scalar t hs => cases t <;> first | rfl | exact absurd hs Bool.false_ne_true
  | aliased name target ih => exact ih
  | array element capacity ih => rw [arrayDepth, capacities, List.length_cons, ih]
  | message m => rfl

theorem format_eq (t : WireType) : t.format = nestArrays Format.array t.capacities t.core.format :=
  eq_nestArrays (fun _ _ => rfl) (fun _ _ => rfl) t

-- The leaves of types have formats, zero values and names of their own.
theorem levels_format {t : WireType} (ht : t.isCore = true) :
    t.format.capacities = [] ∧ t.format.core = t.format := by
  cases t <;> first | exact ⟨rfl, rfl⟩ | exact absurd ht Bool.false_ne_true

theorem zeroExpr_ne_array {t : WireType} (ht : t.isCore = true) (z : ZeroExpr) :
    t.zeroExpr ≠ .array z := by
  intro h
  cases t <;> first | exact absurd ht Bool.false_ne_true | exact ZeroExpr.noConfusion h

theorem exists_name {t : WireType} (ht : t.isCore = true) : ∃ name, t.typeExpr = .named name := by
  cases t <;> first | exact ⟨_, rfl⟩ | exact absurd ht Bool.false_ne_true

theorem formatExpr_eq (t : WireType) :
    t.formatExpr = nestArrays FormatExpr.array t.capacities t.core.formatExpr :=
  eq_nestArrays (fun _ _ => rfl) (fun _ _ => rfl) t

/-! ## 3. Places and zero values -/

/-- The text that indexes a place once for each of `count` array levels, from `level` on. -/
def indexText (level count : Nat) : String :=
  String.join ((List.range' level count).map fun k => s!"[di.index({k})]")

theorem indexText_succ (level count : Nat) :
    indexText level (count + 1) = s!"[di.index({level})]" ++ indexText (level + 1) count := by
  rw [indexText, List.range'_succ, List.map_cons, String.join_cons]
  rfl

theorem elementPlace_eq (t : WireType) (place : String) (level : Nat) :
    t.elementPlace place level = (t.core, place ++ indexText level t.capacities.length) := by
  induction t using WireType.induct generalizing place level with
  | scalar t hs =>
    cases t <;> first | exact congrArg (Prod.mk _) (String.append_empty).symm |
      exact absurd hs Bool.false_ne_true
  | aliased name target ih => exact ih place level
  | array element capacity ih =>
    rw [elementPlace, ih, core, capacities, List.length_cons, indexText_succ, String.append_assoc]
  | message m => exact congrArg (Prod.mk _) (String.append_empty).symm

theorem zeroExpr_eq (t : WireType) :
    t.zeroExpr = nestArrays (fun element _ => ZeroExpr.array element) t.capacities t.core.zeroExpr :=
  eq_nestArrays (fun _ _ => rfl) (fun _ _ => rfl) t

/-- A zero value is written with one call for every level of the type. -/
theorem text_zeroExpr (t : WireType) : t.zeroExpr.text =
    String.join (List.replicate t.capacities.length "std::array::from_fn(|_| ") ++
      t.core.zeroExpr.text ++ String.join (List.replicate t.capacities.length ")") := by
  rw [zeroExpr_eq]
  induction t.capacities with
  | nil =>
    simp only [nestArrays, List.foldr_nil, List.length_nil, List.replicate_zero, String.join_nil,
      String.empty_append, String.append_empty]
  | cons capacity rest ih =>
    rw [nestArrays_cons, ZeroExpr.text_array, ih, List.length_cons,
      @List.replicate_succ _ "std::array::from_fn(|_| ", @List.replicate_succ' _ _ ")"]
    simp only [toString, String.append_assoc, String.join_cons, String.join_append, String.join_nil,
      String.append_empty]

/-- Every field has an arm, at the place of its elements. -/
theorem ofField?_eq (f : Field) : ∃ kind, Arm.ofField? f = some ⟨f.number,
      "self." ++ Identifier.ofField f.name ++ indexText 0 f.type.capacities.length, kind⟩ ∧
    (kind = .message ↔ ∃ m, f.type.core = .message m) := by
  have hcore := f.type.isCore_core
  unfold Arm.ofField?
  rw [elementPlace_eq]
  cases hleaf : f.type.core with
  | aliased | array =>
    rw [hleaf] at hcore
    exact absurd hcore Bool.false_ne_true
  | bool | int | uint | enum =>
    refine ⟨_, rfl, fun h => ?_, fun h => ?_⟩
    · cases h
    · obtain ⟨m, hm⟩ := h
      cases hm
  | message m => exact ⟨_, rfl, fun _ => ⟨m, rfl⟩, fun _ => rfl⟩

end WireType

/-! ## 4. Types of generated source -/

namespace TypeExpr

/-- What a type comes to when names are replaced by their definitions, some or all of them, and again
in what they are replaced by. -/
inductive Unfolds (defs : List (String × TypeExpr)) : TypeExpr → TypeExpr → Prop
  | refl (e : TypeExpr) : Unfolds defs e e
  | definition {name : String} {definition e : TypeExpr} :
      (name, definition) ∈ defs → Unfolds defs definition e → Unfolds defs (.named name) e
  | array {element e : TypeExpr} (capacity : Nat) :
      Unfolds defs element e → Unfolds defs (.array element capacity) (.array e capacity)

/-- A type that holds no name with a definition. -/
def Unfolded (defs : List (String × TypeExpr)) : TypeExpr → Prop
  | .named name => ∀ definition, (name, definition) ∉ defs
  | .array element _ => element.Unfolded defs

variable {defs : List (String × TypeExpr)} {e e' unfolded : TypeExpr}

theorem Unfolded.eq (h : e.Unfolded defs) (hu : Unfolds defs e unfolded) : unfolded = e := by
  induction hu with
  | refl => rfl
  | definition hdef _ _ => exact absurd hdef (h _)
  | array capacity _ ih => rw [ih h]

theorem Unfolded.nestArrays (h : e.Unfolded defs) (capacities : List Nat) :
    (nestArrays TypeExpr.array capacities e).Unfolded defs := by
  induction capacities with
  | nil => exact h
  | cons capacity rest ih => exact ih

theorem Unfolded.of_nestArrays {capacities : List Nat}
    (h : (Bitwire.nestArrays TypeExpr.array capacities e).Unfolded defs) : e.Unfolded defs := by
  induction capacities with
  | nil => exact h
  | cons capacity rest ih => exact ih h

/-- Where names have one definition each, a type can be unfolded in one way only. -/
theorem Unfolds.unique (hnames : (defs.map Prod.fst).Nodup) (h : Unfolds defs unfolded e)
    (h' : Unfolds defs unfolded e') (he : e.Unfolded defs) (he' : e'.Unfolded defs) : e = e' := by
  induction h generalizing e' with
  | refl e => exact (he.eq h').symm
  | definition hdef hunfold ih =>
    cases h' with
    | refl => exact absurd hdef (he' _)
    | definition hdef' hunfold' =>
      obtain rfl := congrArg Prod.snd (List.inj_on_of_nodup_map hnames hdef hdef' rfl)
      exact ih hunfold' he he'
  | array capacity hunfold ih =>
    cases h' with
    | refl => exact congrArg (TypeExpr.array · capacity) (ih (.refl _) he he')
    | array _ hunfold' => exact congrArg (TypeExpr.array · capacity) (ih hunfold' he he')

end TypeExpr

namespace WireType

/-- The definitions of the aliases that are looked through in a type. -/
def aliasDefs : WireType → List (String × TypeExpr)
  | .aliased name target => (name, target.typeExpr) :: target.aliasDefs
  | .array element _ => element.aliasDefs
  | _ => []

/-- Once the names of aliases are replaced by their definitions, a type has its levels. -/
theorem typeExpr_unfolds (t : WireType) {defs : List (String × TypeExpr)}
    (h : t.aliasDefs ⊆ defs) : TypeExpr.Unfolds defs t.typeExpr
      (nestArrays TypeExpr.array t.capacities t.core.typeExpr) := by
  induction t using WireType.induct with
  | scalar t hs => cases t <;> first | exact .refl _ | exact absurd hs Bool.false_ne_true
  | aliased name target ih =>
    obtain ⟨hname, htarget⟩ := List.cons_subset.mp h
    exact .definition hname (ih htarget)
  | array element capacity ih => exact .array capacity (ih h)
  | message m => exact .refl _

end WireType

/-! ## 5. Definitions of a schema -/

-- What a reference stands for is written like the reference: named types are written by name.
theorem SchemaDef.Denotes.typeExpr_eq {d : SchemaDef} {r : TypeRef} {t t' : WireType}
    (h : d.Denotes r t) (h' : d.Denotes r t') : t.typeExpr = t'.typeExpr := by
  have hnamed : ∀ {name : String} {t : WireType}, d.Denotes (.named name) t →
      t.typeExpr = .named name := by
    intro name t h
    cases h with
    | aliased | enum => rfl
    | message _ hname _ => exact congrArg TypeExpr.named hname
  induction r generalizing t t' with
  | bool | int | uint =>
    cases h
    cases h'
    rfl
  | array element capacity ih =>
    cases h with
    | array _ h =>
      cases h' with
      | array _ h' => exact congrArg (TypeExpr.array · capacity.toNat) (ih h h')
  | named name => rw [hnamed h, hnamed h']

namespace Schema

/-- The definitions of the aliases of a schema. -/
def aliasDefs (schema : Schema) : List (String × TypeExpr) :=
  schema.aliases.map fun a => (a.name, a.target.typeExpr)

/-- They are written in the generated module. -/
theorem typeAlias_mem_items (schema : Schema) (codecPath : String) {p : String × TypeExpr}
    (hp : p ∈ schema.aliasDefs) :
    .typeAlias p.1 p.2 ∈ (SourceModule.ofSchema schema codecPath).items := by
  obtain ⟨a, ha, rfl⟩ := List.mem_map.mp hp
  apply List.mem_flatten.mpr
  refine ⟨schema.aliases.map fun a => .typeAlias a.name a.target.typeExpr, ?_, ?_⟩
  · exact List.mem_append_left _ (List.mem_append_left _ (List.mem_cons_of_mem _ List.mem_cons_self))
  · exact List.mem_map.mpr ⟨a, ha, rfl⟩

/-- The types that a schema declares: those of the fields of its messages, and the targets of its
aliases. -/
def Declares (schema : Schema) (t : WireType) : Prop :=
  (∃ m ∈ schema.messages, ∃ f ∈ m.fields, f.type = t) ∨ ∃ a ∈ schema.aliases, a.target = t

variable {d : SchemaDef} {schema : Schema}

-- Every type that is declared stands for a reference.
theorem Lists.exists_denoted (h : schema.Lists d) {t : WireType} (ht : schema.Declares t) :
    ∃ r, d.Denotes r t := by
  rcases ht with ⟨m, hm, f, hf, rfl⟩ | ⟨a, ha, rfl⟩
  · obtain ⟨m', -, -, hfields⟩ := exists_partner h.messages hm
    obtain ⟨f', -, -, -, htype⟩ := exists_partner (SchemaDef.denoteAll_iff.mp hfields) hf
    exact ⟨f'.type, htype⟩
  · obtain ⟨a', -, -, htarget⟩ := exists_partner h.aliases ha
    exact ⟨a'.target, htarget⟩

-- The aliases inside a type are those of the schema, with the definitions that they have there.
theorem Lists.aliasDefs_subset (h : schema.Lists d) {r : TypeRef} {t : WireType}
    (ht : d.Denotes r t) : t.aliasDefs ⊆ schema.aliasDefs := by
  induction t using WireType.induct generalizing r with
  | scalar t hs =>
    cases t <;> first | exact List.nil_subset _ | exact absurd hs Bool.false_ne_true
  | aliased name target ih =>
    cases ht with
    | @aliased a _ ha htarget =>
      refine List.cons_subset.mpr ⟨?_, ih htarget⟩
      obtain ⟨i, hi, rfl⟩ := List.getElem_of_mem (SchemaDef.aliasDef_mem.mp ha)
      have hi' : i < schema.aliases.length := h.aliases.length_eq ▸ hi
      obtain ⟨hname, hdef⟩ := h.aliases.get hi hi'
      refine List.mem_map.mpr ⟨schema.aliases[i], List.getElem_mem hi', ?_⟩
      exact Prod.ext hname (hdef.typeExpr_eq htarget)
  | array element capacity ih =>
    cases ht with
    | array _ ht => exact ih ht
  | message m => exact List.nil_subset _

-- No two aliases of a schema have one name.
theorem nodup_aliasDefs (hcompile : (compile d).value = .ok schema) :
    (schema.aliasDefs.map Prod.fst).Nodup := by
  have hnames := (List.nodup_append.mp (nodup_names hcompile)).2.1
  unfold typeIdents at hnames
  have haliases := (List.nodup_append.mp (List.nodup_append.mp hnames).1).1
  rw [aliasDefs, List.map_map]
  exact haliases

/-- Whether an alias of the schema has the name by which the leaf of a type is written. -/
def Shadows (schema : Schema) (t : WireType) : Prop :=
  ∃ a ∈ schema.aliases, t.core.typeExpr = .named a.name

theorem unfolded_core_iff (schema : Schema) (t : WireType) :
    t.core.typeExpr.Unfolded schema.aliasDefs ↔ ¬ schema.Shadows t := by
  obtain ⟨name, hname⟩ := WireType.exists_name t.isCore_core
  rw [Shadows, hname]
  constructor
  · rintro h ⟨a, ha, heq⟩
    obtain rfl := TypeExpr.named.inj heq
    exact h a.target.typeExpr (List.mem_map.mpr ⟨a, ha, rfl⟩)
  · intro h definition hmem
    obtain ⟨a, ha, heq⟩ := List.mem_map.mp hmem
    exact h ⟨a, ha, congrArg TypeExpr.named (congrArg Prod.fst heq).symm⟩

end Schema

-- The leaf of a type stands for a reference, too.
theorem SchemaDef.Denotes.exists_core {d : SchemaDef} {r : TypeRef} {t : WireType}
    (h : d.Denotes r t) : ∃ r', d.Denotes r' t.core := by
  induction t using WireType.induct generalizing r with
  | scalar t hs => cases t <;> first | exact ⟨r, h⟩ | exact absurd hs Bool.false_ne_true
  | aliased name target ih =>
    cases h with
    | aliased _ htarget => exact ih htarget
  | array element capacity ih =>
    cases h with
    | array _ helement => exact ih helement
  | message m => exact ⟨r, h⟩

/-- Enums and messages have names that no alias has, so only a type of the language can be hidden. -/
theorem Schema.Shadows.core_eq {d : SchemaDef} {schema : Schema}
    (hcompile : (Schema.compile d).value = .ok schema) {t : WireType} (ht : schema.Declares t)
    (h : schema.Shadows t) :
    t.core = .bool ∨ (∃ bits, t.core = .int bits) ∨ ∃ bits, t.core = .uint bits := by
  obtain ⟨hwell, hlists, -⟩ := (Schema.compile_decides d).1 schema hcompile
  obtain ⟨r, hr⟩ := hlists.exists_denoted ht
  obtain ⟨r', hcore⟩ := hr.exists_core
  have hleaf := t.isCore_core
  obtain ⟨a, ha, hname⟩ := h
  obtain ⟨a', ha', haname, -⟩ := exists_partner hlists.aliases ha
  have hdef := SchemaDef.aliasDef_mem.mpr ha'
  cases hc : t.core with
  | bool => exact Or.inl rfl
  | int bits => exact Or.inr (Or.inl ⟨bits, rfl⟩)
  | uint bits => exact Or.inr (Or.inr ⟨bits, rfl⟩)
  | aliased | array =>
    rw [hc] at hleaf
    exact absurd hleaf Bool.false_ne_true
  | enum e =>
    rw [hc] at hname hcore
    cases hcore with
    | enum he =>
      have heq := haname.symm.trans (TypeExpr.named.inj hname).symm
      cases SchemaDef.definition_unique hwell.names_nodup hdef he heq
  | message m =>
    rw [hc] at hname hcore
    cases hcore with
    | message hm hmname _ =>
      have heq := haname.symm.trans ((TypeExpr.named.inj hname).symm.trans hmname)
      cases SchemaDef.definition_unique hwell.names_nodup hdef hm heq

/-! ## 6. What a builder builds -/

namespace FormatBuilder

variable {κ : Type} [DecidableEq κ]

/-- The levels of what is built are those of the type; they do not depend on what was built before. -/
theorem build_eq (t : WireType) (address : Addresses κ) (b : FormatBuilder κ) :
    ((build t address).run b).1 =
      nestArrays Format.array t.capacities ((build t.core address).run b).1 := by
  induction t using WireType.induct with
  | scalar t hs => cases t <;> first | rfl | exact absurd hs Bool.false_ne_true
  | aliased name target ih => exact ih
  | array element capacity ih =>
    show Format.array ((build element address).run b).1 capacity = _
    rw [ih]
    rfl
  | message m => rfl

-- What is built for a leaf has no levels.
theorem levels_build {t : WireType} (ht : t.isCore = true) (address : Addresses κ)
    (b : FormatBuilder κ) : ((build t address).run b).1.capacities = [] ∧
      ((build t address).run b).1.core = ((build t address).run b).1 := by
  cases t <;> first | exact ⟨rfl, rfl⟩ | exact absurd ht Bool.false_ne_true

end FormatBuilder

/-! ## 7. All of them agree -/

namespace WireType

/-- Looking through the aliases of a type finds all of its levels. -/
structure SeesLevels (t : WireType) : Prop where
  /-- What is behind all levels is neither an alias nor an array. -/
  leaf : t.core.isCore = true
  /-- Removing the aliases in front hides no level. -/
  capacities : t.resolve.capacities = t.capacities
  core : t.resolve.core = t.core
  depth : t.arrayDepth = t.capacities.length

/-- The place of an element is indexed once for each level, so every field has an arm. -/
structure IndexesElements (t : WireType) : Prop where
  place (place : String) :
    t.elementPlace place 0 = (t.core, place ++ indexText 0 t.capacities.length)
  arm (number : UInt16) (name : String) : ∃ kind, Arm.ofField? ⟨number, name, t⟩ = some ⟨number,
      "self." ++ Identifier.ofField name ++ indexText 0 t.capacities.length, kind⟩ ∧
    (kind = .message ↔ ∃ m, t.core = .message m)

/-- The zero value makes an array for each level, around the zero value of the leaf. -/
structure NestsZeros (t : WireType) : Prop where
  expr : t.zeroExpr = nestArrays (fun element _ => .array element) t.capacities t.core.zeroExpr
  leaf (z : ZeroExpr) : t.core.zeroExpr ≠ .array z
  text : t.zeroExpr.text =
    String.join (List.replicate t.capacities.length "std::array::from_fn(|_| ") ++
      t.core.zeroExpr.text ++ String.join (List.replicate t.capacities.length ")")

/-- In the module of a schema, the type has its levels with their capacities once the names of aliases
are replaced by their definitions. -/
structure WrittenIn (t : WireType) (schema : Schema) : Prop where
  emitted (codecPath : String) {p : String × TypeExpr} : p ∈ schema.aliasDefs →
    .typeAlias p.1 p.2 ∈ (SourceModule.ofSchema schema codecPath).items
  unfolds : TypeExpr.Unfolds schema.aliasDefs t.typeExpr
    (nestArrays TypeExpr.array t.capacities t.core.typeExpr)
  /-- Nothing else can come of it, unless an alias hides the name of the leaf. -/
  only {e : TypeExpr} : TypeExpr.Unfolds schema.aliasDefs t.typeExpr e →
    e.Unfolded schema.aliasDefs →
      (e = nestArrays TypeExpr.array t.capacities t.core.typeExpr ↔ ¬ schema.Shadows t)
  /-- No alias hides the name of an enum or of a message. -/
  shadowed : schema.Shadows t →
    t.core = .bool ∨ (∃ bits, t.core = .int bits) ∨ ∃ bits, t.core = .uint bits

/-- The type of a struct's field has the levels of the type, around the name of the leaf, with the
aliases of the type itself and with those of every schema that declares it. -/
structure WritesArrays (t : WireType) : Prop where
  unfolds : TypeExpr.Unfolds t.aliasDefs t.typeExpr
    (nestArrays TypeExpr.array t.capacities t.core.typeExpr)
  leaf : ∃ name, t.core.typeExpr = .named name
  declared {d : SchemaDef} {schema : Schema} : (Schema.compile d).value = .ok schema →
    schema.Declares t → t.WrittenIn schema

/-- The expression for the format has the levels, and so have the format and what any builder
builds, around the same leaf. -/
structure BuildsArrays (t : WireType) : Prop where
  expr : t.formatExpr = nestArrays FormatExpr.array t.capacities t.core.formatExpr
  capacities : t.format.capacities = t.capacities
  core : t.format.core = t.core.format
  built (κ : Type) [DecidableEq κ] (address : Addresses κ) (b : FormatBuilder κ) :
    ((FormatBuilder.build t address).run b).1.capacities = t.capacities
  builtCore (κ : Type) [DecidableEq κ] (address : Addresses κ) (b : FormatBuilder κ) :
    ((FormatBuilder.build t address).run b).1.core =
      ((FormatBuilder.build t.core address).run b).1
  builtFormat (κ : Type) [DecidableEq κ] (address : Addresses κ) (b : FormatBuilder κ) {held} :
    t.Made → t.HeldIn held address → FormatBuilder.Faithful held b →
      ((FormatBuilder.build t address).run b).1.core = t.core.format

theorem seesLevels (t : WireType) : t.SeesLevels where
  leaf := t.isCore_core
  capacities := t.levels_resolve.1
  core := t.levels_resolve.2
  depth := t.arrayDepth_eq

theorem writtenIn {d : SchemaDef} {schema : Schema}
    (hcompile : (Schema.compile d).value = .ok schema) {t : WireType} (ht : schema.Declares t) :
    t.WrittenIn schema := by
  obtain ⟨-, hlists, -⟩ := (Schema.compile_decides d).1 schema hcompile
  obtain ⟨r, hr⟩ := hlists.exists_denoted ht
  have hunfolds := t.typeExpr_unfolds (hlists.aliasDefs_subset hr)
  refine ⟨fun codecPath _ hp => schema.typeAlias_mem_items codecPath hp, hunfolds,
    fun {e} he hdone => ?_, fun h => h.core_eq hcompile ht⟩
  rw [← schema.unfolded_core_iff t]
  constructor
  · rintro rfl
    exact TypeExpr.Unfolded.of_nestArrays hdone
  · intro hcore
    exact he.unique (Schema.nodup_aliasDefs hcompile) hunfolds hdone (hcore.nestArrays t.capacities)

theorem writesArrays (t : WireType) : t.WritesArrays where
  unfolds := t.typeExpr_unfolds (List.Subset.refl _)
  leaf := exists_name t.isCore_core
  declared hcompile ht := writtenIn hcompile ht

theorem buildsArrays (t : WireType) : t.BuildsArrays := by
  obtain ⟨hcap, hcore⟩ := levels_format t.isCore_core
  have hformat : t.format.core = t.core.format := by
    rw [format_eq, Format.core_nestArrays, hcore]
  have hbuilt : ∀ (κ : Type) [DecidableEq κ] (address : Addresses κ) (b : FormatBuilder κ),
      ((FormatBuilder.build t address).run b).1.capacities = t.capacities ∧
      ((FormatBuilder.build t address).run b).1.core =
        ((FormatBuilder.build t.core address).run b).1 := by
    intro κ _ address b
    obtain ⟨hcap, hcore⟩ := FormatBuilder.levels_build t.isCore_core address b
    rw [FormatBuilder.build_eq t address b, Format.capacities_nestArrays, Format.core_nestArrays,
      hcap, hcore, List.append_nil]
    exact ⟨rfl, rfl⟩
  refine ⟨t.formatExpr_eq, ?_, hformat, fun κ _ address b => (hbuilt κ address b).1,
    fun κ _ address b => (hbuilt κ address b).2, fun κ _ address b held hmade hheld hb => ?_⟩
  · rw [format_eq, Format.capacities_nestArrays, hcap, List.append_nil]
  · rw [(FormatBuilder.build_yields hmade hheld b hb).1, hformat]

/-- Generated source and formats have the array levels of the type: the places of elements and the
arms, the zero value, the type of the struct's field once the names of aliases are replaced by their
definitions, the expression for the format, the format, and what any builder builds. -/
theorem array_levels (t : WireType) :
    t.SeesLevels ∧ t.IndexesElements ∧ t.NestsZeros ∧ t.WritesArrays ∧ t.BuildsArrays := by
  refine ⟨t.seesLevels, ⟨fun place => t.elementPlace_eq place 0, fun number name => ?_⟩,
    ⟨t.zeroExpr_eq, zeroExpr_ne_array t.isCore_core, t.text_zeroExpr⟩, t.writesArrays,
    t.buildsArrays⟩
  exact ofField?_eq ⟨number, name, t⟩

end WireType

/-! ## 8. Aliases between arrays -/

/-- Pages of a grid, where the grid, its rows and its cells are aliases. -/
def gridSchema : SchemaDef where
  name := "grid"
  constants := []
  aliases := [⟨"Grid", .array (.named "Row") 2⟩, ⟨"Row", .array (.named "Cell") 3⟩, ⟨"Cell", .uint 5⟩]
  enums := []
  messages := [⟨"Sheet", [⟨1, "pages", .array (.named "Grid") 4⟩]⟩]

theorem WireType.array_levels_grid : ∃ schema t, (Schema.compile gridSchema).value = .ok schema ∧
    schema.Declares t ∧ t.typeExpr = .array (.named "Grid") 4 ∧
    (t.elementPlace "self.pages" 0).2 = "self.pages[di.index(0)][di.index(1)][di.index(2)]" ∧
    ∀ e, TypeExpr.Unfolds schema.aliasDefs t.typeExpr e → e.Unfolded schema.aliasDefs →
      e = .array (.array (.array (.named "u8") 3) 2) 4 := by
  have hall : (Schema.compile gridSchema).value.toOption.any (fun schema =>
      schema.aliases.all (fun a => a.name != "u8") &&
      schema.messages.any fun m => m.fields.any fun f =>
        f.type.typeExpr == .array (.named "Grid") 4 && f.type.capacities == [4, 2, 3] &&
        f.type.core.typeExpr == .named "u8") = true := by
    cbv
  obtain ⟨schema, hschema, hp⟩ := (Option.any_eq_true _ _).mp hall
  obtain ⟨hnames, hp⟩ := Bool.and_eq_true_iff.mp hp
  obtain ⟨m, hm, hp⟩ := List.any_eq_true.mp hp
  obtain ⟨f, hf, hp⟩ := List.any_eq_true.mp hp
  obtain ⟨hp, hleaf⟩ := Bool.and_eq_true_iff.mp hp
  obtain ⟨htype, hcap⟩ := Bool.and_eq_true_iff.mp hp
  have hcompile := ok_of_toOption hschema
  have hdeclares : schema.Declares f.type := .inl ⟨m, hm, f, hf, rfl⟩
  obtain ⟨-, hindexes, -, hwrites, -⟩ := f.type.array_levels
  have hshadows : ¬ schema.Shadows f.type := by
    rintro ⟨a, ha, hname⟩
    rw [eq_of_beq hleaf] at hname
    have hne := List.all_eq_true.mp hnames a ha
    rw [← TypeExpr.named.inj hname] at hne
    exact absurd hne (by simp)
  refine ⟨schema, f.type, hcompile, hdeclares, eq_of_beq htype, ?_, fun e he hdone => ?_⟩
  · rw [hindexes.place, eq_of_beq hcap]
    show "self.pages" ++ indexText 0 3 = _
    decide
  · have honly := ((hwrites.declared hcompile hdeclares).only he hdone).mpr hshadows
    rw [eq_of_beq hcap, eq_of_beq hleaf] at honly
    exact honly

/-- An alias with the name of the type that the numbers of another alias are written as. -/
def shadowSchema : SchemaDef where
  name := "shadow"
  constants := []
  aliases := [⟨"u8", .array .bool 2⟩, ⟨"Cell", .uint 5⟩]
  enums := []
  messages := []

/-- Without a check of aliases against the types of the language, a number can turn into an array. -/
theorem WireType.unfolds_shadowed : ∃ schema t, (Schema.compile shadowSchema).value = .ok schema ∧
    (∃ text, (Schema.render schema "bitproto").value = .ok text) ∧ schema.Declares t ∧
    t.capacities = [] ∧
    TypeExpr.Unfolds schema.aliasDefs t.typeExpr (.array (.named "bool") 2) ∧
    (TypeExpr.array (.named "bool") 2).Unfolded schema.aliasDefs ∧
    TypeExpr.array (.named "bool") 2 ≠ nestArrays TypeExpr.array t.capacities t.core.typeExpr := by
  have hall : (Schema.compile shadowSchema).value.toOption.any (fun schema =>
      (Schema.render schema "bitproto").value.toOption.isSome &&
      schema.aliasDefs == [("u8", .array (.named "bool") 2), ("Cell", .named "u8")] &&
      schema.aliases.any fun a => a.target.typeExpr == .named "u8" &&
        a.target.capacities == [] && a.target.core.typeExpr == .named "u8") = true := by
    cbv
  obtain ⟨schema, hschema, hp⟩ := (Option.any_eq_true _ _).mp hall
  obtain ⟨hp, halias⟩ := Bool.and_eq_true_iff.mp hp
  obtain ⟨hrender, hdefs⟩ := Bool.and_eq_true_iff.mp hp
  obtain ⟨text, htext⟩ := Option.isSome_iff_exists.mp hrender
  obtain ⟨a, ha, hp⟩ := List.any_eq_true.mp halias
  obtain ⟨hp, hcore⟩ := Bool.and_eq_true_iff.mp hp
  obtain ⟨htype, hcap⟩ := Bool.and_eq_true_iff.mp hp
  refine ⟨schema, a.target, ok_of_toOption hschema, ⟨text, ok_of_toOption htext⟩,
    .inr ⟨a, ha, rfl⟩, eq_of_beq hcap, ?_⟩
  rw [eq_of_beq htype, eq_of_beq hcap, eq_of_beq hcore, eq_of_beq hdefs]
  refine ⟨.definition List.mem_cons_self (.refl _), ?_, fun h => by cases h⟩
  intro definition hmem
  simp at hmem

end Bitwire
