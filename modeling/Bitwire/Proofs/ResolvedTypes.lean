import Bitwire.Proofs.SchemaDefects

/-!
# What resolving yields

Resolving goes along the references of a schema.  The names that are open lead to the one that is
needed, so coming back to one of them is a cycle of references, and so is having as many open names
as there are definitions.  Every failure is a defect of the schema, and every type that is kept is a
made one that its name stands for.
-/

namespace Bitwire

/-- States whose types are those that their names stand for. -/
def ResolverState.Denoted (d : SchemaDef) (s : ResolverState) : Prop :=
  ∀ n t, s.resolved.lookup n = some t → d.Denotes (.named n) t ∧ t.Made

namespace Resolve

/-- A step that keeps to what names stand for, has a result with a property, and fails only with an
error that describes a defect of the schema. -/
def Decides (d : SchemaDef) {α : Type} (P : α → Prop) (x : Resolve α) : Prop :=
  ∀ s : ResolverState, s.Denoted d →
    (x.run.run s).2.Denoted d ∧ (∀ a, (x.run.run s).1 = .ok a → P a) ∧
      ∀ e, (x.run.run s).1 = .error e → d.Defect e

variable {d : SchemaDef}

section

variable {α β : Type} {P : α → Prop} {Q : β → Prop}

/-! ## 1. Steps -/

theorem Decides.pure {a : α} (h : P a) : Decides d P (pure a) :=
  fun _ hs => ⟨hs, fun _ ha => Except.ok.inj ha ▸ h, nofun⟩

theorem Decides.throw {e : SchemaError} (h : d.Defect e) : Decides d P (throw e) :=
  fun _ hs => ⟨hs, nofun, fun _ he => Except.error.inj he ▸ h⟩

theorem run_bind_ok {x : Resolve α} (f : α → Resolve β) {s s' : ResolverState} {a : α}
    (h : x.run.run s = (.ok a, s')) : (x >>= f).run.run s = (f a).run.run s' := by
  rw [ExceptT.run_bind, StateT.run_bind, h]
  rfl

theorem run_bind_error {x : Resolve α} (f : α → Resolve β) {s s' : ResolverState} {e : SchemaError}
    (h : x.run.run s = (.error e, s')) : (x >>= f).run.run s = (.error e, s') := by
  rw [ExceptT.run_bind, StateT.run_bind, h]
  rfl

-- A step with a result is made of steps with results.
theorem of_run_bind_ok {x : Resolve α} {f : α → Resolve β} {s after : ResolverState} {b : β}
    (h : (x >>= f).run.run s = (.ok b, after)) :
    ∃ a s', (f a).run.run s' = (.ok b, after) := by
  obtain ⟨result, s', hx⟩ : ∃ result s', x.run.run s = (result, s') := ⟨_, _, rfl⟩
  cases result with
  | ok a => exact ⟨a, s', run_bind_ok f hx ▸ h⟩
  | error e => cases (run_bind_error f hx).symm.trans h

theorem Decides.bind {x : Resolve α} {f : α → Resolve β} (hx : Decides d P x)
    (hf : ∀ a, P a → Decides d Q (f a)) : Decides d Q (x >>= f) := by
  intro s hs
  obtain ⟨hstate, hok, herror⟩ := hx s hs
  obtain ⟨result, s', hrun⟩ : ∃ result s', x.run.run s = (result, s') := ⟨_, _, rfl⟩
  rw [hrun] at hstate hok herror
  cases result with
  | ok a =>
    rw [run_bind_ok f hrun]
    exact hf a (hok a rfl) s' hstate
  | error e =>
    rw [run_bind_error f hrun]
    exact ⟨hstate, nofun, fun _ he => Except.error.inj he ▸ herror e rfl⟩

theorem Decides.ofExcept {x : Except SchemaError α} (hok : ∀ a, x = .ok a → P a)
    (herror : ∀ e, x = .error e → d.Defect e) : Decides d P (ofExcept x) := by
  cases x with
  | ok a => exact Decides.pure (hok a rfl)
  | error e => exact Decides.throw (herror e rfl)

theorem Decides.report (g : ResolverState → List Event) :
    Decides d (fun _ => True) (modify fun s => { s with events := g s } : Resolve PUnit) :=
  fun _ hs => ⟨hs, fun _ _ => trivial, nofun⟩

theorem Decides.get {f : ResolverState → Resolve β} (hf : ∀ s, s.Denoted d → Decides d Q (f s)) :
    Decides d Q (get >>= f) := by
  intro s hs
  have hget : (MonadState.get : Resolve ResolverState).run.run s = (.ok s, s) := rfl
  rw [run_bind_ok _ hget]
  exact hf s hs s hs

theorem Decides.keep {n : String} {t : WireType} (h : d.Denotes (.named n) t ∧ t.Made) :
    Decides d (fun _ => True)
      (modify fun s => { s with resolved := (n, t) :: s.resolved } : Resolve PUnit) := by
  refine fun s hs => ⟨fun n' t' hlookup => ?_, fun _ _ => trivial, nofun⟩
  change ((n, t) :: s.resolved).lookup n' = some t' at hlookup
  rw [List.lookup_cons] at hlookup
  split at hlookup
  next heq =>
    obtain rfl := eq_of_beq heq
    exact Option.some.inj hlookup ▸ h
  next => exact hs n' t' hlookup

-- In a well-formed schema a step has its result.
theorem Decides.exists_result {x : Resolve α} (hx : Decides d P x) (hwell : d.WellFormed) :
    ∃ a, P a := by
  obtain ⟨-, hok, herror⟩ := hx {} fun n t ht => by cases ht
  cases hresult : (x.run.run {}).1 with
  | ok a => exact ⟨a, hok a hresult⟩
  | error e => exact absurd hwell (herror e hresult).not_wellFormed

end

/-! ## 2. Definitions -/

section

variable {named : String → Resolve WireType}

theorem typeRef_decides {r : TypeRef}
    (hnamed : ∀ n ∈ r.names, Decides d (fun t => d.Denotes (.named n) t ∧ t.Made) (named n))
    (hwidths : r.bitWidths ⊆ d.bitWidths) (hcapacities : r.capacities ⊆ d.capacities) :
    Decides d (fun t => d.Denotes r t ∧ t.Made) (typeRef named r) := by
  induction r with
  | bool => exact Decides.pure ⟨.bool, trivial⟩
  | int bits =>
    refine Decides.ofExcept (fun t ht => ?_) fun e he => ?_
    · have hmake := ht
      obtain rfl := Except.ok.inj (WireType.bind_checkBits_ok ht).2
      exact ⟨.int bits, hmake⟩
    · obtain ⟨hbits, rfl⟩ := WireType.makeInt_error he
      exact .invalidBitWidth (hwidths (List.mem_singleton_self _)) hbits
  | uint bits =>
    refine Decides.ofExcept (fun t ht => ?_) fun e he => ?_
    · have hmake := ht
      obtain rfl := Except.ok.inj (WireType.bind_checkBits_ok ht).2
      exact ⟨.uint bits, hmake⟩
    · obtain ⟨hbits, rfl⟩ := WireType.makeUint_error he
      exact .invalidBitWidth (hwidths (List.mem_singleton_self _)) hbits
  | named n => exact hnamed n (List.mem_singleton_self n)
  | array element capacity ih =>
    obtain ⟨hcapacity, helement⟩ := List.cons_subset.mp hcapacities
    refine (ih hnamed hwidths helement).bind fun t ht => ?_
    refine Decides.ofExcept (fun a ha => ?_) fun e he => ?_
    · have hmake := ha
      obtain ⟨-, rfl⟩ := WireType.makeArray_ok ha
      exact ⟨.array capacity ht.1, ht.2, hmake⟩
    · obtain ⟨hzero, rfl⟩ := WireType.makeArray_error he
      exact .invalidArrayCapacity (hzero ▸ hcapacity)

theorem fields_decides {defs : List FieldDef}
    (hnamed : ∀ f ∈ defs, ∀ n ∈ f.type.names,
      Decides d (fun t => d.Denotes (.named n) t ∧ t.Made) (named n))
    (hbounds : ∀ f ∈ defs, f.type.bitWidths ⊆ d.bitWidths ∧ f.type.capacities ⊆ d.capacities) :
    Decides d (fun types => d.DenoteAll defs types ∧ ∀ g ∈ types, g.type.Made)
      (fields named defs) := by
  induction defs with
  | nil => exact Decides.pure ⟨.nil, fun g hg => absurd hg List.not_mem_nil⟩
  | cons f rest ih =>
    obtain ⟨hf, hrest⟩ := List.forall_mem_cons.mp hnamed
    obtain ⟨⟨hwidths, hcapacities⟩, hbounds⟩ := List.forall_mem_cons.mp hbounds
    refine (typeRef_decides hf hwidths hcapacities).bind fun t ht => ?_
    refine (ih hrest hbounds).bind fun types htypes =>
      Decides.pure ⟨.cons rfl rfl ht.1 htypes.1, List.forall_mem_cons.mpr ⟨ht.2, htypes.2⟩⟩

-- A definition makes the type that its name stands for.
theorem definition_decides {x : Definition} (hx : x ∈ d.definitions)
    (hnamed : ∀ n ∈ x.mentions, Decides d (fun t => d.Denotes (.named n) t ∧ t.Made) (named n)) :
    Decides d (fun t => d.Denotes (.named x.name) t ∧ t.Made) (definition named x) := by
  cases x with
  | aliasDef a =>
    have htarget : a.target ∈ (Definition.aliasDef a).types := List.mem_singleton_self _
    refine (typeRef_decides (fun n hn => hnamed n (List.mem_flatMap.mpr ⟨_, htarget, hn⟩))
      (SchemaDef.bitWidths_subset hx htarget) (SchemaDef.capacities_subset hx htarget)).bind
        fun t ht => Decides.pure ⟨.aliased hx ht.1, ht.2⟩
  | enumDef e =>
    have he := SchemaDef.enumDef_mem.mp hx
    refine Decides.bind (P := fun type => type = e.type ∧ e.WellFormed)
      (Decides.ofExcept (fun type htype => ?_) fun error herror => ?_)
      fun type ⟨htype, hwell⟩ => Decides.pure ?_
    · have heq : type = e.type := WireType.enum_make_ok htype
      exact ⟨heq, e.make_ok_iff.mp (heq ▸ htype)⟩
    · exact SchemaDef.defect_of_enum he (EnumType.make_error herror)
    · obtain rfl := htype
      exact ⟨.enum hx, e.make_ok_iff.mpr hwell⟩
  | messageDef m =>
    have htype : ∀ f ∈ m.fields, f.type ∈ (Definition.messageDef m).types :=
      fun f hf => List.mem_map_of_mem hf
    refine (fields_decides (fun f hf n hn => hnamed n (List.mem_flatMap.mpr ⟨_, htype f hf, hn⟩))
      fun f hf => ⟨SchemaDef.bitWidths_subset hx (htype f hf),
        SchemaDef.capacities_subset hx (htype f hf)⟩).bind fun types ⟨hdenote, hmade⟩ => ?_
    refine Decides.bind (P := fun type : MessageType =>
      type.name = m.name ∧ d.DenoteAll m.fields type.fields ∧ type.Made)
      (Decides.ofExcept (fun type hmake => ?_) fun error herror => ?_) fun type htype =>
        (Decides.report _).bind fun _ _ => Decides.pure ⟨.message hx htype.1 htype.2.1, htype.2.2⟩
    · obtain ⟨hname, hfields, -⟩ := MessageType.make_ok hmake
      refine ⟨hname, hfields ▸ hdenote, ?_⟩
      rw [← hname, ← hfields] at hmake
      rw [← hfields] at hmade
      exact ⟨(WireType.allMade_iff _).mpr hmade, hmake⟩
    · exact hdenote.defect (SchemaDef.messageDef_mem.mp hx) hmade herror

end

/-! ## 3. Open names -/

-- There is no room for more open names than there are definitions.
theorem mem_of_exhausted {opened : List String} {n : String} (hnodup : opened.Nodup)
    (hdeclared : ∀ o ∈ opened, d.Declares o) (hn : d.Declares n)
    (hlen : d.definitions.length ≤ opened.length) : n ∈ opened := by
  by_contra hnot
  have hsub : n :: opened ⊆ d.definitions.map Definition.name := by
    refine List.forall_mem_cons.mpr ⟨?_, fun o ho => ?_⟩
    · exact List.mem_map.mpr hn
    · exact List.mem_map.mpr (hdeclared o ho)
  have hle := ((List.nodup_cons.mpr ⟨hnot, hnodup⟩).subperm hsub).length_le
  rw [List.length_cons, List.length_map] at hle
  omega

/-- Open names lead to the name that is needed, and with `depth` more names no definition would be
left to open. -/
structure Open (d : SchemaDef) (depth : Nat) (opened : List String) (n : String) : Prop where
  nodup : opened.Nodup
  reaches : ∀ o ∈ opened, Relation.TransGen d.RefersTo o n
  enough : d.definitions.length ≤ opened.length + depth

namespace Open

theorem nil (d : SchemaDef) (n : String) : Open d d.definitions.length [] n :=
  ⟨List.nodup_nil, fun _ ho => absurd ho List.not_mem_nil, by rw [List.length_nil, Nat.zero_add]⟩

variable {depth : Nat} {opened : List String} {n : String}

theorem cons {n' : String} (h : Open d (depth + 1) opened n) (hnew : n ∉ opened)
    (href : d.RefersTo n n') : Open d depth (n :: opened) n' where
  nodup := List.nodup_cons.mpr ⟨hnew, h.nodup⟩
  reaches := List.forall_mem_cons.mpr ⟨.single href, fun o ho => (h.reaches o ho).tail href⟩
  enough := by
    have henough := h.enough
    rw [List.length_cons]
    omega

theorem declared (h : Open d depth opened n) : ∀ o ∈ opened, d.Declares o := by
  intro o ho
  obtain ⟨_, ⟨x, hx, hname, -⟩, -⟩ := Relation.TransGen.head'_iff.mp (h.reaches o ho)
  exact ⟨x, hx, hname⟩

-- Coming back to an open name is a cycle.
theorem cyclic (h : Open d depth opened n) (hn : n ∈ opened) : d.Defect (.cyclicType n) :=
  .cyclicType (h.reaches n hn)

theorem exhausted (h : Open d 0 opened n) (hn : d.Declares n) : d.Defect (.cyclicType n) :=
  h.cyclic (mem_of_exhausted h.nodup h.declared hn h.enough)

end Open

-- A name that is needed and not declared is mentioned by a definition.
theorem unresolved {n : String} (hneeded : d.Declares n ∨ ∃ x ∈ d.definitions, n ∈ x.mentions)
    (hn : ¬ d.Declares n) : d.Defect (.unresolvedType n) := by
  obtain ⟨x, hx, hmem⟩ := hneeded.resolve_left hn
  exact .unresolvedType hx hmem hn

theorem name_decides {depth : Nat} {opened : List String} {n : String} (h : Open d depth opened n)
    (hneeded : d.Declares n ∨ ∃ x ∈ d.definitions, n ∈ x.mentions) :
    Decides d (fun t => d.Denotes (.named n) t ∧ t.Made) (name d depth opened n) := by
  induction depth generalizing opened n with
  | zero =>
    unfold name
    refine Decides.get fun s hs => ?_
    split
    next t ht => exact Decides.pure (hs n t ht)
    next =>
      split
      next hfind => exact Decides.throw (unresolved hneeded (SchemaDef.find?_none hfind))
      next hfind _ => exact Decides.throw (h.exhausted ⟨_, SchemaDef.find?_some hfind⟩)
      next hdepth => cases hdepth
  | succ depth ih =>
    unfold name
    refine Decides.get fun s hs => ?_
    split
    next t ht => exact Decides.pure (hs n t ht)
    next =>
      split
      next hfind => exact Decides.throw (unresolved hneeded (SchemaDef.find?_none hfind))
      next hdepth => cases hdepth
      next x depth' hfind hdepth =>
        obtain rfl := Nat.succ.inj hdepth
        obtain ⟨hx, rfl⟩ := SchemaDef.find?_some hfind
        split
        next hopen =>
          exact Decides.bind (P := fun _ => False)
            (Decides.throw (h.cyclic (List.contains_iff_mem.mp hopen))) fun _ hfalse => hfalse.elim
        next hopen =>
          -- a new name: what its definition refers to is reached from all open names
          have hnew : x.name ∉ opened := fun hmem => hopen (List.contains_iff_mem.mpr hmem)
          refine (definition_decides hx fun n' hn' => ih (h.cons hnew ⟨x, hx, rfl, hn'⟩)
            (.inr ⟨x, hx, hn'⟩)).bind fun t ht => ?_
          exact (Decides.keep ht).bind fun _ _ => Decides.pure ht

theorem root_decides {n : String} (h : d.Declares n) :
    Decides d (fun t => d.Denotes (.named n) t ∧ t.Made) (root d n) :=
  name_decides (Open.nil d n) (.inl h)

end Resolve

/-- In a well-formed schema every declared name stands for a made type. -/
theorem SchemaDef.WellFormed.exists_denoted {d : SchemaDef} (h : d.WellFormed) {n : String}
    (hn : d.Declares n) : ∃ t, d.Denotes (.named n) t ∧ t.Made :=
  (Resolve.root_decides hn).exists_result h

/-! ## 4. Schemas -/

/-- A compiled schema that lists the declared definitions, in the order of declaration. -/
structure Schema.Lists (schema : Schema) (d : SchemaDef) : Prop where
  aliases : List.Forall₂ (fun (a : AliasDef) (t : AliasType) =>
    t.name = a.name ∧ d.Denotes a.target t.target) d.aliases schema.aliases
  enums : schema.enums = d.enums.map EnumDef.type
  messages : List.Forall₂ (fun (m : MessageDef) (t : MessageType) =>
    t.name = m.name ∧ d.DenoteAll m.fields t.fields) d.messages schema.messages

namespace Schema

open Resolve (Decides)

variable {d : SchemaDef}

-- The types of a schema have the names of the definitions.
theorem Lists.map_names {schema : Schema} (h : schema.Lists d) :
    schema.aliases.map AliasType.name ++ schema.enums.map EnumType.name ++
      schema.messages.map MessageTypeOf.name = d.definitions.map Definition.name := by
  have haliases : schema.aliases.map AliasType.name = d.aliases.map AliasDef.name :=
    map_eq_of_partners (fun _ _ ha => ha.1) h.aliases
  have hmessages : schema.messages.map MessageTypeOf.name = d.messages.map MessageDef.name :=
    map_eq_of_partners (fun _ _ hm => hm.1) h.messages
  rw [haliases, hmessages, h.enums, SchemaDef.definitions, List.map_append, List.map_append,
    List.map_map, List.map_map, List.map_map, List.map_map]
  rfl

section

variable (hnames : d.names.Nodup)

include hnames

theorem resolveAliases_decides {aliases : List AliasDef} (h : ∀ a ∈ aliases, a ∈ d.aliases) :
    Decides d (fun types => List.Forall₂ (fun (a : AliasDef) (t : AliasType) =>
        t.name = a.name ∧ d.Denotes a.target t.target) aliases types ∧
      ∀ a ∈ aliases, ∃ t, d.Denotes a.target t ∧ t.Made) (resolveAliases d aliases) := by
  induction aliases with
  | nil => exact Decides.pure ⟨.nil, fun a ha => absurd ha List.not_mem_nil⟩
  | cons a rest ih =>
    obtain ⟨ha, hrest⟩ := List.forall_mem_cons.mp h
    have hroot := Resolve.root_decides ⟨_, SchemaDef.aliasDef_mem.mpr ha, rfl⟩
    refine hroot.bind fun t ⟨ht, hmade⟩ => ?_
    obtain ⟨target, rfl, htarget⟩ := ht.of_alias hnames ha
    refine (ih hrest).bind fun types ⟨htypes, hall⟩ => Decides.pure ⟨.cons ⟨rfl, htarget⟩ htypes, ?_⟩
    exact List.forall_mem_cons.mpr ⟨⟨target, htarget, hmade⟩, hall⟩

theorem resolveEnums_decides {enums : List EnumDef} (h : ∀ e ∈ enums, e ∈ d.enums) :
    Decides d (fun types => types = enums.map EnumDef.type ∧ ∀ e ∈ enums, e.WellFormed)
      (resolveEnums d enums) := by
  induction enums with
  | nil => exact Decides.pure ⟨rfl, fun e he => absurd he List.not_mem_nil⟩
  | cons e rest ih =>
    obtain ⟨he, hrest⟩ := List.forall_mem_cons.mp h
    have hroot := Resolve.root_decides ⟨_, SchemaDef.enumDef_mem.mpr he, rfl⟩
    refine hroot.bind fun t ⟨ht, hmade⟩ => ?_
    obtain rfl := ht.of_enum hnames he
    exact (ih hrest).bind fun types ⟨htypes, hwell⟩ =>
      Decides.pure ⟨congrArg _ htypes, List.forall_mem_cons.mpr ⟨e.make_ok_iff.mp hmade, hwell⟩⟩

theorem resolveMessages_decides {messages : List MessageDef}
    (h : ∀ m ∈ messages, m ∈ d.messages) :
    Decides d (fun types => List.Forall₂ (fun (m : MessageDef) (t : MessageType) =>
        t.name = m.name ∧ d.DenoteAll m.fields t.fields) messages types ∧
      (∀ m ∈ messages, ∃ t : MessageType, d.DenoteAll m.fields t.fields ∧ t.Made) ∧
      ∀ t ∈ types, MessageType.Made t) (resolveMessages d messages) := by
  induction messages with
  | nil =>
    exact Decides.pure ⟨.nil, fun m hm => absurd hm List.not_mem_nil,
      fun t ht => absurd ht List.not_mem_nil⟩
  | cons m rest ih =>
    obtain ⟨hm, hrest⟩ := List.forall_mem_cons.mp h
    have hroot := Resolve.root_decides ⟨_, SchemaDef.messageDef_mem.mpr hm, rfl⟩
    refine hroot.bind fun t ⟨ht, hmade⟩ => ?_
    obtain ⟨type, rfl, hname, hfields⟩ := ht.of_message hnames hm
    refine (ih hrest).bind fun types ⟨htypes, hall, hmades⟩ =>
      Decides.pure ⟨.cons ⟨hname, hfields⟩ htypes, ?_, List.forall_mem_cons.mpr ⟨hmade, hmades⟩⟩
    exact List.forall_mem_cons.mpr ⟨⟨type, hfields, hmade⟩, hall⟩

end

theorem resolveAll_decides (d : SchemaDef) :
    Decides d (fun schema => d.WellFormed ∧ schema.Lists d ∧
      ∀ m ∈ schema.messages, MessageType.Made m) (resolveAll d) := by
  unfold resolveAll
  refine Decides.bind (P := fun _ : Unit => d.names.Nodup)
    (Decides.ofExcept (fun _ h => d.checkDistinct_ok_iff.mp h) fun e he => ?_) fun _ hnames => ?_
  · obtain ⟨n, rfl, hn⟩ := SchemaDef.checkDistinct_error he
    exact .duplicateDefinition hn
  refine (resolveAliases_decides hnames fun _ ha => ha).bind fun aliases haliases => ?_
  refine (resolveEnums_decides hnames fun _ he => he).bind fun enums henums => ?_
  refine (resolveMessages_decides hnames fun _ hm => hm).bind fun messages hmessages => ?_
  refine (Decides.report _).bind fun _ _ => Decides.pure ⟨?_, ?_, hmessages.2.2⟩
  · exact SchemaDef.wellFormed_of_denotes hnames henums.2 haliases.2 hmessages.2.1
  · exact ⟨haliases.1, henums.1, hmessages.1⟩

-- What compiling yields, and what its errors describe.
theorem compile_reports (d : SchemaDef) :
    (∀ schema, (compile d).value = .ok schema → d.WellFormed ∧ schema.Lists d ∧
      ∀ m ∈ schema.messages, MessageType.Made m) ∧
    ∀ e, (compile d).value = .error e → d.Defect e :=
  (resolveAll_decides d {} fun n t ht => by cases ht).2

-- What compiling yields and when it fails.
theorem compile_decides (d : SchemaDef) :
    (∀ schema, (compile d).value = .ok schema → d.WellFormed ∧ schema.Lists d ∧
      ∀ m ∈ schema.messages, MessageType.Made m) ∧
    ∀ e, (compile d).value = .error e → ¬ d.WellFormed :=
  ⟨(compile_reports d).1, fun e he => ((compile_reports d).2 e he).not_wellFormed⟩

/-- The messages of a compiled schema were made. -/
theorem compile_made {schema : Schema} (h : (compile d).value = .ok schema)
    {m : MessageType} (hm : m ∈ schema.messages) : m.Made :=
  ((compile_decides d).1 schema h).2.2 m hm

/-- A compiled schema has the name and the constants of its definition. -/
theorem compile_constants {schema : Schema} (h : (compile d).value = .ok schema) :
    schema.name = d.name ∧ schema.constants = d.constants := by
  obtain ⟨result, after, hrun⟩ : ∃ result after, (resolveAll d).run.run {} = (result, after) :=
    ⟨_, _, rfl⟩
  have hresult : result = .ok schema := by
    rw [compile, hrun] at h
    exact h
  rw [hresult] at hrun
  obtain ⟨_, _, haliases⟩ := Resolve.of_run_bind_ok hrun
  obtain ⟨aliases, _, henums⟩ := Resolve.of_run_bind_ok haliases
  obtain ⟨enums, _, hmessages⟩ := Resolve.of_run_bind_ok henums
  obtain ⟨messages, _, hreport⟩ := Resolve.of_run_bind_ok hmessages
  obtain ⟨_, _, hreturn⟩ := Resolve.of_run_bind_ok hreport
  cases hreturn
  exact ⟨rfl, rfl⟩

end Schema

end Bitwire
