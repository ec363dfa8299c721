import Bitwire.Proofs.ResolvedTypes

/-!
# The order in which messages are built

Resolving reports a message when it is built.  The names that are resolved are always in an order
in which each one comes behind all that it refers to, and the reports follow that order.  So a
message is reported once, behind the messages it is made of, and not at all if its references lead
to a cycle or to a name that is not declared, whether the schema compiles in the end or not.
-/

namespace Bitwire

/-! ## 1. Orders of names -/

/-- Declared names, the last one in front: each is new and refers only to names before it. -/
inductive SchemaDef.BuildOrder (d : SchemaDef) : List String → Prop
  | nil : BuildOrder d []
  | cons {n : String} {earlier : List String} : d.Declares n → n ∉ earlier →
      (∀ n', d.RefersTo n n' → n' ∈ earlier) → BuildOrder d earlier → BuildOrder d (n :: earlier)

namespace SchemaDef.BuildOrder

variable {d : SchemaDef} {names : List String}

theorem nodup (h : d.BuildOrder names) : names.Nodup := by
  induction h with
  | nil => exact List.nodup_nil
  | cons _ hnew _ _ ih => exact List.nodup_cons.mpr ⟨hnew, ih⟩

theorem declares (h : d.BuildOrder names) : ∀ n ∈ names, d.Declares n := by
  induction h with
  | nil => exact List.forall_mem_nil _
  | cons hn _ _ _ ih => exact List.forall_mem_cons.mpr ⟨hn, ih⟩

theorem of_append {later : List String} (h : d.BuildOrder (later ++ names)) :
    d.BuildOrder names := by
  induction later with
  | nil => exact h
  | cons n later ih =>
    cases h with
    | cons _ _ _ h => exact ih h

-- An order is closed under references, as each name refers to names before it.
theorem mem_of_refersTo (h : d.BuildOrder names) {n n' : String} (hn : n ∈ names)
    (href : d.RefersTo n n') : n' ∈ names := by
  induction h with
  | nil => exact absurd hn List.not_mem_nil
  | cons _ _ hrefs _ ih =>
    rcases List.mem_cons.mp hn with rfl | hn
    · exact List.mem_cons_of_mem _ (hrefs n' href)
    · exact List.mem_cons_of_mem _ (ih hn)

theorem mem_of_reflTransGen (h : d.BuildOrder names) {n n' : String} (hn : n ∈ names)
    (hreach : Relation.ReflTransGen d.RefersTo n n') : n' ∈ names := by
  induction hreach with
  | refl => exact hn
  | tail _ href ih => exact h.mem_of_refersTo ih href

-- References only lead backwards in an order.
theorem mem_of_transGen {n n' : String} (h : d.BuildOrder (n :: names))
    (hreach : Relation.TransGen d.RefersTo n n') : n' ∈ names := by
  cases h with
  | cons _ _ hrefs h =>
    obtain ⟨n'', href, hrest⟩ := Relation.TransGen.head'_iff.mp hreach
    exact h.mem_of_reflTransGen (hrefs n'' href) hrest

theorem acyclic (h : d.BuildOrder names) {n : String} (hn : n ∈ names) :
    ¬ Relation.TransGen d.RefersTo n n := by
  obtain ⟨later, earlier, rfl⟩ := List.append_of_mem hn
  intro hcycle
  have hmem := h.of_append.mem_of_transGen hcycle
  exact (List.nodup_cons.mp h.of_append.nodup).1 hmem

end SchemaDef.BuildOrder

/-! ## 2. Reports -/

namespace Event

/-- The message that an event reports as built. -/
def builtMessage? : Event → Option String
  | .layoutComputed message _ => some message
  | _ => none

/-- The messages that are reported as built, in the order of the reports. -/
def builtMessages (events : List Event) : List String :=
  events.filterMap builtMessage?

end Event

namespace SchemaDef

open Event (builtMessage? builtMessages)

/-- Whether a message is declared under a name. -/
def declaresMessage (d : SchemaDef) (n : String) : Bool :=
  d.messages.any (·.name == n)

/-- The reports after names were resolved, the last name in front: one for each message, and no
other. -/
def Reports (d : SchemaDef) (names : List String) (events : List Event) : Prop :=
  events.map builtMessage? = (names.reverse.filter d.declaresMessage).map some

/-- Reports of messages that are built once, each behind the messages that it refers to, directly or
by way of other definitions.  No reference leads from a message that is built to a name without a
definition, or to a cycle. -/
structure BuildsInOrder (d : SchemaDef) (events : List Event) : Prop where
  declared : ∀ n ∈ builtMessages events, ∃ m ∈ d.messages, m.name = n
  once : (builtMessages events).Nodup
  behind : ∀ before later n bits, events = before ++ .layoutComputed n bits :: later →
    ∀ m ∈ d.messages, Relation.TransGen d.RefersTo n m.name → m.name ∈ builtMessages before
  grounded : ∀ n ∈ builtMessages events, ∀ n', Relation.ReflTransGen d.RefersTo n n' →
    d.Declares n' ∧ ¬ Relation.TransGen d.RefersTo n' n'

variable {d : SchemaDef} {names : List String} {events : List Event}

theorem declaresMessage_iff {n : String} :
    d.declaresMessage n = true ↔ ∃ m ∈ d.messages, m.name = n := by
  simp [declaresMessage]

theorem Reports.builtMessages_eq (h : d.Reports names events) :
    builtMessages events = names.reverse.filter d.declaresMessage := by
  have hevents : builtMessages events = (events.map builtMessage?).filterMap id := by
    rw [List.filterMap_map]
    rfl
  rw [hevents, h, List.filterMap_map]
  exact List.filterMap_some

theorem Reports.nil (d : SchemaDef) : d.Reports [] [] :=
  rfl

theorem Reports.skip (h : d.Reports names events) {n : String} (hn : d.declaresMessage n = false) :
    d.Reports (n :: names) events := by
  unfold Reports
  rw [List.reverse_cons, List.filter_append, List.filter_cons_of_neg (by simp [hn]),
    List.filter_nil, List.append_nil]
  exact h

theorem Reports.report (h : d.Reports names events) {n : String} (hn : d.declaresMessage n = true)
    (bits : Nat) : d.Reports (n :: names) (events ++ [.layoutComputed n bits]) := by
  unfold Reports
  rw [List.reverse_cons, List.filter_append, List.filter_cons_of_pos hn, List.filter_nil,
    List.map_append, List.map_append, h]
  rfl

/-- Reports in the order of resolving are reports of messages in order. -/
theorem BuildOrder.buildsInOrder (h : d.BuildOrder names)
    (hbuilt : builtMessages events = names.reverse.filter d.declaresMessage) :
    d.BuildsInOrder events where
  declared n hn := by
    rw [hbuilt, List.mem_filter] at hn
    exact declaresMessage_iff.mp hn.2
  once := by
    rw [hbuilt]
    exact (List.nodup_reverse.mpr h.nodup).filter _
  behind before later n bits hevents m hm hreach := by
    -- the names are cut where the message stands
    have hcut : names.reverse.filter d.declaresMessage =
        builtMessages before ++ n :: builtMessages later := by
      rw [← hbuilt, hevents]
      unfold builtMessages
      rw [List.filterMap_append]
      rfl
    obtain ⟨front, back, hnames, hfront, hback⟩ := List.filter_eq_append_iff.mp hcut
    obtain ⟨skipped, rest, rfl, hskipped, hn, -⟩ := List.filter_eq_cons_iff.mp hback
    have horder : d.BuildOrder (n :: (front ++ skipped).reverse) := by
      have hsplit : names = rest.reverse ++ n :: (front ++ skipped).reverse := by
        rw [← List.reverse_reverse names, hnames]
        simp
      exact (hsplit ▸ h).of_append
    have hmem := List.mem_reverse.mp (horder.mem_of_transGen hreach)
    have hmessage : d.declaresMessage m.name = true := declaresMessage_iff.mpr ⟨m, hm, rfl⟩
    rw [← hfront, List.mem_filter]
    rcases List.mem_append.mp hmem with hmem | hmem
    · exact ⟨hmem, hmessage⟩
    · exact absurd hmessage (hskipped _ hmem)
  grounded n hn n' hreach := by
    rw [hbuilt, List.mem_filter, List.mem_reverse] at hn
    have hmem := h.mem_of_reflTransGen hn.1 hreach
    exact ⟨h.declares n' hmem, h.acyclic hmem⟩

end SchemaDef

/-! ## 3. Steps of resolving -/

namespace ResolverState

/-- The names that are resolved, the last one in front. -/
def names (s : ResolverState) : List String :=
  s.resolved.map Prod.fst

/-- What is resolved is in order, and the messages in it are what was reported. -/
structure Settled (d : SchemaDef) (s : ResolverState) : Prop where
  order : d.BuildOrder s.names
  reports : d.Reports s.names s.events

/-- Settled, while the names in `opened` are being resolved and those in `known` are resolved. -/
structure Steady (d : SchemaDef) (opened known : List String) (s : ResolverState) : Prop where
  settled : s.Settled d
  opened : ∀ o ∈ opened, o ∉ s.names
  known : known ⊆ s.names

/-- The type of `n` is made, and reported if it is a message, but not yet kept. -/
structure Finished (d : SchemaDef) (n : String) (opened known : List String) (s : ResolverState) :
    Prop where
  order : d.BuildOrder s.names
  reports : d.Reports (n :: s.names) s.events
  opened : ∀ o ∈ n :: opened, o ∉ s.names
  known : known ⊆ s.names

/-- All messages are resolved, and what was reported then is followed by one event. -/
def Concluded (d : SchemaDef) (event : Event) (s : ResolverState) : Prop :=
  ∃ before : ResolverState, before.Settled d ∧ d.messages.map MessageDef.name ⊆ before.names ∧
    s.events = before.events ++ [event]

variable {d : SchemaDef} {opened known known' : List String} {s : ResolverState}

theorem Steady.mono (h : s.Steady d opened known) (hsub : known' ⊆ known) :
    s.Steady d opened known' :=
  ⟨h.settled, h.opened, fun _ hn => h.known (hsub hn)⟩

theorem mem_names_of_lookup {n : String} {t : WireType} (h : s.resolved.lookup n = some t) :
    n ∈ s.names := by
  obtain ⟨before, after, hsplit, -⟩ := List.lookup_eq_some_iff.mp h
  simp [names, hsplit]

theorem Steady.of_lookup {n : String} {t : WireType} (h : s.Steady d opened known)
    (ht : s.resolved.lookup n = some t) : s.Steady d opened (n :: known) :=
  ⟨h.settled, h.opened, List.cons_subset.mpr ⟨mem_names_of_lookup ht, h.known⟩⟩

-- A name that is not that of a message is not reported.
theorem Steady.skip {n : String} (h : s.Steady d (n :: opened) known)
    (hn : d.declaresMessage n = false) : s.Finished d n opened known :=
  ⟨h.settled.order, h.settled.reports.skip hn, h.opened, h.known⟩

theorem Steady.report {n : String} (h : s.Steady d (n :: opened) known)
    (hn : d.declaresMessage n = true) (bits : Nat) :
    Finished d n opened known { s with events := s.events ++ [.layoutComputed n bits] } :=
  ⟨h.settled.order, h.settled.reports.report hn bits, h.opened, h.known⟩

-- Keeping the type of a name resolves it.
theorem Finished.keep {n : String} {t : WireType} (h : s.Finished d n opened known)
    (hn : d.Declares n) (hopened : n ∉ opened) (hrefs : ∀ n', d.RefersTo n n' → n' ∈ known) :
    Steady d opened (n :: known) { s with resolved := (n, t) :: s.resolved } where
  settled :=
    have hnew := h.opened n List.mem_cons_self
    ⟨.cons hn hnew (fun n' href => h.known (hrefs n' href)) h.order, h.reports⟩
  opened o ho hmem := by
    rcases List.mem_cons.mp hmem with rfl | hmem
    · exact hopened ho
    · exact h.opened o (List.mem_cons_of_mem n ho) hmem
  known := List.cons_subset_cons n h.known

theorem not_mem_names_of_lookup {n : String} (h : s.resolved.lookup n = none) : n ∉ s.names := by
  intro hmem
  obtain ⟨p, hp, rfl⟩ := List.mem_map.mp hmem
  exact bne_iff_ne.mp (List.lookup_eq_none_iff.mp h p hp) rfl

end ResolverState

namespace Resolve

/-- A step from states with a property to results and states with another.  Where it fails, what was
resolved and reported so far is settled. -/
def Keeps (d : SchemaDef) {α : Type} (pre : ResolverState → Prop) (x : Resolve α)
    (post : α → ResolverState → Prop) : Prop :=
  ∀ s, pre s → (∀ a s', x.run.run s = (.ok a, s') → post a s') ∧
    ∀ e s', x.run.run s = (.error e, s') → s'.Settled d

variable {d : SchemaDef} {α β : Type} {pre : ResolverState → Prop}

theorem Keeps.pure {a : α} {post : α → ResolverState → Prop} (h : ∀ s, pre s → post a s) :
    Keeps d pre (pure a) post := by
  refine fun s hs => ⟨fun a' s' hrun => ?_, fun e s' hrun => ?_⟩
  · cases hrun
    exact h s hs
  · cases hrun

theorem Keeps.throw {e : SchemaError} {post : α → ResolverState → Prop}
    (h : ∀ s, pre s → s.Settled d) : Keeps d pre (throw e : Resolve α) post := by
  refine fun s hs => ⟨fun a' s' hrun => ?_, fun e s' hrun => ?_⟩
  · cases hrun
  · cases hrun
    exact h s hs

theorem Keeps.bind {x : Resolve α} {f : α → Resolve β} {mid : α → ResolverState → Prop}
    {post : β → ResolverState → Prop} (hx : Keeps d pre x mid)
    (hf : ∀ a, Keeps d (mid a) (f a) post) : Keeps d pre (x >>= f) post := by
  intro s hs
  obtain ⟨hok, herror⟩ := hx s hs
  obtain ⟨result, s', hrun⟩ : ∃ result s', x.run.run s = (result, s') := ⟨_, _, rfl⟩
  cases result with
  | ok a =>
    rw [run_bind_ok f hrun]
    exact hf a s' (hok a s' hrun)
  | error e =>
    rw [run_bind_error f hrun]
    refine ⟨fun b s'' h => ?_, fun e' s'' h => ?_⟩
    · cases h
    · cases h
      exact herror e s' hrun

theorem Keeps.ofExcept {x : Except SchemaError α} {post : α → ResolverState → Prop}
    (hsettled : ∀ s, pre s → s.Settled d) (hpost : ∀ a, x = .ok a → ∀ s, pre s → post a s) :
    Keeps d pre (ofExcept x) post := by
  cases x with
  | ok a => exact Keeps.pure (hpost a rfl)
  | error e => exact Keeps.throw hsettled

theorem Keeps.get {f : ResolverState → Resolve β} {post : β → ResolverState → Prop}
    (hf : ∀ s, pre s → Keeps d (fun s' => s' = s) (f s) post) : Keeps d pre (get >>= f) post := by
  intro s hs
  have hget : (MonadState.get : Resolve ResolverState).run.run s = (.ok s, s) := rfl
  rw [run_bind_ok _ hget]
  exact hf s hs s rfl

theorem Keeps.modify {g : ResolverState → ResolverState} {post : PUnit → ResolverState → Prop}
    (h : ∀ s, pre s → post ⟨⟩ (g s)) : Keeps d pre (modify g : Resolve PUnit) post := by
  refine fun s hs => ⟨fun a s' hrun => ?_, fun e s' hrun => ?_⟩
  · cases hrun
    exact h s hs
  · cases hrun

theorem Keeps.mono {x : Resolve α} {pre' : ResolverState → Prop}
    {post post' : α → ResolverState → Prop} (hx : Keeps d pre x post)
    (hpre : ∀ s, pre' s → pre s) (hpost : ∀ a s, post a s → post' a s) : Keeps d pre' x post' :=
  fun s hs => ⟨fun a s' hrun => hpost a s' ((hx s (hpre s hs)).1 a s' hrun), (hx s (hpre s hs)).2⟩

-- What a state tells about the schema or a result can be taken out of its property.
theorem Keeps.given {P : Prop} {x : Resolve α} {post : α → ResolverState → Prop}
    (hx : P → Keeps d pre x post) : Keeps d (fun s => P ∧ pre s) x post :=
  fun s hs => hx hs.1 s hs.2

/-! ## 4. Names -/

open ResolverState (Settled Steady Finished not_mem_names_of_lookup)

section

variable {named : String → Resolve WireType} {opened known : List String}

-- A step that needs nothing resolved leaves everything as it is.
theorem ofExcept_keeps {α : Type} (x : Except SchemaError α) :
    Keeps d (Steady d opened known) (ofExcept x) fun _ => Steady d opened known :=
  Keeps.ofExcept (fun _ h => h.settled) fun _ _ _ h => h

theorem typeRef_keeps {r : TypeRef} (hnamed : ∀ n known, Keeps d (Steady d opened known) (named n)
      fun _ => Steady d opened (n :: known)) :
    Keeps d (Steady d opened known) (typeRef named r)
      fun _ => Steady d opened (r.names ++ known) := by
  induction r with
  | bool => exact Keeps.pure fun _ h => h
  | int | uint => exact ofExcept_keeps _
  | named n => exact hnamed n known
  | array element capacity ih =>
    apply ih.bind
    intro t
    exact ofExcept_keeps _

theorem fields_keeps {defs : List FieldDef} (hnamed : ∀ n known,
      Keeps d (Steady d opened known) (named n) fun _ => Steady d opened (n :: known)) :
    Keeps d (Steady d opened known) (fields named defs)
      fun _ => Steady d opened ((defs.map FieldDef.type).flatMap TypeRef.names ++ known) := by
  induction defs generalizing known with
  | nil => exact Keeps.pure fun _ h => h
  | cons f rest ih =>
    apply (typeRef_keeps hnamed).bind
    intro t
    apply ih.bind
    intro types
    refine Keeps.pure fun _ h => h.mono fun n hn => ?_
    simp only [List.map_cons, List.flatMap_cons, List.mem_append] at hn ⊢
    tauto

theorem report_keeps {n : String} (hn : d.declaresMessage n = true) (bits : Nat) :
    Keeps d (Steady d (n :: opened) known)
      (modify fun s => { s with events := s.events ++ [.layoutComputed n bits] })
      fun _ => Finished d n opened known :=
  Keeps.modify fun _ h => h.report hn bits

-- While a definition is turned into a type, its own name is open.
theorem definition_keeps (hnames : d.names.Nodup) {x : Definition} (hx : x ∈ d.definitions)
    (hnamed : ∀ n known, Keeps d (Steady d (x.name :: opened) known) (named n)
      fun _ => Steady d (x.name :: opened) (n :: known)) :
    Keeps d (Steady d (x.name :: opened) known) (definition named x)
      fun _ => Finished d x.name opened (x.mentions ++ known) := by
  -- only a message has the name of a message
  have hother : (∀ m, x ≠ .messageDef m) → d.declaresMessage x.name = false := by
    intro hne
    rw [Bool.eq_false_iff, Ne, SchemaDef.declaresMessage_iff]
    rintro ⟨m, hm, hname⟩
    exact hne m (SchemaDef.definition_unique hnames hx (SchemaDef.messageDef_mem.mpr hm) hname.symm)
  cases x with
  | aliasDef a =>
    have hn := hother fun m hm => by cases hm
    apply (typeRef_keeps hnamed).bind
    intro target
    refine Keeps.pure fun s h => (h.mono ?_).skip hn
    simp [Definition.mentions, Definition.types]
  | enumDef e =>
    have hn := hother fun m hm => by cases hm
    apply (ofExcept_keeps _).bind
    intro type
    exact Keeps.pure fun s h => h.skip hn
  | messageDef m =>
    have hn : d.declaresMessage m.name = true :=
      SchemaDef.declaresMessage_iff.mpr ⟨m, SchemaDef.messageDef_mem.mp hx, rfl⟩
    apply (fields_keeps hnamed).bind
    intro types
    apply Keeps.bind (Keeps.ofExcept (fun _ h => h.settled)
      fun type htype s h => And.intro (MessageType.make_ok htype).1 h)
    intro type
    apply Keeps.given
    intro hname
    rw [hname]
    exact (report_keeps hn type.layout.totalBits).bind fun _ => Keeps.pure fun _ h => h

theorem keep_keeps {n : String} (t : WireType) (hn : d.Declares n) (hopened : n ∉ opened)
    (hrefs : ∀ n', d.RefersTo n n' → n' ∈ known) :
    Keeps d (Finished d n opened known)
      (modify fun s => { s with resolved := (n, t) :: s.resolved })
      fun _ => Steady d opened (n :: known) :=
  Keeps.modify fun _ h => h.keep hn hopened hrefs

-- Once the type of its definition is kept, a name is no longer open.
theorem resolve_keeps (hnames : d.names.Nodup) {x : Definition} (hx : x ∈ d.definitions)
    (hnot : x.name ∉ opened)
    (hnamed : ∀ n known, Keeps d (Steady d (x.name :: opened) known) (named n)
      fun _ => Steady d (x.name :: opened) (n :: known)) :
    Keeps d (Steady d (x.name :: opened) known)
      (do
        let type ← definition named x
        modify fun s => { s with resolved := (x.name, type) :: s.resolved }
        return type)
      fun _ => Steady d opened (x.name :: known) := by
  apply (definition_keeps hnames hx hnamed).bind
  intro t
  have hrefs : ∀ n', d.RefersTo x.name n' → n' ∈ x.mentions ++ known := by
    rintro n' ⟨y, hy, hname, hmem⟩
    rw [SchemaDef.definition_unique hnames hy hx hname] at hmem
    exact List.mem_append_left _ hmem
  apply (keep_keeps t ⟨x, hx, rfl⟩ hnot hrefs).bind
  intro _
  have hsub : x.name :: known ⊆ x.name :: (x.mentions ++ known) :=
    List.cons_subset_cons _ (List.subset_append_right _ _)
  exact Keeps.pure fun _ h => h.mono hsub

end

theorem name_keeps (hnames : d.names.Nodup) {depth : Nat} {opened : List String} (n : String)
    (known : List String) : Keeps d (Steady d opened known) (name d depth opened n)
      fun _ => Steady d opened (n :: known) := by
  induction depth generalizing opened n known with
  | zero =>
    unfold name
    apply Keeps.get
    intro s hs
    split
    next ht => exact Keeps.pure fun _ heq => heq ▸ hs.of_lookup ht
    next =>
      split
      next => exact Keeps.throw fun _ heq => heq ▸ hs.settled
      next => exact Keeps.throw fun _ heq => heq ▸ hs.settled
      next hdepth => cases hdepth
  | succ depth ih =>
    unfold name
    apply Keeps.get
    intro s hs
    split
    next ht => exact Keeps.pure fun _ heq => heq ▸ hs.of_lookup ht
    next hnew =>
      split
      next => exact Keeps.throw fun _ heq => heq ▸ hs.settled
      next hdepth => cases hdepth
      next x depth' hfind hdepth =>
        obtain rfl := Nat.succ.inj hdepth
        obtain ⟨hx, rfl⟩ := SchemaDef.find?_some hfind
        split
        next => exact Keeps.throw fun _ heq => heq ▸ hs.settled
        next hopen =>
          have hnot : x.name ∉ opened := fun hmem => hopen (List.contains_iff_mem.mpr hmem)
          have hopened : s.Steady d (x.name :: opened) known :=
            ⟨hs.settled, List.forall_mem_cons.mpr ⟨not_mem_names_of_lookup hnew, hs.opened⟩,
              hs.known⟩
          exact (resolve_keeps hnames hx hnot ih).mono (fun _ heq => heq ▸ hopened) fun _ _ h => h

/-! ## 5. Schemas -/

-- Going through declared names resolves them all, whatever is done with the types.
theorem listed_keeps {α β : Type} (hnames : d.names.Nodup) (resolve : List α → Resolve (List β))
    (nameOf : α → String) (hnil : resolve [] = pure [])
    (hcons : ∀ a rest, ∃ next : WireType → Resolve (List β),
      resolve (a :: rest) = root d (nameOf a) >>= next ∧
        ∀ t, next t = resolve rest ∨ ∃ b, next t = do return b :: (← resolve rest))
    (as : List α) (known : List String) :
    Keeps d (Steady d [] known) (resolve as) fun _ => Steady d [] (as.map nameOf ++ known) := by
  induction as generalizing known with
  | nil =>
    rw [hnil]
    exact Keeps.pure fun _ h => h
  | cons a rest ih =>
    have hrest : Keeps d (Steady d [] (nameOf a :: known)) (resolve rest)
        fun _ => Steady d [] ((a :: rest).map nameOf ++ known) := by
      refine (ih (nameOf a :: known)).mono (fun _ h => h) fun _ _ h => h.mono ?_
      exact List.perm_middle.symm.subset
    obtain ⟨next, hresolve, hnext⟩ := hcons a rest
    rw [hresolve]
    apply (name_keeps hnames (nameOf a) known).bind
    intro t
    rcases hnext t with heq | ⟨b, heq⟩
    · rw [heq]
      exact hrest
    · rw [heq]
      exact hrest.bind fun _ => Keeps.pure fun _ h => h

end Resolve

namespace Schema

open Resolve (Keeps)
open ResolverState (Steady Concluded)

variable {d : SchemaDef}

section

variable (hnames : d.names.Nodup) (known : List String)

include hnames

theorem resolveAliases_keeps (aliases : List AliasDef) :
    Keeps d (Steady d [] known) (resolveAliases d aliases)
      fun _ => Steady d [] (aliases.map AliasDef.name ++ known) := by
  refine Resolve.listed_keeps hnames (resolveAliases d) AliasDef.name rfl
    (fun a rest => ⟨_, rfl, fun t => ?_⟩) aliases known
  cases t with
  | aliased name target => exact .inr ⟨⟨name, target⟩, rfl⟩
  | _ => exact .inl rfl

theorem resolveEnums_keeps (enums : List EnumDef) :
    Keeps d (Steady d [] known) (resolveEnums d enums)
      fun _ => Steady d [] (enums.map EnumDef.name ++ known) := by
  refine Resolve.listed_keeps hnames (resolveEnums d) EnumDef.name rfl
    (fun e rest => ⟨_, rfl, fun t => ?_⟩) enums known
  cases t with
  | «enum» type => exact .inr ⟨type, rfl⟩
  | _ => exact .inl rfl

theorem resolveMessages_keeps (messages : List MessageDef) :
    Keeps d (Steady d [] known) (resolveMessages d messages)
      fun _ => Steady d [] (messages.map MessageDef.name ++ known) := by
  refine Resolve.listed_keeps hnames (resolveMessages d) MessageDef.name rfl
    (fun m rest => ⟨_, rfl, fun t => ?_⟩) messages known
  cases t with
  | message type => exact .inr ⟨type, rfl⟩
  | _ => exact .inl rfl

end

theorem conclude_keeps (event : Event) (known : List String) :
    Keeps d (Steady d [] (d.messages.map MessageDef.name ++ known))
      (modify fun s => { s with events := s.events ++ [event] }) fun _ => Concluded d event :=
  Keeps.modify fun s h => ⟨s, h.settled, fun _ hn => h.known (List.mem_append_left known hn), rfl⟩

theorem resolveAll_keeps (d : SchemaDef) :
    Keeps d (Steady d [] []) (resolveAll d) fun schema => Concluded d
      (.schemaCompiled d.name schema.aliases.length schema.enums.length
        schema.messages.length) := by
  unfold resolveAll
  have hdistinct : Keeps d (Steady d [] []) (Resolve.ofExcept d.checkDistinct)
      fun _ s => d.names.Nodup ∧ Steady d [] [] s :=
    Keeps.ofExcept (fun _ h => h.settled) fun _ hok _ h => ⟨d.checkDistinct_ok_iff.mp hok, h⟩
  apply hdistinct.bind
  intro _
  apply Keeps.given
  intro hnames
  apply (resolveAliases_keeps hnames [] d.aliases).bind
  intro aliases
  apply (resolveEnums_keeps hnames _ d.enums).bind
  intro enums
  apply (resolveMessages_keeps hnames _ d.messages).bind
  intro messages
  exact (conclude_keeps _ _).bind fun _ => Keeps.pure fun _ h => h

end Schema

/-! ## 6. Reports of compiling -/

namespace SchemaDef

open Event (builtMessage? builtMessages)
open ResolverState (Settled Concluded)

/-- The reports of a schema that was compiled: one for each message, then one for the schema. -/
def ReportsAll (d : SchemaDef) (events : List Event) : Prop :=
  ∃ layouts, events = layouts ++
      [.schemaCompiled d.name d.aliases.length d.enums.length d.messages.length] ∧
    (∀ event ∈ layouts, (builtMessage? event).isSome) ∧
    (builtMessages layouts).Perm (d.messages.map MessageDef.name)

variable {d : SchemaDef} {s : ResolverState}

theorem Reports.isSome {names : List String} {events : List Event} (h : d.Reports names events) :
    ∀ event ∈ events, (builtMessage? event).isSome := by
  intro event hevent
  have hmem : builtMessage? event ∈ events.map builtMessage? := List.mem_map_of_mem hevent
  rw [h] at hmem
  obtain ⟨n, -, hn⟩ := List.mem_map.mp hmem
  rw [← hn]
  rfl

theorem buildsInOrder_of_concluded {event : Event} (h : s.Concluded d event)
    (hevent : builtMessage? event = none) : d.BuildsInOrder s.events := by
  obtain ⟨before, hbefore, -, hevents⟩ := h
  apply hbefore.order.buildsInOrder
  rw [← hbefore.reports.builtMessages_eq, hevents]
  simp [builtMessages, hevent]

theorem reportsAll_of_concluded (hnames : (d.messages.map MessageDef.name).Nodup)
    (h : s.Concluded d
      (.schemaCompiled d.name d.aliases.length d.enums.length d.messages.length)) :
    d.ReportsAll s.events := by
  obtain ⟨before, hbefore, hall, hevents⟩ := h
  refine ⟨before.events, hevents, hbefore.reports.isSome, ?_⟩
  have hbuilt := hbefore.reports.builtMessages_eq
  have hnodup := (hbefore.order.buildsInOrder hbuilt).once
  rw [List.perm_ext_iff_of_nodup hnodup hnames]
  intro n
  rw [hbuilt, List.mem_filter, List.mem_reverse, declaresMessage_iff, ← List.mem_map]
  exact ⟨fun h => h.2, fun h => ⟨hall h, h⟩⟩

theorem nodup_messages (h : d.names.Nodup) : (d.messages.map MessageDef.name).Nodup := by
  have hsub : (d.messages.map Definition.messageDef).Sublist d.definitions :=
    List.sublist_append_right _ _
  have hnodup := h.of_append_left.sublist (hsub.map Definition.name)
  rw [List.map_map] at hnodup
  exact hnodup

end SchemaDef

/-- Compiling builds each message once, after all that it refers to, and none whose references lead
to a cycle or to a name without a definition.  If the schema is accepted, all messages are built and
the schema is reported last. -/
theorem Schema.compile_buildsInOrder (d : SchemaDef) :
    d.BuildsInOrder (compile d).events ∧
    (∀ schema, (compile d).value = .ok schema → d.ReportsAll (compile d).events) ∧
    ∀ error, (compile d).value = .error error →
      ∀ event ∈ (compile d).events, (Event.builtMessage? event).isSome := by
  have hstart : ResolverState.Steady d [] [] {} :=
    ⟨⟨.nil, .nil d⟩, List.forall_mem_nil _, List.nil_subset _⟩
  obtain ⟨hok, herror⟩ := resolveAll_keeps d {} hstart
  obtain ⟨result, after, hrun⟩ : ∃ result after, (resolveAll d).run.run {} = (result, after) :=
    ⟨_, _, rfl⟩
  have hcompile : compile d = ⟨result, after.events⟩ := by rw [compile, hrun]
  rw [hcompile]
  cases result with
  | ok schema =>
    have hconcluded : after.Concluded d (.schemaCompiled d.name schema.aliases.length
        schema.enums.length schema.messages.length) := hok schema after hrun
    refine ⟨SchemaDef.buildsInOrder_of_concluded hconcluded rfl, fun schema' hschema => ?_, ?_⟩
    · have hvalue : (compile d).value = .ok schema := congrArg Logged.value hcompile
      obtain ⟨hwell, hlists, -⟩ := (compile_reports d).1 schema hvalue
      rw [← hlists.aliases.length_eq, ← hlists.messages.length_eq, hlists.enums, List.length_map]
        at hconcluded
      have hnodup := SchemaDef.nodup_messages hwell.names_nodup
      exact SchemaDef.reportsAll_of_concluded hnodup hconcluded
    · intro error h
      cases h
  | error e =>
    have hsettled := herror e after hrun
    refine ⟨hsettled.order.buildsInOrder hsettled.reports.builtMessages_eq, ?_, ?_⟩
    · intro schema h
      cases h
    · exact fun _ _ => hsettled.reports.isSome

/-- Tracks of points.  The alias is resolved first, and needs the message that is declared last. -/
def trackSchema : SchemaDef where
  name := "tracks"
  aliases := [⟨"Path", .array (.named "Point") 2⟩]
  messages := [⟨"Track", [⟨1, "path", .named "Path"⟩]⟩, ⟨"Point", [⟨1, "height", .uint 4⟩]⟩]

/-- A sound message, and one that holds itself. -/
def nestedSchema : SchemaDef where
  messages := [⟨"Point", [⟨1, "height", .uint 4⟩]⟩, ⟨"Nest", [⟨1, "inner", .named "Nest"⟩]⟩]

theorem Schema.compile_buildsInOrder_tracks :
    (compile trackSchema).events = [.layoutComputed "Point" 4, .layoutComputed "Track" 8,
      .schemaCompiled "tracks" 1 0 2] ∧
    trackSchema.BuildsInOrder (compile trackSchema).events ∧
    trackSchema.ReportsAll (compile trackSchema).events ∧
    (compile nestedSchema).value = .error (.cyclicType "Nest") ∧
    (compile nestedSchema).events = [.layoutComputed "Point" 4] ∧
    ∀ event ∈ (compile nestedSchema).events, (Event.builtMessage? event).isSome := by
  have hok : (compile trackSchema).value.isOk = true := by cbv
  have herror : (compile nestedSchema).value = .error (.cyclicType "Nest") := by cbv
  refine ⟨by cbv, (compile_buildsInOrder trackSchema).1, ?_, herror, by cbv, ?_⟩
  · cases hvalue : (compile trackSchema).value with
    | ok schema => exact (compile_buildsInOrder trackSchema).2.1 schema hvalue
    | error e =>
      rw [hvalue] at hok
      cases hok
  · exact (compile_buildsInOrder nestedSchema).2.2 _ herror

end Bitwire
