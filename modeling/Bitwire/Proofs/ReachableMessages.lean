import Bitwire.Proofs.FormatPlaces
import Bitwire.Proofs.WireFormat

/-!
# Messages that can be reached

A dynamic message is made of zeros or from a record, and afterwards changes through its accessor
only: a byte is added to a value, or bytes are decoded into it, by whatever format, in the message
itself or in one nested in it.  However it was reached, it has the shape of its format and no
pattern is wider than its field, so it is known by the record of its fields.
-/

namespace Bitwire

namespace DynamicMessage

/-! ## 1. What can be done to a message -/

/-- What can be done to a message. -/
inductive Action where
  /-- Adds a byte to the value at a place, which may lead nowhere. -/
  | setByte (place : Place) (shift : Nat) (b : UInt8)
  /-- Decodes bytes by a format, which may be that of other messages. -/
  | decodeInto (f : MessageFormat) (data : List UInt8)

/-- The message that an action leaves; bytes that are refused leave it as it was. -/
def Action.run : Action → DynamicMessage → DynamicMessage
  | .setByte place shift b, msg => (accessor.setByte msg place shift b).run
  | .decodeInto f data, msg =>
    match (f.decodeInto accessor msg data).run.value with
    | .ok msg' => msg'
    | .error _ => msg

/-- The message after an action on the one that a trail of places enters, if it enters one. -/
def act (msg : DynamicMessage) (trail : List Place) (action : Action) : Option DynamicMessage :=
  (accessor.enterMut (fun child => pure (action.run child, ())) trail msg).run.map Prod.fst

/-- The messages that can be reached from those that a format makes. -/
inductive Reachable (f : MessageFormat) : DynamicMessage → Prop
  | zeroed {msg : DynamicMessage} :
      (zeroed f : Except (Failure CodecError) DynamicMessage) = .ok msg → Reachable f msg
  | recorded {r : Record} {msg : DynamicMessage} : ofRecord f r = .ok msg → Reachable f msg
  | changed {msg msg' : DynamicMessage} (trail : List Place) (action : Action) : Reachable f msg →
      msg.act trail action = some msg' → Reachable f msg'

/-! ## 2. One action -/

/-- A change of messages that keeps their format and keeps them fitting. -/
def Keeps (change : DynamicMessage → DynamicMessage) : Prop :=
  ∀ msg, (change msg).format = msg.format ∧ (msg.Fits → (change msg).Fits)

theorem keeps_setByte (place : Place) (shift : Nat) (b : UInt8) :
    Keeps fun msg => msg.setByte place shift b := by
  refine fun msg => ⟨setByte_format msg place shift b, fun hfit => ?_⟩
  show (msg.setByte place shift b).Fits
  unfold setByte
  split
  next p g hloc =>
    -- a leaf that fits is one of a scalar
    have hg : g.isScalar = true := by
      have hleaf := hfit.of_locate? hloc
      cases g with
      | array | message => exact absurd hleaf not_false
      | bool | int | uint | enum => rfl
    exact hfit.replace hloc ((Format.fits_leaf hg _).mpr (addByte_lt hg p shift b))
  next => exact hfit

theorem keeps_within {change : DynamicMessage → DynamicMessage} (h : Keeps change)
    (trail : List Place) : Keeps (within change trail) := by
  refine fun msg => ⟨within_format (fun msg => (h msg).1) trail msg, fun hfit => ?_⟩
  induction trail generalizing msg with
  | nil => exact (h msg).2 hfit
  | cons place rest ih =>
    unfold within
    split
    next child hchild =>
      obtain ⟨hloc, hfits⟩ := hfit.of_message? hchild
      have hfit' := ih child hfits
      unfold Fits at hfit'
      rw [within_format (fun msg => (h msg).1)] at hfit'
      exact hfit.replace hloc hfit'
    next => exact hfit

-- Adding what a byte holds for any visits is adding parts one after the other.
theorem keeps_writeAll (input : UInt8) (visits : List Visit) :
    Keeps fun msg => (Visit.writeAll accessor input visits msg).run := by
  intro msg
  show ((Visit.writeAll accessor input visits msg).run).format = msg.format ∧
    (msg.Fits → ((Visit.writeAll accessor input visits msg).run).Fits)
  rw [writeAll_run]
  induction Visit.partsAll visits generalizing msg with
  | nil => exact ⟨rfl, id⟩
  | cons part parts ih =>
    have hput := keeps_within (keeps_setByte part.place (part.span.contribution input).1
      (part.span.contribution input).2) part.trail msg
    exact ⟨(ih (msg.put input part)).1.trans hput.1, fun hfit => (ih _).2 (hput.2 hfit)⟩

theorem keeps_decodeFrom (f : MessageFormat) (data : List UInt8) (byte : Nat) :
    Keeps fun msg => (f.decodeFrom accessor data byte msg).run := by
  induction data generalizing byte with
  | nil => exact fun msg => ⟨rfl, id⟩
  | cons input rest ih =>
    intro msg
    have hwrite := keeps_writeAll input (f.visits byte) msg
    have hrest := ih (byte + 1) (Visit.writeAll accessor input (f.visits byte) msg).run
    exact ⟨hrest.1.trans hwrite.1, fun hfit => hrest.2 (hwrite.2 hfit)⟩

theorem keeps_run (action : Action) : Keeps action.run := by
  cases action with
  | setByte place shift b => exact keeps_setByte place shift b
  | decodeInto f data =>
    intro msg
    by_cases hlen : f.byteCount ≤ data.length
    · have hrun : (Action.decodeInto f data).run msg =
          (f.decodeFrom accessor (data.take f.byteCount) 0 msg).run := by
        simp only [Action.run, MessageFormat.decodeInto_run accessor hlen, Logged.report]
      rw [hrun]
      exact keeps_decodeFrom f (data.take f.byteCount) 0 msg
    · have hrun : (Action.decodeInto f data).run msg = msg := by
        simp only [Action.run, MessageFormat.decodeInto, Nat.lt_of_not_le hlen, if_true]
        rfl
      rw [hrun]
      exact ⟨rfl, id⟩

/-! ## 3. Nested messages -/

theorem enterMut_cons {β : Type} (act : DynamicMessage → Id (DynamicMessage × β)) (place : Place)
    (rest : List Place) (msg : DynamicMessage) :
    (accessor.enterMut act (place :: rest) msg).run =
      (msg.message? place).bind fun child => ((accessor.enterMut act rest child).run).map
        fun found => (msg.putMessage place found.1, found.2) := by
  have h : accessor.messageMut? msg place =
      pure ((msg.message? place).map fun child => (child, msg.putMessage place)) := rfl
  rw [Accessor.enterMut, h, pure_bind]
  cases msg.message? place with
  | none => rfl
  | some child =>
    simp only [Option.map_some, Option.bind_some, Id.run_bind]
    cases (accessor.enterMut act rest child).run <;> rfl

-- An action behind a trail is an action within the message, if the trail enters one.
theorem act_eq_some {action : Action} {trail : List Place} {msg msg' : DynamicMessage}
    (h : msg.act trail action = some msg') : msg' = within action.run trail msg := by
  obtain ⟨⟨found, _⟩, hfound, rfl⟩ := Option.map_eq_some_iff.mp h
  show found = within action.run trail msg
  clear h
  induction trail generalizing msg found with
  | nil => exact (congrArg Prod.fst (Option.some.inj hfound)).symm
  | cons place rest ih =>
    rw [enterMut_cons] at hfound
    obtain ⟨child, hchild, hfound⟩ := Option.bind_eq_some_iff.mp hfound
    obtain ⟨⟨child', _⟩, hrest, hput⟩ := Option.map_eq_some_iff.mp hfound
    unfold within
    rw [hchild]
    show found = msg.putMessage place (within action.run rest child)
    rw [← ih child' hrest]
    exact (congrArg Prod.fst hput).symm

-- The nested message at a place has the format that the message's format has there.
theorem Fits.map_message? {msg : DynamicMessage} (hfit : msg.Fits) (h : msg.format.Sound)
    (place : Place) : (msg.message? place).map DynamicMessage.format = msg.format.enter? [place] := by
  unfold MessageFormat.enter? MessageFormat.enter?
  cases hat : msg.format.formatAt? place with
  | none =>
    cases hchild : msg.message? place with
    | none => rfl
    | some child =>
      have := hfit.formatAt?_of_locate? h (hfit.of_message? hchild).1
      exact absurd (this.symm.trans hat) (by simp)
  | some g =>
    obtain ⟨node, hloc, hnode⟩ := hfit.exists_locate? h hat
    unfold message?
    rw [hloc]
    cases g with
    | message f =>
      obtain ⟨nodes, rfl, -⟩ := hnode.exists_nodes
      rfl
    | array element capacity =>
      obtain ⟨items, rfl, -⟩ := hnode.exists_items
      rfl
    | bool | int | uint | enum =>
      obtain ⟨p, rfl, -⟩ := hnode.exists_leaf rfl
      rfl

-- What a trail enters has the format that the trail leads to, and fits it.
theorem Fits.map_enter {msg : DynamicMessage} (hfit : msg.Fits) (h : msg.format.Sound)
    (trail : List Place) :
    (accessor.enter trail msg).run.map DynamicMessage.format = msg.format.enter? trail ∧
      ∀ child, (accessor.enter trail msg).run = some child → child.Fits := by
  induction trail generalizing msg with
  | nil =>
    refine ⟨by unfold MessageFormat.enter?; rfl, fun child hchild => ?_⟩
    exact Option.some.inj hchild ▸ hfit
  | cons place rest ih =>
    have hmap := hfit.map_message? h place
    rw [enter_cons]
    unfold MessageFormat.enter? MessageFormat.enter? at hmap
    cases hchild : msg.message? place with
    | none =>
      rw [hchild] at hmap
      refine ⟨?_, fun child h => absurd h (by simp)⟩
      unfold MessageFormat.enter?
      split
      next inner hat =>
        rw [hat] at hmap
        exact absurd hmap (by simp)
      next => rfl
    | some child =>
      obtain ⟨hloc, hchildfits⟩ := hfit.of_message? hchild
      have hat := hfit.formatAt?_of_locate? h hloc
      obtain ⟨hmap, hfits⟩ := ih hchildfits (h.formatAt? hat)
      rw [Option.bind_some]
      refine ⟨?_, hfits⟩
      unfold MessageFormat.enter?
      rw [hat]
      exact hmap

end DynamicMessage

/-! ## 4. Values that are read -/

-- Entries of different names keep their values when they are put in order.
theorem Record.lookup_ofList {entries : List (String × Value)} (h : (entries.map Prod.fst).Nodup)
    (name : String) : (ofList entries).lookup name = entries.lookup name := by
  have hperm := ofList_perm h
  apply Option.ext
  intro value
  constructor
  · exact fun hlookup => lookup_of_mem h (hperm.mem_iff.mp (mem_of_lookup hlookup))
  · exact fun hlookup =>
      lookup_of_mem ((hperm.map Prod.fst).nodup_iff.mpr h)
        (hperm.mem_iff.mpr (mem_of_lookup hlookup))

namespace Node

mutual

/-- The value that a node of a format stands for; there is none if the node, or one inside it, does
not match its format. -/
def value? : Node → Format → Option Value
  | .leaf pattern, .bool => some (.bool (pattern != 0))
  | .leaf pattern, .int bits => some (.int (Pattern.signExtend pattern bits))
  | .leaf pattern, .uint _ => some (.uint pattern)
  | .leaf pattern, .enum _ => some (.uint pattern)
  | .array ⟨items⟩, .array element _ => (itemValues? items element).map .array
  | .message own ⟨nodes⟩, .message _ =>
    (fieldValues? nodes own.fields.toList).map fun entries => .message (Record.ofList entries)
  | _, _ => none

/-- The values of the elements of an array, if every node matches. -/
def itemValues? : List Node → Format → Option (List Value)
  | [], _ => some []
  | item :: rest, element =>
    (item.value? element).bind fun value => (itemValues? rest element).map (value :: ·)

/-- The values of fields, with their names, if every node matches. -/
def fieldValues? : List Node → List FieldFormat → Option (List (String × Value))
  | node :: nodes, ⟨_, name, _, format⟩ :: fields =>
    (node.value? format).bind fun value => (fieldValues? nodes fields).map ((name, value) :: ·)
  | _, _ => some []

end

theorem itemValues?_eq_some {items : List Node} {element : Format}
    (h : ∀ item ∈ items, item.value? element = some (item.toValue element)) :
    itemValues? items element = some (itemValues items element) := by
  induction items with
  | nil => rfl
  | cons item rest ih =>
    have hrest := ih fun item hitem => h item (List.mem_cons_of_mem _ hitem)
    rw [itemValues?, h item List.mem_cons_self, Option.bind_some, hrest]
    rfl

theorem fieldValues?_eq_some {fields : List FieldFormat} {nodes : List Node}
    (h : List.Forall₂ (fun f node => node.value? f.format = some (node.toValue f.format))
      fields nodes) : fieldValues? nodes fields = some (fieldValues nodes fields) := by
  induction h with
  | nil => rfl
  | cons hf _ ih =>
    rw [fieldValues?, hf, Option.bind_some, ih]
    rfl

end Node

namespace Format

-- In a fitting node every node matches its format.
theorem Fits.value? {f : Format} {node : Node} (h : f.Fits node) :
    node.value? f = some (node.toValue f) := by
  induction h using Fits.node_induct with
  | scalar f p hs _ => cases f <;> first | rfl | exact absurd hs Bool.false_ne_true
  | array element items _ ih =>
    rw [Node.value?, Node.itemValues?_eq_some ih]
    rfl
  | message name fields totalBits nodes ih =>
    rw [Node.value?, Node.fieldValues?_eq_some (ih.imp fun _ _ hf => hf.snd)]
    rfl

end Format

namespace DynamicMessage

/-- The values of the fields of a message, with their names, if every node matches its format. -/
def fieldValues? (msg : DynamicMessage) : Option (List (String × Value)) :=
  Node.fieldValues? msg.nodes.toList msg.format.fields.toList

theorem Fits.fieldValues? {msg : DynamicMessage} (h : msg.Fits) : msg.fieldValues? =
    some (Node.fieldValues msg.nodes.toList msg.format.fields.toList) :=
  Node.fieldValues?_eq_some (h.nodes.imp fun _ _ hf => hf.value?)

-- The record of a message has what its fields have, under their names.
theorem Fits.get?_toRecord {msg : DynamicMessage} (hfit : msg.Fits) (hp : msg.format.Proper)
    (name : String) : msg.toRecord.get? name = msg.get? name := by
  apply Record.lookup_ofList
  rw [Node.map_fst_fieldValues hfit.nodes.length_eq.symm]
  exact hp.names_nodup

/-! ## 5. All messages that can be reached -/

theorem Reachable.isAllocatable {f : MessageFormat} {msg : DynamicMessage}
    (hmsg : Reachable f msg) : f.isAllocatable = true := by
  by_contra hmemory
  induction hmsg with
  | zeroed hmade =>
    rw [zeroed_of_not hmemory] at hmade
    cases hmade
  | recorded hr =>
    rw [ofRecord, MessageFormat.allocate_of_not hmemory] at hr
    cases hr
  | changed _ _ _ _ ih => exact ih

theorem Reachable.fits {f : MessageFormat} (h : f.Sound) (hp : f.Proper) {msg : DynamicMessage}
    (hmsg : Reachable f msg) : msg.format = f ∧ msg.Fits := by
  have hmemory := hmsg.isAllocatable
  induction hmsg with
  | zeroed hmade =>
    rw [zeroed_of hmemory] at hmade
    obtain rfl := Except.ok.inj hmade
    exact ⟨rfl, fits_blank f⟩
  | recorded hr =>
    obtain ⟨-, -, rfl⟩ := (ofRecord_ok_iff h hp _ _).mp hr
    exact ⟨rfl, fits_storing h _⟩
  | @changed msg _ trail action _ hact ih =>
    obtain rfl := act_eq_some hact
    have hkeeps := keeps_within (keeps_run action) trail msg
    exact ⟨hkeeps.1.trans ih.1, hkeeps.2 ih.2⟩

/-- A message of a compiled schema, however it was reached, has the shape of its format and no
pattern that is too wide, and so has every message nested in it, whose format is the one that the
outer format has there.  Reading its fields meets no node that does not match, one by one gives what
all together give, and the record that is read makes the same message. -/
theorem Reachable.conforms {d : SchemaDef} {schema : Schema} {m : MessageType}
    {msg : DynamicMessage} (hschema : (Schema.compile d).value = .ok schema)
    (hm : m ∈ schema.messages) (hmsg : Reachable m.format msg) :
    msg.format = m.format ∧ msg.Fits ∧
      (∀ trail, (accessor.enter trail msg).run.map DynamicMessage.format = m.format.enter? trail ∧
        ∀ child, (accessor.enter trail msg).run = some child → child.Fits) ∧
      msg.fieldValues?.map Record.ofList = some msg.toRecord ∧
      (∀ name, msg.fieldValues?.map (·.lookup name) = some (msg.get? name) ∧
        msg.get? name = msg.toRecord.get? name) ∧
      ofRecord m.format msg.toRecord = .ok msg := by
  obtain ⟨h, hp, -⟩ := (Schema.compile_made hschema hm).format
  obtain ⟨hformat, hfit⟩ := hmsg.fits h hp
  have hmemory := hmsg.isAllocatable
  rw [← hformat] at h hp hmemory ⊢
  refine ⟨rfl, hfit, hfit.map_enter h, ?_, fun name => ⟨?_, (hfit.get?_toRecord hp name).symm⟩,
    hfit.ofRecord_toRecord h hp hmemory⟩
  · rw [hfit.fieldValues?]
    rfl
  · rw [hfit.fieldValues?]
    rfl

theorem Reachable.conforms_station : ∃ schema m msg,
    (Schema.compile stationSchema).value = .ok schema ∧ m ∈ schema.messages ∧
      Reachable m.format msg ∧ msg.Fits ∧ ofRecord m.format msg.toRecord = .ok msg ∧
      (m.encode msg.toRecord).value.toOption = some [7, 192, 3, 0, 0, 0, 0] := by
  -- a byte too high for a temperature, then bytes decoded by a format with other fields
  obtain ⟨schema, m, hschema, hm, hp⟩ := @Schema.exists_message stationSchema "Station"
    (fun m => m.format.isAllocatable &&
      (((blank m.format).act [⟨4, [1]⟩] (.setByte ⟨1, []⟩ 3 255)).bind fun msg =>
        msg.act [] (.decodeInto
          (.ofFields "Other" [⟨1, "a", 0, .uint 8⟩, ⟨4, "b", 8, .array .bool 3⟩])
          [255, 255])).any fun msg =>
          (m.encode msg.toRecord).value.toOption == some [7, 192, 3, 0, 0, 0, 0]) (by cbv)
  obtain ⟨hmemory, hp⟩ := Bool.and_eq_true_iff.mp hp
  obtain ⟨msg, hmsg, hbytes⟩ := (Option.any_eq_true _ _).mp hp
  obtain ⟨first, hfirst, hsecond⟩ := Option.bind_eq_some_iff.mp hmsg
  have hreach : Reachable m.format msg :=
    .changed _ _ (.changed _ _ (.zeroed (zeroed_of hmemory)) hfirst) hsecond
  obtain ⟨-, hfit, -, -, -, hback⟩ := Reachable.conforms hschema hm hreach
  exact ⟨schema, m, msg, hschema, hm, hreach, hfit, hback, eq_of_beq hbytes⟩

end DynamicMessage

end Bitwire
