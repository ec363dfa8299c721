import Bitwire.Proofs.FormatPlaces
import Bitwire.Proofs.Placement

/-!
# Addresses of stored values

A place of a dynamic message is followed here by looking at one field after the other and then at
one array level after the other, in the tree of nodes alone.  What the message itself finds at a
place, by bisection and along the format, is the same, as long as numbers ascend and the message
fits its format; and what is put at one place is seen at no other.
-/

namespace Bitwire

namespace Format

/-! ## 1. Orderly formats -/

mutual

/-- Formats that can be looked up: the fields of a message have ascending numbers, and no scalar is
wider than a pattern.  Where the fields lie does not matter. -/
def Orderly : Format → Prop
  | .bool => True
  | .int bits => bits ≤ 64
  | .uint bits => bits ≤ 64
  | .enum e => e.bits ≤ 64
  | .array element _ => element.Orderly
  | .message ⟨_, ⟨fields⟩, _⟩ =>
    AllOrderly fields ∧ fields.Pairwise fun f g => f.number < g.number

/-- Fields whose formats are orderly. -/
def AllOrderly : List FieldFormat → Prop
  | [] => True
  | ⟨_, _, _, format⟩ :: rest => format.Orderly ∧ AllOrderly rest

end

theorem allOrderly_iff (fields : List FieldFormat) :
    AllOrderly fields ↔ ∀ f ∈ fields, f.format.Orderly := by
  induction fields with
  | nil => simp [AllOrderly]
  | cons f rest ih => rw [List.forall_mem_cons, ← ih, AllOrderly]

theorem Orderly.width_le {f : Format} (h : f.Orderly) (hs : f.isScalar = true) : f.width ≤ 64 := by
  cases f with
  | bool => show 1 ≤ 64; decide
  | int | uint | enum => exact h
  | array | message => exact absurd hs Bool.false_ne_true

/-- Sound formats are orderly. -/
theorem Sound.orderly {f : Format} (h : f.Sound) : f.Orderly := by
  induction f using Format.induct with
  | scalar f hs =>
    cases f with
    | bool => trivial
    | int | uint | enum => exact h.2
    | array | message => exact absurd hs Bool.false_ne_true
  | array element capacity ih => exact ih h.1
  | message m ih =>
    have hm : MessageFormat.Sound m := h
    exact ⟨(allOrderly_iff _).mpr fun f hf => ih f hf (hm.field hf), hm.ascending⟩

theorem Orderly.at? {f g : Format} (h : f.Orderly) {indices : List Nat}
    (hat : f.at? indices = some g) : g.Orderly := by
  induction indices generalizing f with
  | nil =>
    unfold Format.at? at hat
    exact Option.some.inj hat ▸ h
  | cons i rest ih =>
    cases f with
    | array element capacity =>
      unfold Format.at? at hat
      split at hat
      · exact ih (f := element) h hat
      · exact absurd hat (by simp)
    | _ => exact absurd hat (by simp [Format.at?])

end Format

/-- The format of the value at a place, behind the nested messages of a trail. -/
def MessageFormat.formatBehind? (m : MessageFormat) (trail : List Place) (place : Place) :
    Option Format :=
  (m.enter? trail).bind (·.formatAt? place)

/-- Message formats that are orderly. -/
def MessageFormat.Orderly (m : MessageFormat) : Prop :=
  (Format.message m).Orderly

namespace MessageFormat.Orderly

variable {m : MessageFormat} (h : m.Orderly)

include h

theorem ascending : m.fields.toList.Pairwise fun f g => f.number < g.number :=
  h.2

theorem formatAt? {place : Place} {g : Format} (hat : m.formatAt? place = some g) : g.Orderly := by
  obtain ⟨f, hf, hat⟩ := Option.bind_eq_some_iff.mp hat
  exact ((Format.allOrderly_iff _).mp h.1 f (List.mem_of_find?_eq_some hf)).at? hat

end MessageFormat.Orderly

/-! ## 2. Nodes below a node -/

namespace Node

/-- The node that indices lead to, one index per array level. -/
def pick? : Node → List Nat → Option Node
  | node, [] => some node
  | .array items, i :: rest => items[i]?.bind fun item => pick? item rest
  | _, _ :: _ => none

/-- Whether a node is that of an array. -/
def isArray : Node → Bool
  | .array _ => true
  | _ => false

/-- The pattern of a leaf. -/
def pattern? : Node → Option UInt64
  | .leaf p => some p
  | _ => none

theorem pick?_nil (node : Node) : node.pick? [] = some node := by
  cases node <;> rfl

theorem pick?_array (items : Array Node) (i : Nat) (rest : List Nat) :
    (Node.array items).pick? (i :: rest) = items[i]?.bind fun item => item.pick? rest :=
  rfl

theorem pick?_of_not_array {node : Node} (h : node.isArray = false) (i : Nat) (rest : List Nat) :
    node.pick? (i :: rest) = none := by
  cases node with
  | array => exact absurd h.symm Bool.false_ne_true
  | leaf | message => rfl

-- What is put at one place is seen at no other, unless by looking at a whole array around it.
theorem pick?_replaceAt_of_ne {β : Type} {view : Node → Option β}
    (hview : ∀ items, view (.array items) = none) {node old new : Node} {indices indices' : List Nat}
    (h : node.pick? indices = some old) (hold : old.isArray = false) (hnew : new.isArray = false)
    (hne : indices' ≠ indices) :
    ((replaceAt indices node new).pick? indices').bind view = (node.pick? indices').bind view := by
  induction indices generalizing node indices' with
  | nil =>
    rw [pick?_nil] at h
    obtain rfl := Option.some.inj h
    cases indices' with
    | nil => exact absurd rfl hne
    | cons j rest' =>
      rw [replaceAt, pick?_of_not_array hold, pick?_of_not_array hnew]
  | cons i rest ih =>
    cases node with
    | leaf | message => cases h
    | array items =>
      rw [pick?_array] at h
      obtain ⟨item, hitem, hpick⟩ := Option.bind_eq_some_iff.mp h
      rw [replaceAt]
      cases indices' with
      | nil => rw [pick?_nil, pick?_nil, Option.bind_some, Option.bind_some, hview, hview]
      | cons j rest' =>
        rw [pick?_array, pick?_array, Array.getElem?_modify]
        by_cases hij : i = j
        · subst hij
          rw [if_pos rfl, hitem]
          exact ih hpick fun hrest => hne (congrArg (i :: ·) hrest)
        · rw [if_neg hij]

end Node

namespace Format

-- In a fitting node, indices lead to a node where they lead to a format, and nowhere else.
theorem Fits.pick?_cases {f : Format} {node : Node} (h : f.Fits node) (indices : List Nat) :
    (f.at? indices = none ∧ node.pick? indices = none ∧ node.follow? indices f = none) ∨
    ∃ g found, f.at? indices = some g ∧ node.pick? indices = some found ∧
      node.follow? indices f = some (found, g) ∧ g.Fits found := by
  induction indices generalizing f node with
  | nil => exact .inr ⟨f, node, by unfold at?; rfl, node.pick?_nil, by rw [Node.follow?], h⟩
  | cons i rest ih =>
    cases f with
    | array element capacity =>
      obtain ⟨items, rfl, hlen, hitems⟩ := h.exists_items
      rw [at?, Node.pick?_array, Node.follow?, List.getElem?_toArray]
      by_cases hi : i < capacity
      · have hitem := List.getElem?_eq_getElem (l := items) (hlen.symm ▸ hi)
        rw [if_pos hi, hitem]
        exact ih (hitems _ (List.mem_of_getElem? hitem))
      · rw [if_neg hi, List.getElem?_eq_none (by omega)]
        exact .inl ⟨rfl, rfl, rfl⟩
    | message m =>
      obtain ⟨nodes, rfl, -⟩ := h.exists_nodes
      exact .inl ⟨rfl, rfl, rfl⟩
    | bool | int | uint | enum =>
      obtain ⟨p, rfl, -⟩ := h.exists_leaf rfl
      exact .inl ⟨rfl, rfl, rfl⟩

end Format

namespace DynamicMessage

/-! ## 3. Nodes of a message -/

/-- The node at a place: the field is looked for from the first one on. -/
def nodeAt? (msg : DynamicMessage) (place : Place) : Option Node :=
  ((msg.format.fields.toList.zip msg.nodes.toList).find? (·.1.number == place.field)).bind
    fun found => found.2.pick? place.indices

section

variable {msg : DynamicMessage} (hfit : msg.Fits) (h : msg.format.Orderly)

include hfit h

-- The node of a field stands where bisection finds the field.
theorem Fits.nodeAt?_eq (place : Place) : msg.nodeAt? place =
    (msg.format.fieldIndex? place.field).bind fun i =>
      msg.nodes.toList[i]?.bind fun node => node.pick? place.indices := by
  have hlen := hfit.nodes.length_eq
  have hfind := MessageFormat.find?_eq_of_ascending h.ascending place.field
  have hfst : (msg.format.fields.toList.zip msg.nodes.toList).map Prod.fst =
      msg.format.fields.toList := List.map_fst_zip hlen.le
  unfold nodeAt?
  cases hindex : msg.format.fieldIndex? place.field with
  | none =>
    rw [hindex, Option.bind_none] at hfind
    have hno : ∀ found ∈ msg.format.fields.toList.zip msg.nodes.toList,
        ¬ (found.1.number == place.field) = true :=
      fun found hfound => List.find?_eq_none.mp hfind found.1 (List.of_mem_zip hfound).1
    rw [List.find?_eq_none.mpr hno]
    rfl
  | some i =>
    obtain ⟨f, hf, hnumber⟩ := Bisect.of_indexOf? hindex
    rw [← Array.getElem?_toList] at hf
    have hi : i < msg.nodes.toList.length := hlen ▸ (List.getElem?_eq_some_iff.mp hf).1
    have hnode := List.getElem?_eq_getElem hi
    have hfound : (msg.format.fields.toList.zip msg.nodes.toList)[i]? =
        some (f, msg.nodes.toList[i]) := List.getElem?_zip_eq_some.mpr ⟨hf, hnode⟩
    -- the numbers are different, so the first field of the number is this one
    have hnodup : ((msg.format.fields.toList.zip msg.nodes.toList).map
        fun found => found.1.number).Nodup := by
      have hnumbers := nodup_of_ascending h.ascending
      rwa [← hfst, List.map_map] at hnumbers
    have hfirst := find?_of_nodup hnodup (List.mem_of_getElem? hfound)
    rw [← hnumber, hfirst, Option.bind_some, Option.bind_some, hnode, Option.bind_some]

/-- What stands at a place: nothing, for the format and for every way to look at the message; or a
node that fits the format there, the same for every way. -/
theorem Fits.place_cases (place : Place) :
    (msg.format.formatAt? place = none ∧ msg.nodeAt? place = none ∧ msg.locate? place = none) ∨
    ∃ g node, msg.format.formatAt? place = some g ∧ msg.nodeAt? place = some node ∧
      msg.locate? place = some (node, g) ∧ g.Fits node := by
  rw [hfit.nodeAt?_eq h, MessageFormat.formatAt?,
    MessageFormat.find?_eq_of_ascending h.ascending place.field, locate?]
  cases hindex : msg.format.fieldIndex? place.field with
  | none => exact .inl ⟨rfl, rfl, rfl⟩
  | some i =>
    obtain ⟨f, hf, -⟩ := Bisect.of_indexOf? hindex
    have hf' := hf
    rw [← Array.getElem?_toList] at hf'
    have hi : i < msg.nodes.toList.length :=
      hfit.nodes.length_eq ▸ (List.getElem?_eq_some_iff.mp hf').1
    have hnode := List.getElem?_eq_getElem hi
    have hnode' := hnode
    rw [Array.getElem?_toList] at hnode'
    simp only [Option.bind_some, hf, hf', hnode, hnode']
    exact (hfit.node hf' hnode).pick?_cases place.indices

/-- What is located is found in the other ways too, and fits the format there. -/
theorem Fits.found_of_locate? {place : Place} {node : Node} {g : Format}
    (hloc : msg.locate? place = some (node, g)) :
    msg.format.formatAt? place = some g ∧ msg.nodeAt? place = some node ∧ g.Fits node := by
  obtain ⟨-, -, hnone⟩ | ⟨g', node', hat, hnode, hloc', hfits⟩ := hfit.place_cases h place
  · rw [hloc] at hnone
    cases hnone
  · rw [hloc] at hloc'
    obtain ⟨rfl, rfl⟩ := Prod.mk.inj (Option.some.inj hloc')
    exact ⟨hat, hnode, hfits⟩

/-! ## 4. Replacements -/

-- What was put at a place stands there.
theorem Fits.nodeAt?_replace {place : Place} {old new : Node} {g : Format}
    (hloc : msg.locate? place = some (old, g)) (hnew : g.Fits new) :
    (msg.replace place new).nodeAt? place = some new := by
  have h' : (msg.replace place new).format.Orderly := by rwa [replace_format]
  exact ((hfit.replace hloc hnew).found_of_locate? h' (locate?_replace hloc new)).2.1

-- What was put at a place stands at no other.
theorem Fits.nodeAt?_replace_of_ne {β : Type} {view : Node → Option β}
    (hview : ∀ items, view (.array items) = none) {place place' : Place} {old new : Node} {g : Format}
    (hloc : msg.locate? place = some (old, g)) (hfits : g.Fits new) (hold : old.isArray = false)
    (hnew : new.isArray = false) (hne : place' ≠ place) :
    ((msg.replace place new).nodeAt? place').bind view = (msg.nodeAt? place').bind view := by
  have hfit' := hfit.replace hloc hfits
  have h' : (msg.replace place new).format.Orderly := by rwa [replace_format]
  rw [hfit'.nodeAt?_eq h', hfit.nodeAt?_eq h, replace_format]
  obtain ⟨m, nodes⟩ := msg
  obtain ⟨i, top, field, hi, htop, hfield, hfollow⟩ := locate?_eq_some hloc
  rw [replace_of hi, Array.toList_modify]
  rw [← Array.getElem?_toList] at htop hfield
  cases hj : m.fieldIndex? place'.field with
  | none => rfl
  | some j =>
    rw [Option.bind_some, Option.bind_some, List.getElem?_modify]
    by_cases hij : i = j
    · -- the same field, so the indices differ
      subst hij
      have hindices : place'.indices ≠ place.indices := by
        intro heq
        obtain ⟨f, hf, hnumber⟩ := Bisect.of_indexOf? hi
        obtain ⟨f', hf', hnumber'⟩ := Bisect.of_indexOf? hj
        obtain rfl := Option.some.inj (hf.symm.trans hf')
        apply hne
        cases place
        cases place'
        exact congrArg₂ Place.mk (hnumber'.symm.trans hnumber) heq
      have hpick : top.pick? place.indices = some old := by
        obtain ⟨-, -, hnone⟩ | ⟨g', found, -, hpick, hfound, -⟩ :=
          (hfit.node hfield htop).pick?_cases place.indices
        · rw [hfollow] at hnone
          cases hnone
        · rw [hfollow] at hfound
          rw [hpick, (Prod.mk.inj (Option.some.inj hfound)).1]
      rw [htop, Option.map_eq_map, Option.map_some, if_pos rfl, Option.bind_some, Option.bind_some]
      exact Node.pick?_replaceAt_of_ne hview hpick hold hnew hindices
    · simp only [if_neg hij, id_map']

end

/-! ## 5. Nested messages -/

/-- The message that a node is. -/
def ofNode? : Node → Option DynamicMessage
  | .message own nodes => some ⟨own, nodes⟩
  | _ => none

/-- The nested message at a place. -/
def childAt? (msg : DynamicMessage) (place : Place) : Option DynamicMessage :=
  (msg.nodeAt? place).bind ofNode?

/-- The nested message that a trail of places leads to. -/
def descend? : List Place → DynamicMessage → Option DynamicMessage
  | [], msg => some msg
  | place :: rest, msg => (msg.childAt? place).bind (descend? rest)

/-- The pattern of the scalar at a place, behind the nested messages of a trail. -/
def leafAt? (msg : DynamicMessage) (trail : List Place) (place : Place) : Option UInt64 :=
  (descend? trail msg).bind fun child => (child.nodeAt? place).bind Node.pattern?

theorem ofNode?_eq_some {node : Node} {child : DynamicMessage} (h : ofNode? node = some child) :
    node = child.node := by
  unfold ofNode? at h
  split at h
  next => rw [← Option.some.inj h]; rfl
  next => cases h

theorem nodeAt?_of_childAt? {msg child : DynamicMessage} {place : Place}
    (hchild : msg.childAt? place = some child) : msg.nodeAt? place = some child.node := by
  obtain ⟨node, hnode, hof⟩ := Option.bind_eq_some_iff.mp hchild
  rw [hnode, ofNode?_eq_some hof]

theorem leafAt?_cons (msg : DynamicMessage) (inner : Place) (trail : List Place) (place : Place) :
    msg.leafAt? (inner :: trail) place = (msg.childAt? inner).bind (leafAt? · trail place) := by
  show ((msg.childAt? inner).bind (descend? trail)).bind _ = _
  cases msg.childAt? inner <;> rfl

section

variable {msg : DynamicMessage} (hfit : msg.Fits) (h : msg.format.Orderly)

include hfit h

theorem Fits.message?_eq_childAt? (place : Place) : msg.message? place = msg.childAt? place := by
  unfold message? childAt?
  obtain ⟨hat, hnode, hloc⟩ | ⟨g, node, hat, hnode, hloc, -⟩ := hfit.place_cases h place
  · rw [hnode, hloc]
    rfl
  · rw [hnode, hloc]
    cases node <;> rfl

-- A nested message stands where the format has a message, and is as good as the one around it.
theorem Fits.of_childAt? {place : Place} {child : DynamicMessage}
    (hchild : msg.childAt? place = some child) :
    msg.format.formatAt? place = some (.message child.format) ∧ child.Fits ∧
      child.format.Orderly := by
  rw [← hfit.message?_eq_childAt? h] at hchild
  obtain ⟨hloc, hfits⟩ := hfit.of_message? hchild
  obtain ⟨hat, -, -⟩ := hfit.found_of_locate? h hloc
  exact ⟨hat, hfits, h.formatAt? hat⟩

theorem Fits.isSome_childAt?_iff (place : Place) : (msg.childAt? place).isSome = true ↔
    ∃ f, msg.format.formatAt? place = some (.message f) := by
  constructor
  · intro hsome
    obtain ⟨child, hchild⟩ := Option.isSome_iff_exists.mp hsome
    exact ⟨child.format, (hfit.of_childAt? h hchild).1⟩
  · rintro ⟨f, hf⟩
    obtain ⟨hat, -, -⟩ | ⟨g, node, hat, hnode, -, hfits⟩ := hfit.place_cases h place
    · rw [hf] at hat
      cases hat
    · obtain rfl := Option.some.inj (hf.symm.trans hat)
      obtain ⟨nodes, rfl, -⟩ := hfits.exists_nodes
      unfold childAt?
      rw [hnode]
      rfl

/-- The message that a trail leads to has the format that the trail leads to. -/
theorem Fits.descend?_eq (trail : List Place) :
    (descend? trail msg).map DynamicMessage.format = msg.format.enter? trail ∧
      (accessor.enter trail msg).run = descend? trail msg ∧
      ∀ child, descend? trail msg = some child → child.Fits ∧ child.format.Orderly := by
  induction trail generalizing msg with
  | nil =>
    refine ⟨by unfold MessageFormat.enter?; rfl, rfl, fun child hchild => ?_⟩
    exact Option.some.inj hchild ▸ ⟨hfit, h⟩
  | cons place rest ih =>
    rw [enter_cons, hfit.message?_eq_childAt? h]
    unfold descend? MessageFormat.enter?
    cases hchild : msg.childAt? place with
    | none =>
      have hsome := hfit.isSome_childAt?_iff h place
      rw [hchild] at hsome
      refine ⟨?_, rfl, fun child h => absurd h (by simp)⟩
      split
      next inner hat => exact absurd (hsome.mpr ⟨inner, hat⟩) (by simp)
      next => rfl
    | some child =>
      obtain ⟨hat, hfit', h'⟩ := hfit.of_childAt? h hchild
      rw [hat]
      exact ih hfit' h'

end

end DynamicMessage

end Bitwire
