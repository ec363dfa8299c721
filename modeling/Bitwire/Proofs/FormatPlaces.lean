import Bitwire.Proofs.DynamicWalk

/-!
# What places address

Which value of a message a place addresses, and which message a trail of places enters, can be read
off the format: the field is found by its number, and each index has to be below the capacity of
its array level.  In a dynamic message that fits its format every such place leads to a node, and
no other place does.
-/

namespace Bitwire

/-! ## 1. Addresses -/

/-- The format of the element that indices lead to, one index per array level. -/
def Format.at? : Format → List Nat → Option Format
  | f, [] => some f
  | .array element capacity, i :: rest => if i < capacity then element.at? rest else none
  | _, _ :: _ => none

namespace MessageFormat

/-- The format of the value at a place. -/
def formatAt? (m : MessageFormat) (place : Place) : Option Format :=
  (m.fields.toList.find? (·.number == place.field)).bind fun f => f.format.at? place.indices

/-- The format of the nested message that a trail of places enters. -/
def enter? (m : MessageFormat) : List Place → Option MessageFormat
  | [] => some m
  | place :: rest =>
    match m.formatAt? place with
    | some (.message inner) => enter? inner rest
    | _ => none

-- Bisection finds the field that a walk over all fields finds.
theorem field?_of_ascending {m : MessageFormat}
    (hasc : m.fields.toList.Pairwise fun f g => f.number < g.number) (number : UInt16) :
    m.field? number = m.fields.toList.find? (·.number == number) := by
  rw [← Bisect.find?_of_ascending (hasc.imp fun hlt => UInt16.not_le.mpr hlt), Array.toArray_toList]
  rfl

theorem find?_eq_of_ascending {m : MessageFormat}
    (hasc : m.fields.toList.Pairwise fun f g => f.number < g.number) (number : UInt16) :
    m.fields.toList.find? (·.number == number) =
      (m.fieldIndex? number).bind (m.fields.toList[·]?) := by
  rw [← field?_of_ascending hasc]
  simp only [Array.getElem?_toList]
  rfl

theorem Sound.find?_eq {m : MessageFormat} (h : m.Sound) (number : UInt16) :
    m.fields.toList.find? (·.number == number) =
      (m.fieldIndex? number).bind (m.fields.toList[·]?) :=
  find?_eq_of_ascending h.ascending number

end MessageFormat

theorem Format.Sound.at? {f g : Format} (h : f.Sound) {indices : List Nat}
    (hat : f.at? indices = some g) : g.Sound := by
  induction indices generalizing f with
  | nil =>
    unfold Format.at? at hat
    exact Option.some.inj hat ▸ h
  | cons i rest ih =>
    cases f with
    | array element capacity =>
      unfold Format.at? at hat
      split at hat
      · exact ih h.1 hat
      · exact absurd hat (by simp)
    | _ => exact absurd hat (by simp [Format.at?])

theorem MessageFormat.Sound.formatAt? {m : MessageFormat} (h : m.Sound) {place : Place} {g : Format}
    (hat : m.formatAt? place = some g) : g.Sound := by
  obtain ⟨f, hf, hat⟩ := Option.bind_eq_some_iff.mp hat
  exact (h.field (List.mem_of_find?_eq_some hf)).at? hat

/-! ## 2. Nodes that indices lead to -/

namespace Format

-- Indices lead from a fitting node to a node that fits the format they lead to.
theorem Fits.follow? {f : Format} {node : Node} (h : f.Fits node) {indices : List Nat}
    {found : Node} {g : Format} (hfollow : Node.follow? indices node f = some (found, g)) :
    f.at? indices = some g ∧ g.Fits found := by
  induction indices generalizing f node with
  | nil =>
    obtain ⟨rfl, rfl⟩ := Prod.mk.inj (Option.some.inj hfollow)
    exact ⟨by unfold at?; rfl, h⟩
  | cons i rest ih =>
    cases f with
    | array element capacity =>
      obtain ⟨items, rfl, hlen, hitems⟩ := h.exists_items
      unfold Node.follow? at hfollow
      split at hfollow
      next item hitem =>
        rw [List.getElem?_toArray] at hitem
        have hi : i < capacity := hlen ▸ (List.getElem?_eq_some_iff.mp hitem).1
        obtain ⟨hat, hfit⟩ := ih (hitems item (List.mem_of_getElem? hitem)) hfollow
        exact ⟨by unfold at?; rwa [if_pos hi], hfit⟩
      next => exact absurd hfollow (by simp)
    | _ => exact absurd hfollow (by simp [Node.follow?])

-- Indices that are in range lead to a node.
theorem Fits.exists_follow? {f : Format} {node : Node} (h : f.Fits node) {indices : List Nat}
    {g : Format} (hat : f.at? indices = some g) :
    ∃ found, Node.follow? indices node f = some (found, g) := by
  induction indices generalizing f node with
  | nil =>
    unfold at? at hat
    exact ⟨node, by rw [Node.follow?, Option.some.inj hat]⟩
  | cons i rest ih =>
    cases f with
    | array element capacity =>
      obtain ⟨items, rfl, hlen, hitems⟩ := h.exists_items
      unfold at? at hat
      split at hat
      next hi =>
        have hitem := List.getElem?_eq_getElem (l := items) (hlen.symm ▸ hi)
        obtain ⟨found, hfound⟩ := ih (hitems _ (List.mem_of_getElem? hitem)) hat
        refine ⟨found, ?_⟩
        unfold Node.follow?
        rwa [List.getElem?_toArray, hitem]
      next => exact absurd hat (by simp)
    | _ => exact absurd hat (by simp [at?])

-- A node that fits its place keeps the whole fitting.
theorem Fits.replaceAt {f : Format} {node : Node} (h : f.Fits node) {indices : List Nat}
    {found new : Node} {g : Format} (hfollow : Node.follow? indices node f = some (found, g))
    (hnew : g.Fits new) : f.Fits (Node.replaceAt indices node new) := by
  induction indices generalizing f node with
  | nil =>
    obtain ⟨-, rfl⟩ := Prod.mk.inj (Option.some.inj hfollow)
    exact hnew
  | cons i rest ih =>
    cases f with
    | array element capacity =>
      obtain ⟨items, rfl, hlen, hitems⟩ := h.exists_items
      unfold Node.follow? at hfollow
      split at hfollow
      next item hitem =>
        rw [List.getElem?_toArray] at hitem
        unfold Node.replaceAt
        rw [List.modify_toArray]
        refine ⟨by rw [List.length_modify, hlen], fun changed hchanged => ?_⟩
        obtain ⟨j, hj⟩ := List.getElem?_of_mem hchanged
        rw [List.getElem?_modify] at hj
        obtain ⟨old, hold, rfl⟩ := Option.map_eq_some_iff.mp hj
        have hfit := hitems old (List.mem_of_getElem? hold)
        by_cases hij : i = j
        · subst hij
          obtain rfl := Option.some.inj (hitem.symm.trans hold)
          rw [if_pos rfl]
          exact ih hfit hfollow
        · rw [if_neg hij]
          exact hfit
      next => exact absurd hfollow (by simp)
    | _ => exact absurd hfollow (by simp [Node.follow?])

end Format

/-! ## 3. Places of a fitting message -/

theorem forall₂_modify {α β : Type} {R : α → β → Prop} {xs : List α} {ys : List β}
    (h : List.Forall₂ R xs ys) {i : Nat} {f : β → β}
    (hf : ∀ x y, xs[i]? = some x → ys[i]? = some y → R x (f y)) :
    List.Forall₂ R xs (ys.modify i f) := by
  induction h generalizing i with
  | nil => rw [List.modify_nil]; exact .nil
  | cons hxy hrest ih =>
    cases i with
    | zero => exact .cons (hf _ _ rfl rfl) hrest
    | succ i => exact .cons hxy (ih hf)

namespace DynamicMessage

-- Every field has its node.
theorem Fits.nodes {msg : DynamicMessage} (h : msg.Fits) :
    List.Forall₂ (fun f node => f.format.Fits node) msg.format.fields.toList msg.nodes.toList :=
  (Format.allFit_iff _ _).mp h.2

theorem Fits.of_nodes {msg : DynamicMessage} (h : List.Forall₂ (fun f node => f.format.Fits node)
    msg.format.fields.toList msg.nodes.toList) : msg.Fits :=
  ⟨rfl, (Format.allFit_iff _ _).mpr h⟩

-- A field and the node at its index fit.
theorem Fits.node {msg : DynamicMessage} (h : msg.Fits) {i : Nat} {f : FieldFormat} {node : Node}
    (hf : msg.format.fields.toList[i]? = some f) (hnode : msg.nodes.toList[i]? = some node) :
    f.format.Fits node := by
  obtain ⟨hi, rfl⟩ := List.getElem?_eq_some_iff.mp hf
  obtain ⟨hi', rfl⟩ := List.getElem?_eq_some_iff.mp hnode
  exact h.nodes.get hi hi'

variable {msg : DynamicMessage} (hfit : msg.Fits) {place : Place}

include hfit

-- What a place leads to fits its format.
theorem Fits.of_locate? {node : Node} {g : Format} (hloc : msg.locate? place = some (node, g)) :
    g.Fits node := by
  obtain ⟨i, top, field, -, hnode, hfield, hfollow⟩ := locate?_eq_some hloc
  rw [← Array.getElem?_toList] at hnode hfield
  exact ((hfit.node hfield hnode).follow? hfollow).2

-- A nested message fits its own format, which is the one that it has there.
theorem Fits.of_message? {child : DynamicMessage} (hchild : msg.message? place = some child) :
    msg.locate? place = some (child.node, .message child.format) ∧ child.Fits := by
  obtain ⟨g, hloc⟩ := message?_eq_some hchild
  have hnode := hfit.of_locate? hloc
  obtain rfl := hnode.eq_message
  exact ⟨hloc, hnode⟩

-- A fitting node may be put at a place.
theorem Fits.replace {node new : Node} {g : Format} (hloc : msg.locate? place = some (node, g))
    (hnew : g.Fits new) : (msg.replace place new).Fits := by
  obtain ⟨m, nodes⟩ := msg
  obtain ⟨i, top, field, hi, hnode, hfield, hfollow⟩ := locate?_eq_some hloc
  rw [← Array.getElem?_toList] at hnode hfield
  rw [replace_of hi]
  apply Fits.of_nodes
  rw [Array.toList_modify]
  refine forall₂_modify hfit.nodes fun f node hf hnode' => ?_
  obtain rfl := Option.some.inj (hf.symm.trans hfield)
  obtain rfl := Option.some.inj (hnode'.symm.trans hnode)
  exact (hfit.node hfield hnode).replaceAt hfollow hnew

variable (h : msg.format.Sound)

include h

-- A place leads to a node of the format that the message's format has there.
theorem Fits.formatAt?_of_locate? {node : Node} {g : Format}
    (hloc : msg.locate? place = some (node, g)) : msg.format.formatAt? place = some g := by
  obtain ⟨i, top, field, hi, hnode, hfield, hfollow⟩ := locate?_eq_some hloc
  rw [← Array.getElem?_toList] at hnode hfield
  rw [MessageFormat.formatAt?, h.find?_eq, hi, Option.bind_some, hfield, Option.bind_some]
  exact ((hfit.node hfield hnode).follow? hfollow).1

-- Where the format has a value, the message has a node.
theorem Fits.exists_locate? {g : Format} (hat : msg.format.formatAt? place = some g) :
    ∃ node, msg.locate? place = some (node, g) ∧ g.Fits node := by
  rw [MessageFormat.formatAt?, h.find?_eq] at hat
  obtain ⟨field, hfield, hat⟩ := Option.bind_eq_some_iff.mp hat
  obtain ⟨i, hi, hfield⟩ := Option.bind_eq_some_iff.mp hfield
  have hlen : i < msg.nodes.toList.length :=
    hfit.nodes.length_eq ▸ (List.getElem?_eq_some_iff.mp hfield).1
  have hnode := List.getElem?_eq_getElem hlen
  obtain ⟨found, hfound⟩ := (hfit.node hfield hnode).exists_follow? hat
  rw [Array.getElem?_toList] at hnode hfield
  have hloc : msg.locate? place = some (found, g) := by
    rw [← hfound]
    exact locate?_of hi hnode hfield
  exact ⟨found, hloc, hfit.of_locate? hloc⟩

end DynamicMessage

end Bitwire
