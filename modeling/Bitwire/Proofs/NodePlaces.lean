import Bitwire.Record.Dynamic
import Bitwire.Proofs.Bisection
import Bitwire.Proofs.StoredLeaves

/-!
# Places of a dynamic message

A place of a dynamic message can be looked up and replaced, and the two agree: what was put there
is found there, putting back what was found changes nothing, and of two replacements the later
counts.  The place of an element, and of a field, is looked up and replaced inside what holds it.
-/

namespace Bitwire

/-! ## 1. One entry of a table -/

section

variable {α : Type} {xs : Array α} {i : Nat} {a : α}

-- A change of an entry depends only on what it makes of that entry.
theorem modify_congr (ha : xs[i]? = some a) {f g : α → α} (h : f a = g a) :
    xs.modify i f = xs.modify i g := by
  apply Array.ext_getElem?
  intro j
  rw [Array.getElem?_modify, Array.getElem?_modify]
  split
  next hij => rw [← hij, ha, Option.map_some, Option.map_some, h]
  next => rfl

theorem modify_self (ha : xs[i]? = some a) {f : α → α} (h : f a = a) : xs.modify i f = xs := by
  rw [modify_congr ha (g := id) h]
  apply Array.ext_getElem?
  intro j
  rw [Array.getElem?_modify, Option.map_id_fun, id_eq, ite_self]

theorem modify_modify (xs : Array α) (i : Nat) (f g : α → α) :
    (xs.modify i f).modify i g = xs.modify i fun a => g (f a) := by
  apply Array.ext_getElem?
  intro j
  simp only [Array.getElem?_modify]
  split
  · rw [Option.map_map]
    rfl
  · rfl

theorem modify_append_cons (front back : List α) (a : α) (f : α → α) :
    (front ++ a :: back).modify front.length f = front ++ f a :: back := by
  induction front with
  | nil => rfl
  | cons b front ih => rw [List.cons_append, List.length_cons, List.modify_succ_cons, ih]; rfl

end

namespace Node

/-! ## 2. Indices -/

theorem follow?_append (front back : List Nat) (node : Node) (f : Format) :
    follow? (front ++ back) node f =
      (follow? front node f).bind fun found => follow? back found.1 found.2 := by
  induction front generalizing node f with
  | nil => rw [List.nil_append, follow?, Option.bind_some]
  | cons i front ih =>
    cases node with
    | array items =>
      cases f with
      | array element capacity =>
        rw [List.cons_append, follow?, follow?]
        cases items[i]? with
        | some item => exact ih item element
        | none => rfl
      | _ => rfl
    | _ => rfl

-- What was put at a place is found there.
theorem follow?_replaceAt {indices : List Nat} {node found : Node} {f f' : Format}
    (h : follow? indices node f = some (found, f')) (new : Node) :
    follow? indices (replaceAt indices node new) f = some (new, f') := by
  induction indices generalizing node f with
  | nil =>
    rw [follow?] at h
    obtain ⟨-, rfl⟩ := Prod.mk.inj (Option.some.inj h)
    rfl
  | cons i rest ih =>
    cases node with
    | array items =>
      cases f with
      | array element capacity =>
        rw [follow?] at h
        split at h
        next item hitem =>
          rw [replaceAt, follow?, Array.getElem?_modify, if_pos rfl, hitem]
          exact ih h
        next => exact absurd h (by simp)
      | _ => exact absurd h (by simp [follow?])
    | _ => exact absurd h (by simp [follow?])

-- Of two replacements the later counts.
theorem replaceAt_replaceAt (indices : List Nat) (node a b : Node) :
    replaceAt indices (replaceAt indices node a) b = replaceAt indices node b := by
  induction indices generalizing node with
  | nil => rfl
  | cons i rest ih =>
    cases node with
    | array items =>
      rw [replaceAt, replaceAt, replaceAt, modify_modify]
      congr 2
      exact funext fun item => ih item
    | _ => rfl

-- Putting back what was found changes nothing.
theorem replaceAt_self {indices : List Nat} {node found : Node} {f f' : Format}
    (h : follow? indices node f = some (found, f')) : replaceAt indices node found = node := by
  induction indices generalizing node f with
  | nil =>
    rw [follow?] at h
    exact (congrArg Prod.fst (Option.some.inj h)).symm
  | cons i rest ih =>
    cases node with
    | array items =>
      cases f with
      | array element capacity =>
        rw [follow?] at h
        split at h
        next item hitem =>
          rw [replaceAt]
          exact congrArg Node.array (modify_self hitem (ih h))
        next => exact absurd h (by simp)
      | _ => exact absurd h (by simp [follow?])
    | _ => exact absurd h (by simp [follow?])

-- Replacing further inside is replacing the node on the way.
theorem replaceAt_append {front : List Nat} {node found : Node} {f f' : Format}
    (h : follow? front node f = some (found, f')) (back : List Nat) (new : Node) :
    replaceAt (front ++ back) node new = replaceAt front node (replaceAt back found new) := by
  induction front generalizing node f with
  | nil =>
    rw [follow?] at h
    obtain ⟨rfl, -⟩ := Prod.mk.inj (Option.some.inj h)
    rfl
  | cons i rest ih =>
    cases node with
    | array items =>
      cases f with
      | array element capacity =>
        rw [follow?] at h
        split at h
        next item hitem =>
          rw [List.cons_append, replaceAt, replaceAt]
          exact congrArg Node.array (modify_congr hitem (ih h))
        next => exact absurd h (by simp)
      | _ => exact absurd h (by simp [follow?])
    | _ => exact absurd h (by simp [follow?])

end Node

/-! ## 3. Fields -/

-- Where numbers ascend, a field is found by its number.
theorem MessageFormat.fieldIndex?_of_ascending {m : MessageFormat}
    (hasc : m.fields.toList.Pairwise fun f g => f.number < g.number)
    {front back : List FieldFormat} {f : FieldFormat} (hsplit : m.fields.toList = front ++ f :: back) :
    m.fieldIndex? f.number = some front.length := by
  rw [hsplit] at hasc
  obtain ⟨-, hback, hfront⟩ := List.pairwise_append.mp hasc
  rw [MessageFormat.fieldIndex?, ← @Array.toArray_toList _ m.fields, hsplit]
  apply Bisect.indexOf?_append_cons
  · exact fun g hg => UInt16.le_of_lt (hfront g hg f List.mem_cons_self)
  · exact fun g hg => UInt16.not_le.mpr ((List.pairwise_cons.mp hback).1 g hg)

theorem MessageFormat.Sound.fieldIndex? {m : MessageFormat} (h : m.Sound)
    {front back : List FieldFormat} {f : FieldFormat} (hsplit : m.fields.toList = front ++ f :: back) :
    m.fieldIndex? f.number = some front.length :=
  fieldIndex?_of_ascending h.ascending hsplit

namespace DynamicMessage

/-! ## 4. Places -/

-- A place that is found leads through a field to the node.
theorem locate?_eq_some {msg : DynamicMessage} {place : Place} {found : Node × Format}
    (h : msg.locate? place = some found) : ∃ (i : Nat) (node : Node) (field : FieldFormat),
      msg.format.fieldIndex? place.field = some i ∧ msg.nodes[i]? = some node ∧
      msg.format.fields[i]? = some field ∧
      Node.follow? place.indices node field.format = some found := by
  rw [locate?] at h
  split at h
  · exact absurd h (by simp)
  next i hi =>
    split at h
    next node field hnode hfield => exact ⟨i, node, field, hi, hnode, hfield, h⟩
    next => exact absurd h (by simp)

section

variable {m : MessageFormat} {nodes : Array Node} {place : Place} {i : Nat}
  (hi : m.fieldIndex? place.field = some i)

include hi

theorem locate?_of {node : Node} {field : FieldFormat} (hnode : nodes[i]? = some node)
    (hfield : m.fields[i]? = some field) : (DynamicMessage.mk m nodes).locate? place =
      Node.follow? place.indices node field.format := by
  rw [locate?, hi]
  simp only [hnode, hfield]

theorem replace_of (new : Node) : (DynamicMessage.mk m nodes).replace place new =
    ⟨m, nodes.modify i fun node => Node.replaceAt place.indices node new⟩ := by
  rw [replace, hi]

end

@[simp] theorem replace_format (msg : DynamicMessage) (place : Place) (new : Node) :
    (msg.replace place new).format = msg.format := by
  rw [replace]
  split <;> rfl

theorem locate?_replace {msg : DynamicMessage} {place : Place} {node : Node} {f : Format}
    (h : msg.locate? place = some (node, f)) (new : Node) :
    (msg.replace place new).locate? place = some (new, f) := by
  obtain ⟨m, nodes⟩ := msg
  obtain ⟨i, top, field, hi, hnode, hfield, hfollow⟩ := locate?_eq_some h
  have htop : (nodes.modify i fun top => Node.replaceAt place.indices top new)[i]? =
      some (Node.replaceAt place.indices top new) := by
    rw [Array.getElem?_modify, if_pos rfl, hnode, Option.map_some]
  rw [replace_of hi, locate?_of hi htop hfield]
  exact Node.follow?_replaceAt hfollow new

theorem replace_replace (msg : DynamicMessage) (place : Place) (a b : Node) :
    (msg.replace place a).replace place b = msg.replace place b := by
  obtain ⟨m, nodes⟩ := msg
  cases hi : m.fieldIndex? place.field with
  | none =>
    rw [replace, replace, replace]
    simp only [hi]
  | some i =>
    rw [replace_of hi, replace_of hi, replace_of hi, modify_modify]
    congr 2
    exact funext fun node => Node.replaceAt_replaceAt place.indices node a b

theorem replace_self {msg : DynamicMessage} {place : Place} {node : Node} {f : Format}
    (h : msg.locate? place = some (node, f)) : msg.replace place node = msg := by
  obtain ⟨m, nodes⟩ := msg
  obtain ⟨i, top, field, hi, hnode, hfield, hfollow⟩ := locate?_eq_some h
  rw [replace_of hi]
  exact congrArg (DynamicMessage.mk m) (modify_self hnode (Node.replaceAt_self hfollow))

/-! ## 5. Elements, fields and nested messages -/

theorem locate?_element {msg : DynamicMessage} {place : Place} {items : Array Node}
    {element : Format} {capacity : Nat}
    (h : msg.locate? place = some (.array items, .array element capacity)) {i : Nat} {item : Node}
    (hitem : items[i]? = some item) : msg.locate? (place.element i) = some (item, element) := by
  obtain ⟨m, nodes⟩ := msg
  obtain ⟨j, top, field, hj, hnode, hfield, hfollow⟩ := locate?_eq_some h
  have hj' : m.fieldIndex? (place.element i).field = some j := hj
  rw [locate?_of hj' hnode hfield]
  change Node.follow? (place.indices ++ [i]) top field.format = _
  rw [Node.follow?_append, hfollow, Option.bind_some, Node.follow?, hitem]
  rfl

theorem replace_element {msg : DynamicMessage} {place : Place} {items : Array Node}
    {f : Format} (h : msg.locate? place = some (.array items, f)) (i : Nat) (new : Node) :
    msg.replace (place.element i) new =
      msg.replace place (.array (items.modify i fun _ => new)) := by
  obtain ⟨m, nodes⟩ := msg
  obtain ⟨j, top, field, hj, hnode, hfield, hfollow⟩ := locate?_eq_some h
  have hj' : m.fieldIndex? (place.element i).field = some j := hj
  rw [replace_of hj', replace_of hj]
  exact congrArg (DynamicMessage.mk m)
    (modify_congr hnode (Node.replaceAt_append hfollow [i] new))

theorem locate?_field {m : MessageFormat} (h : m.Sound) {front back : List FieldFormat}
    {f : FieldFormat} (hsplit : m.fields.toList = front ++ f :: back) {done rest : List Node}
    {node : Node} (hlen : done.length = front.length) :
    (⟨m, ⟨done ++ node :: rest⟩⟩ : DynamicMessage).locate? ⟨f.number, []⟩ = some (node, f.format) := by
  have hnode : (⟨done ++ node :: rest⟩ : Array Node)[front.length]? = some node := by
    rw [List.getElem?_toArray, List.getElem?_append_right (Nat.le_of_eq hlen), hlen, Nat.sub_self,
      List.getElem?_cons_zero]
  have hfield : m.fields[front.length]? = some f := by
    rw [← Array.getElem?_toList, hsplit, List.getElem?_append_right (Nat.le_refl _), Nat.sub_self,
      List.getElem?_cons_zero]
  have hindex : m.fieldIndex? (Place.mk f.number []).field = some front.length :=
    h.fieldIndex? hsplit
  rw [locate?_of hindex hnode hfield]
  rfl

theorem replace_field {m : MessageFormat} (h : m.Sound) {front back : List FieldFormat}
    {f : FieldFormat} (hsplit : m.fields.toList = front ++ f :: back) {done rest : List Node}
    {node : Node} (hlen : done.length = front.length) (new : Node) :
    (⟨m, ⟨done ++ node :: rest⟩⟩ : DynamicMessage).replace ⟨f.number, []⟩ new =
      ⟨m, ⟨done ++ new :: rest⟩⟩ := by
  have hindex : m.fieldIndex? (Place.mk f.number []).field = some front.length :=
    h.fieldIndex? hsplit
  rw [replace_of hindex]
  congr 1
  rw [← hlen, List.modify_toArray, modify_append_cons]
  rfl

end DynamicMessage

end Bitwire
