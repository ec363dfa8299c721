import Bitwire.Proofs.Allocation

/-!
# Stored leaves

A node fits a format if it has the format's shape and every pattern fits its width.  A fitting node
is known by its stored leaves: for each leaf of the format its format, its first bit and its
pattern.  What decoding does to a message is said by a function on the pattern of each leaf, and
`mapLeaves` carries such a function through a node.
-/

namespace Bitwire

/-- A leaf with the pattern that is stored for it. -/
structure StoredLeaf where
  format : Format
  /-- Its first bit. -/
  offset : Nat
  pattern : UInt64

/-- How many bits a stored leaf has. -/
def StoredLeaf.width (l : StoredLeaf) : Nat :=
  l.format.width

namespace Format

/-! ## 1. Fitting -/

mutual

/-- Whether a node has the shape of a format and holds no pattern that is too wide.  A nested message
has the format that the outer one has there. -/
def Fits : Format → Node → Prop
  | .array element capacity, .array ⟨items⟩ =>
    items.length = capacity ∧ ∀ item ∈ items, element.Fits item
  | .message ⟨name, ⟨fields⟩, totalBits⟩, .message own ⟨nodes⟩ =>
    own = ⟨name, ⟨fields⟩, totalBits⟩ ∧ AllFit fields nodes
  | .bool, .leaf p => p.toNat < 2 ^ 1
  | .int bits, .leaf p => p.toNat < 2 ^ bits
  | .uint bits, .leaf p => p.toNat < 2 ^ bits
  | .enum e, .leaf p => p.toNat < 2 ^ e.bits
  | _, _ => False

/-- Whether there is a fitting node for every field. -/
def AllFit : List FieldFormat → List Node → Prop
  | [], [] => True
  | ⟨_, _, _, format⟩ :: fields, node :: nodes => format.Fits node ∧ AllFit fields nodes
  | _, _ => False

end

theorem fits_leaf {f : Format} (h : f.isScalar = true) (p : UInt64) :
    f.Fits (.leaf p) ↔ p.toNat < 2 ^ f.width := by
  cases f <;> first | exact Iff.rfl | exact absurd h Bool.false_ne_true

-- A scalar is stored as a leaf.
theorem Fits.exists_leaf {f : Format} {node : Node} (h : f.Fits node) (hs : f.isScalar = true) :
    ∃ p, node = .leaf p ∧ p.toNat < 2 ^ f.width := by
  cases f with
  | bool | int | uint | enum =>
    cases node with
    | leaf p => exact ⟨p, rfl, h⟩
    | array | message => exact absurd h not_false
  | array | message => exact absurd hs Bool.false_ne_true

theorem Fits.exists_items {element : Format} {capacity : Nat} {node : Node}
    (h : (Format.array element capacity).Fits node) :
    ∃ items : List Node, node = .array ⟨items⟩ ∧ items.length = capacity ∧
      ∀ item ∈ items, element.Fits item := by
  cases node with
  | array items => exact ⟨items.toList, rfl, h⟩
  | leaf | message => exact absurd h not_false

theorem Fits.exists_nodes {m : MessageFormat} {node : Node} (h : (Format.message m).Fits node) :
    ∃ nodes : List Node, node = .message m ⟨nodes⟩ ∧ AllFit m.fields.toList nodes := by
  cases node with
  | message own nodes =>
    obtain ⟨rfl, hnodes⟩ := h
    exact ⟨nodes.toList, rfl, hnodes⟩
  | leaf | array => exact absurd h not_false

-- A nested message fits its own format only.
theorem Fits.eq_message {f : Format} {own : MessageFormat} {nodes : Array Node}
    (h : f.Fits (.message own nodes)) : f = .message own := by
  cases f with
  | message m => exact congrArg Format.message h.1.symm
  | bool | int | uint | enum | array => exact absurd h not_false

theorem allFit_iff (fields : List FieldFormat) (nodes : List Node) :
    AllFit fields nodes ↔ List.Forall₂ (fun f node => f.format.Fits node) fields nodes := by
  induction fields generalizing nodes with
  | nil => cases nodes <;> simp [AllFit]
  | cons f fields ih =>
    cases nodes with
    | nil => simp [AllFit]
    | cons node nodes => rw [List.forall₂_cons, ← ih, AllFit]

/-- Induction over fitting nodes: a format and its node are taken apart together. -/
theorem Fits.node_induct {motive : (f : Format) → (node : Node) → f.Fits node → Prop}
    (scalar : ∀ (f : Format) (p : UInt64) (hs : f.isScalar = true) (hp : p.toNat < 2 ^ f.width),
      motive f (.leaf p) ((fits_leaf hs p).mpr hp))
    (array : ∀ (element : Format) (items : List Node) (h : ∀ item ∈ items, element.Fits item),
      (∀ item (hitem : item ∈ items), motive element item (h item hitem)) →
        motive (.array element items.length) (.array ⟨items⟩) ⟨rfl, h⟩)
    (message : ∀ (name : String) (fields : List FieldFormat) (totalBits : Nat) (nodes : List Node)
      (ih : List.Forall₂ (fun f node => ∃ h, motive f.format node h) fields nodes),
        motive (.message ⟨name, ⟨fields⟩, totalBits⟩) (.message ⟨name, ⟨fields⟩, totalBits⟩ ⟨nodes⟩)
          ⟨rfl, (allFit_iff fields nodes).mpr (ih.imp fun _ _ hf => hf.fst)⟩)
    {f : Format} {node : Node} (h : f.Fits node) : motive f node h := by
  induction f using Format.induct generalizing node with
  | scalar f hs =>
    obtain ⟨p, rfl, hp⟩ := h.exists_leaf hs
    exact scalar f p hs hp
  | array element capacity ih =>
    obtain ⟨items, rfl, rfl, hitems⟩ := h.exists_items
    exact array element items hitems fun item hitem => ih (hitems item hitem)
  | message m ih =>
    obtain ⟨nodes, rfl, hnodes⟩ := h.exists_nodes
    have hall := (allFit_iff _ _).mp hnodes
    have hfields : List.Forall₂ (fun f node => ∃ h, motive f.format node h) m.fields.toList nodes := by
      refine List.forall₂_iff_zip.mpr ⟨hall.length_eq, fun {f node} hmem => ?_⟩
      have hf := (List.forall₂_iff_zip.mp hall).2 hmem
      exact ⟨hf, ih f (List.of_mem_zip hmem).1 hf⟩
    exact message m.name m.fields.toList m.totalBits nodes hfields

/-! ## 2. Stored leaves -/

mutual

/-- The leaves of a node of a format that starts at bit `offset`, in order. -/
def stored : Format → (offset : Nat) → Node → List StoredLeaf
  | .array element capacity, offset, .array ⟨items⟩ =>
    (List.range capacity).flatMap fun i =>
      match items[i]? with
      | some item => element.stored (offset + element.elementOffset i) item
      | none => []
  | .message ⟨_, ⟨fields⟩, _⟩, offset, .message _ ⟨nodes⟩ => storedFields fields offset nodes
  | .bool, offset, .leaf p => [⟨.bool, offset, p⟩]
  | .int bits, offset, .leaf p => [⟨.int bits, offset, p⟩]
  | .uint bits, offset, .leaf p => [⟨.uint bits, offset, p⟩]
  | .enum e, offset, .leaf p => [⟨.enum e, offset, p⟩]
  | _, _, _ => []

/-- The leaves of the stored fields of a message at bit `base`. -/
def storedFields : List FieldFormat → (base : Nat) → List Node → List StoredLeaf
  | ⟨_, _, offset, format⟩ :: fields, base, node :: nodes =>
    format.stored (base + offset) node ++ storedFields fields base nodes
  | _, _, _ => []

end

theorem stored_leaf {f : Format} (h : f.isScalar = true) (offset : Nat) (p : UInt64) :
    f.stored offset (.leaf p) = [⟨f, offset, p⟩] := by
  cases f <;> first | rfl | exact absurd h Bool.false_ne_true

theorem mem_stored_array {element : Format} {capacity offset : Nat} {items : List Node}
    (hlen : items.length = capacity) {l : StoredLeaf} :
    l ∈ (Format.array element capacity).stored offset (.array ⟨items⟩) ↔
      ∃ i item, items[i]? = some item ∧
        l ∈ element.stored (offset + element.elementOffset i) item := by
  rw [stored, List.mem_flatMap]
  constructor
  · rintro ⟨i, -, hl⟩
    split at hl
    next item hitem => exact ⟨i, item, hitem, hl⟩
    next => exact absurd hl List.not_mem_nil
  · rintro ⟨i, item, hitem, hl⟩
    have hi : i < items.length := (List.getElem?_eq_some_iff.mp hitem).1
    exact ⟨i, List.mem_range.mpr (by omega), by rwa [hitem]⟩

theorem storedFields_eq_flatMap (fields : List FieldFormat) (base : Nat) (nodes : List Node) :
    storedFields fields base nodes =
      (fields.zip nodes).flatMap fun (f, node) => f.format.stored (base + f.offset) node := by
  induction fields generalizing nodes with
  | nil => rw [storedFields] <;> simp
  | cons f fields ih =>
    cases nodes with
    | nil => rfl
    | cons node nodes => rw [storedFields, ih, List.zip_cons_cons, List.flatMap_cons]

theorem mem_storedFields {fields : List FieldFormat} {base : Nat} {nodes : List Node}
    {l : StoredLeaf} : l ∈ storedFields fields base nodes ↔
      ∃ pair ∈ fields.zip nodes, l ∈ pair.1.format.stored (base + pair.1.offset) pair.2 := by
  rw [storedFields_eq_flatMap, List.mem_flatMap]

-- The stored leaves of a fitting node stand where the leaves of its format stand.
theorem Fits.map_stored {f : Format} {node : Node} (h : f.Fits node) (place : Place) (offset : Nat) :
    (f.stored offset node).map (fun l => (l.format, l.offset)) =
      (f.leaves place offset).map (fun l => (l.format, l.offset)) := by
  induction h using Fits.node_induct generalizing place offset with
  | scalar f p hs _ =>
    rw [stored_leaf hs, leaves_scalar hs]
    rfl
  | array element items _ ih =>
    rw [stored, leaves, List.map_flatMap, List.map_flatMap]
    refine List.flatMap_congr fun i hi => ?_
    rw [List.getElem?_eq_getElem (List.mem_range.mp hi)]
    exact ih _ (List.getElem_mem _) _ _
  | message name fields totalBits nodes ih =>
    rw [stored, leaves_message, List.map_map]
    change (storedFields fields offset nodes).map (fun l => (l.format, l.offset)) =
      (fields.flatMap (leavesOfField offset)).map (fun l => (l.format, l.offset))
    induction ih with
    | nil => rfl
    | @cons f node fields nodes hf _ ihfields =>
      rw [storedFields, List.flatMap_cons, List.map_append, List.map_append,
        hf.snd ⟨f.number, []⟩ (offset + f.offset), ihfields]

-- The pattern of a stored leaf fits its width.
theorem Fits.pattern_lt {f : Format} {node : Node} (h : f.Fits node) {offset : Nat} {l : StoredLeaf}
    (hl : l ∈ f.stored offset node) : l.pattern.toNat < 2 ^ l.width := by
  induction h using Fits.node_induct generalizing offset with
  | scalar f p hs hp =>
    rw [stored_leaf hs, List.mem_singleton] at hl
    subst hl
    exact hp
  | array element items _ ih =>
    obtain ⟨i, item, hitem, hl⟩ := (mem_stored_array rfl).mp hl
    exact ih item (List.mem_of_getElem? hitem) hl
  | message name fields totalBits nodes ih =>
    obtain ⟨⟨f, node⟩, hmem, hl⟩ := mem_storedFields.mp hl
    exact ((List.forall₂_iff_zip.mp ih).2 hmem).snd hl

/-! ## 3. Changing every leaf -/

section

variable (g : Format → (offset : Nat) → UInt64 → UInt64)

mutual

/-- A node of a format that starts at bit `offset`, with every pattern changed. -/
def mapLeaves : Format → (offset : Nat) → Node → Node
  | .array element _, offset, .array ⟨items⟩ =>
    .array (items.mapIdx fun i item =>
      element.mapLeaves (offset + element.elementOffset i) item).toArray
  | .message ⟨_, ⟨fields⟩, _⟩, offset, .message own ⟨nodes⟩ =>
    .message own (mapFields fields offset nodes).toArray
  | .bool, offset, .leaf p => .leaf (g .bool offset p)
  | .int bits, offset, .leaf p => .leaf (g (.int bits) offset p)
  | .uint bits, offset, .leaf p => .leaf (g (.uint bits) offset p)
  | .enum e, offset, .leaf p => .leaf (g (.enum e) offset p)
  | _, _, node => node

/-- The stored fields of a message at bit `base`, with every pattern changed. -/
def mapFields : List FieldFormat → (base : Nat) → List Node → List Node
  | ⟨_, _, offset, format⟩ :: fields, base, node :: nodes =>
    format.mapLeaves (base + offset) node :: mapFields fields base nodes
  | _, _, nodes => nodes

end

end

variable {g : Format → (offset : Nat) → UInt64 → UInt64}

theorem mapLeaves_leaf {f : Format} (h : f.isScalar = true) (offset : Nat) (p : UInt64) :
    f.mapLeaves g offset (.leaf p) = .leaf (g f offset p) := by
  cases f <;> first | rfl | exact absurd h Bool.false_ne_true

-- A change that keeps every pattern in its width keeps a node fitting.
theorem Fits.mapLeaves {f : Format} {node : Node} (h : f.Fits node) {offset : Nat}
    (hg : ∀ f offset p, Format.isScalar f = true → p.toNat < 2 ^ f.width →
      (g f offset p).toNat < 2 ^ f.width) : f.Fits (f.mapLeaves g offset node) := by
  induction h using Fits.node_induct generalizing offset with
  | scalar f p hs hp =>
    rw [mapLeaves_leaf hs, fits_leaf hs]
    exact hg f offset p hs hp
  | array element items _ ih =>
    refine ⟨List.length_mapIdx, fun item hitem => ?_⟩
    obtain ⟨i, hi, rfl⟩ := List.mem_mapIdx.mp hitem
    exact ih _ (List.getElem_mem hi)
  | message name fields totalBits nodes ih =>
    refine ⟨rfl, ?_⟩
    rw [allFit_iff]
    induction ih with
    | nil => exact List.Forall₂.nil
    | cons hf _ ihfields => exact List.Forall₂.cons hf.snd ihfields

-- Changing every pattern changes every stored leaf.
theorem Fits.stored_mapLeaves {f : Format} {node : Node} (h : f.Fits node) (offset : Nat) :
    f.stored offset (f.mapLeaves g offset node) =
      (f.stored offset node).map fun l => { l with pattern := g l.format l.offset l.pattern } := by
  induction h using Fits.node_induct generalizing offset with
  | scalar f p hs _ =>
    rw [mapLeaves_leaf hs, stored_leaf hs, stored_leaf hs]
    rfl
  | array element items _ ih =>
    rw [Format.mapLeaves, stored, stored, List.map_flatMap]
    refine List.flatMap_congr fun i hi => ?_
    rw [List.getElem?_mapIdx, List.getElem?_eq_getElem (List.mem_range.mp hi)]
    exact ih _ (List.getElem_mem _) _
  | message name fields totalBits nodes ih =>
    rw [Format.mapLeaves, stored, stored]
    induction ih with
    | nil => rfl
    | cons hf _ ihfields =>
      rw [mapFields, storedFields, storedFields, List.map_append, hf.snd, ihfields]

-- Two changes in a row are one change.
theorem Fits.mapLeaves_mapLeaves {e : Format → (offset : Nat) → UInt64 → UInt64} {f : Format}
    {node : Node} (h : f.Fits node) (offset : Nat) :
    f.mapLeaves e offset (f.mapLeaves g offset node) =
      f.mapLeaves (fun f offset p => e f offset (g f offset p)) offset node := by
  induction h using Fits.node_induct generalizing offset with
  | scalar f p hs _ => rw [mapLeaves_leaf hs, mapLeaves_leaf hs, mapLeaves_leaf hs]
  | array element items _ ih =>
    rw [Format.mapLeaves, Format.mapLeaves, Format.mapLeaves, List.mapIdx_mapIdx]
    congr 2
    apply List.ext_getElem (by simp only [List.length_mapIdx])
    intro i hi _
    rw [List.getElem_mapIdx, List.getElem_mapIdx]
    exact ih _ (List.getElem_mem _) _
  | message name fields totalBits nodes ih =>
    rw [Format.mapLeaves, Format.mapLeaves, Format.mapLeaves]
    congr 2
    induction ih with
    | nil => rfl
    | cons hf _ ihfields => rw [mapFields, mapFields, mapFields, hf.snd, ihfields]

-- What a change makes of a node depends on the stored leaves only.
theorem Fits.mapLeaves_congr {e : Format → (offset : Nat) → UInt64 → UInt64} {f : Format}
    {node : Node} (h : f.Fits node) {offset : Nat}
    (hge : ∀ l ∈ f.stored offset node,
      g l.format l.offset l.pattern = e l.format l.offset l.pattern) :
    f.mapLeaves g offset node = f.mapLeaves e offset node := by
  induction h using Fits.node_induct generalizing offset with
  | scalar f p hs _ =>
    rw [stored_leaf hs] at hge
    rw [mapLeaves_leaf hs, mapLeaves_leaf hs, hge _ (List.mem_singleton_self _)]
  | array element items _ ih =>
    rw [Format.mapLeaves, Format.mapLeaves]
    congr 2
    apply List.ext_getElem (by rw [List.length_mapIdx, List.length_mapIdx])
    intro i hi _
    rw [List.length_mapIdx] at hi
    rw [List.getElem_mapIdx, List.getElem_mapIdx]
    refine ih _ (List.getElem_mem hi) fun l hl => hge l ?_
    exact (mem_stored_array rfl).mpr ⟨i, _, List.getElem?_eq_getElem hi, hl⟩
  | message name fields totalBits nodes ih =>
    rw [Format.mapLeaves, Format.mapLeaves]
    congr 2
    rw [stored] at hge
    induction ih with
    | nil => rfl
    | cons hf _ ihfields =>
      rw [storedFields] at hge
      rw [mapFields, mapFields, hf.snd fun l hl => hge l (List.mem_append_left _ hl),
        ihfields fun l hl => hge l (List.mem_append_right _ hl)]

theorem Fits.mapLeaves_id {f : Format} {node : Node} (h : f.Fits node) (offset : Nat) :
    f.mapLeaves (fun _ _ p => p) offset node = node := by
  induction h using Fits.node_induct generalizing offset with
  | scalar f p hs _ => rw [mapLeaves_leaf hs]
  | array element items _ ih =>
    rw [Format.mapLeaves]
    congr 2
    apply List.ext_getElem (by rw [List.length_mapIdx])
    intro i hi _
    rw [List.getElem_mapIdx]
    exact ih _ (List.getElem_mem _) _
  | message name fields totalBits nodes ih =>
    rw [Format.mapLeaves]
    congr 2
    induction ih with
    | nil => rfl
    | cons hf _ ihfields => rw [mapFields, hf.snd, ihfields]

/-! ## 4. Blank nodes -/

theorem fits_blank (f : Format) : f.Fits f.blank := by
  induction f using Format.induct with
  | scalar f hs =>
    rw [blank_scalar hs, fits_leaf hs]
    exact Nat.two_pow_pos _
  | array element capacity ih =>
    refine ⟨List.length_replicate, fun item hitem => ?_⟩
    rw [List.eq_of_mem_replicate hitem]
    exact ih
  | message m ih =>
    refine ⟨rfl, ?_⟩
    change AllFit m.fields.toList (blanks m.fields.toList)
    rw [allFit_iff, blanks_eq_map, List.forall₂_map_right_iff, List.forall₂_same]
    exact ih

theorem pattern_blank {f : Format} {offset : Nat} {l : StoredLeaf} (hl : l ∈ f.stored offset f.blank) :
    l.pattern = 0 := by
  induction f using Format.induct generalizing offset l with
  | scalar f hs =>
    rw [blank_scalar hs, stored_leaf hs, List.mem_singleton] at hl
    rw [hl]
  | array element capacity ih =>
    obtain ⟨i, item, hitem, hl⟩ := (mem_stored_array List.length_replicate).mp hl
    rw [List.eq_of_mem_replicate (List.mem_of_getElem? hitem)] at hl
    exact ih hl
  | message m ih =>
    obtain ⟨⟨f, node⟩, hmem, hl⟩ := mem_storedFields.mp hl
    change (f, node) ∈ m.fields.toList.zip (blanks m.fields.toList) at hmem
    rw [blanks_eq_map] at hmem
    have hzip := List.zip_map' (l := m.fields.toList) (f := id) (g := fun f => f.format.blank)
    rw [List.map_id] at hzip
    rw [hzip] at hmem
    obtain ⟨g, hg, he⟩ := List.mem_map.mp hmem
    obtain ⟨rfl, rfl⟩ := Prod.mk.inj he
    exact ih g hg hl

-- The blank node of a format becomes a fitting node if every leaf becomes the node's.
theorem Fits.mapLeaves_blank {f : Format} {node : Node} (h : f.Fits node) {offset : Nat}
    (hg : ∀ l ∈ f.stored offset node, g l.format l.offset 0 = l.pattern) :
    f.mapLeaves g offset f.blank = node := by
  induction h using Fits.node_induct generalizing offset with
  | scalar f p hs _ =>
    rw [stored_leaf hs] at hg
    rw [blank_scalar hs, mapLeaves_leaf hs, hg _ (List.mem_singleton_self _)]
  | array element items _ ih =>
    change Node.array ⟨(List.replicate items.length element.blank).mapIdx _⟩ = .array ⟨items⟩
    congr 2
    apply List.ext_getElem (by rw [List.length_mapIdx, List.length_replicate])
    intro i hi hi'
    rw [List.getElem_mapIdx, List.getElem_replicate]
    refine ih _ (List.getElem_mem hi') fun l hl => hg l ?_
    exact (mem_stored_array rfl).mpr ⟨i, _, List.getElem?_eq_getElem hi', hl⟩
  | message name fields totalBits nodes ih =>
    change Node.message _ ⟨mapFields g fields offset (blanks fields)⟩ = .message _ ⟨nodes⟩
    congr 2
    rw [stored] at hg
    induction ih with
    | nil => rfl
    | cons hf _ ihfields =>
      rw [storedFields] at hg
      rw [blanks, mapFields, hf.snd fun l hl => hg l (List.mem_append_left _ hl),
        ihfields fun l hl => hg l (List.mem_append_right _ hl)]

end Format

end Bitwire
