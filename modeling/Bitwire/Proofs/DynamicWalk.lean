import Bitwire.Proofs.NodePlaces
import Bitwire.Proofs.UnprunedWalk

/-!
# The codec on dynamic messages

Encoding a dynamic message reads its stored leaves, and decoding changes them one by one.  Both
come from the walk over all leaves: reading, every leaf of the format is met with the pattern that
is stored for it; writing, the parts of an input byte are absorbed by the patterns they belong to,
and by no others.
-/

namespace Bitwire

/-! ## 1. Messages and their leaves -/

namespace DynamicMessage

/-- A message as the node of a field that holds it. -/
def node (msg : DynamicMessage) : Node :=
  .message msg.format msg.nodes

theorem node_inj {msg msg' : DynamicMessage} (h : msg.node = msg'.node) : msg = msg' := by
  cases msg
  cases msg'
  obtain ⟨rfl, rfl⟩ := Node.message.inj h
  rfl

/-- Messages that have the shape of their format and hold no pattern that is too wide. -/
def Fits (msg : DynamicMessage) : Prop :=
  (Format.message msg.format).Fits msg.node

/-- The leaves of a message, with their patterns. -/
def stored (msg : DynamicMessage) : List StoredLeaf :=
  (Format.message msg.format).stored 0 msg.node

/-- A message with every pattern changed. -/
def mapLeaves (g : Format → (offset : Nat) → UInt64 → UInt64) (msg : DynamicMessage) :
    DynamicMessage :=
  ⟨msg.format, (Format.mapFields g msg.format.fields.toList 0 msg.nodes.toList).toArray⟩

theorem fits_blank (m : MessageFormat) : (blank m).Fits :=
  Format.fits_blank (.message m)

variable {g e : Format → (offset : Nat) → UInt64 → UInt64} {msg : DynamicMessage}

theorem Fits.mapLeaves (h : msg.Fits)
    (hg : ∀ f offset p, Format.isScalar f = true → p.toNat < 2 ^ f.width →
      (g f offset p).toNat < 2 ^ f.width) : (msg.mapLeaves g).Fits :=
  Format.Fits.mapLeaves h hg

theorem Fits.stored_mapLeaves (h : msg.Fits) : (msg.mapLeaves g).stored =
    msg.stored.map fun l => { l with pattern := g l.format l.offset l.pattern } :=
  Format.Fits.stored_mapLeaves h 0

theorem Fits.mapLeaves_mapLeaves (h : msg.Fits) : (msg.mapLeaves g).mapLeaves e =
    msg.mapLeaves fun f offset p => e f offset (g f offset p) :=
  node_inj (Format.Fits.mapLeaves_mapLeaves (g := g) (e := e) h 0)

theorem Fits.mapLeaves_congr (h : msg.Fits) (hge : ∀ l ∈ msg.stored,
    g l.format l.offset l.pattern = e l.format l.offset l.pattern) :
    msg.mapLeaves g = msg.mapLeaves e :=
  node_inj (Format.Fits.mapLeaves_congr (g := g) (e := e) h hge)

theorem Fits.mapLeaves_id (h : msg.Fits) : msg.mapLeaves (fun _ _ p => p) = msg :=
  node_inj (Format.Fits.mapLeaves_id h 0)

theorem Fits.mapLeaves_blank (h : msg.Fits)
    (hg : ∀ l ∈ msg.stored, g l.format l.offset 0 = l.pattern) :
    (blank msg.format).mapLeaves g = msg :=
  node_inj (Format.Fits.mapLeaves_blank h hg)

end DynamicMessage

/-! ## 2. Reading -/

/-- What a stored leaf contributes to byte `byte`. -/
def StoredLeaf.contribution (byte : Nat) (l : StoredLeaf) : UInt8 :=
  Pattern.byteAt l.pattern ((8 * byte : Nat) - (l.offset : Int)) &&&
    ownBits l.offset l.width byte

namespace DynamicMessage

theorem message?_of {msg child : DynamicMessage} {place : Place} {f : Format}
    (h : msg.locate? place = some (child.node, f)) : msg.message? place = some child := by
  rw [message?, h]
  rfl

theorem enter_cons (place : Place) (rest : List Place) (msg : DynamicMessage) :
    (accessor.enter (place :: rest) msg).run =
      (msg.message? place).bind fun child => (accessor.enter rest child).run := by
  have h : accessor.message? msg place = pure (msg.message? place) := rfl
  rw [Accessor.enter, h, pure_bind]
  cases msg.message? place <;> rfl

/-- The pattern at a place, if a scalar is stored there. -/
def pattern? (msg : DynamicMessage) (place : Place) : Option UInt64 :=
  match msg.locate? place with
  | some (.leaf p, _) => some p
  | _ => none

theorem pattern?_of {msg : DynamicMessage} {place : Place} {p : UInt64} {f : Format}
    (h : msg.locate? place = some (.leaf p, f)) : msg.pattern? place = some p := by
  rw [pattern?, h]

theorem getByte_eq (msg : DynamicMessage) (place : Place) (shift : Int) :
    msg.getByte place shift = ((msg.pattern? place).map (Pattern.byteAt · shift)).getD 0 := by
  rw [getByte, pattern?]
  cases msg.locate? place with
  | none => rfl
  | some found =>
    obtain ⟨node, f⟩ := found
    cases node <;> rfl

/-- The pattern that a message holds for a leaf, if there is one where the leaf is looked for. -/
def patternAt? (msg : DynamicMessage) (l : Leaf) : Option UInt64 :=
  (accessor.enter l.trail msg).run.bind fun child => child.pattern? l.place

/-- A leaf with the pattern that a message holds for it. -/
def storedAt? (msg : DynamicMessage) (l : Leaf) : Option StoredLeaf :=
  (msg.patternAt? l).map fun p => ⟨l.format, l.offset, p⟩

-- A leaf inside a nested message is looked for in that message.
theorem storedAt?_inside (msg : DynamicMessage) (place : Place) (l : Leaf) :
    msg.storedAt? (l.inside place) = (msg.message? place).bind fun child => child.storedAt? l := by
  rw [storedAt?, patternAt?, Leaf.inside, enter_cons]
  cases msg.message? place <;> rfl

theorem contribution_eq (msg : DynamicMessage) (byte : Nat) (l : Leaf) :
    l.contribution accessor msg byte =
      ((msg.storedAt? l).map (StoredLeaf.contribution byte)).getD 0 := by
  rw [Leaf.contribution, storedAt?, patternAt?]
  cases (accessor.enter l.trail msg).run with
  | none => rfl
  | some child =>
    rw [Option.bind_some]
    change child.getByte l.place _ &&& _ = _
    rw [getByte_eq]
    cases child.pattern? l.place with
    | none => exact UInt8.zero_and
    | some p => rfl

-- The fields of a message are found as they are stored, if the value of each field is.
theorem map_storedAt?_fields {m : MessageFormat} (h : m.Sound) (base : Nat)
    (front : List FieldFormat) {back : List FieldFormat} (hsplit : m.fields.toList = front ++ back)
    (done : List Node) {rest : List Node} (hlen : done.length = front.length) (hfit : Format.AllFit back rest)
    (hfound : ∀ f ∈ back, ∀ (node : Node) (msg : DynamicMessage) (place : Place) (offset : Nat),
      f.format.Fits node → msg.locate? place = some (node, f.format) →
      (f.format.leaves place offset).map msg.storedAt? = (f.format.stored offset node).map some) :
    (back.flatMap (Format.leavesOfField base)).map (storedAt? ⟨m, ⟨done ++ rest⟩⟩) =
      (Format.storedFields back base rest).map some := by
  induction back generalizing front done rest with
  | nil =>
    cases rest with
    | nil => rfl
    | cons => exact absurd hfit not_false
  | cons f back ih =>
    cases rest with
    | nil => exact absurd hfit not_false
    | cons node rest =>
      -- the first field moves over to those that are done
      obtain ⟨hnode, hrest⟩ := hfit
      have hback := ih (front ++ [f]) (by rw [hsplit, List.append_assoc, List.singleton_append])
        (done ++ [node])
        (by rw [List.length_append, List.length_append, hlen, List.length_singleton,
          List.length_singleton])
        hrest fun g hg => hfound g (List.mem_cons_of_mem _ hg)
      rw [List.append_assoc, List.singleton_append] at hback
      rw [List.flatMap_cons, List.map_append, Format.storedFields, List.map_append, hback,
        hfound f List.mem_cons_self node _ _ _ hnode (locate?_field h hsplit hlen)]

-- The leaves of a value are found as they are stored.
theorem map_storedAt? {f : Format} (h : f.Sound) {node : Node} (hfit : f.Fits node)
    {msg : DynamicMessage} {place : Place} (hloc : msg.locate? place = some (node, f))
    (offset : Nat) :
    (f.leaves place offset).map msg.storedAt? = (f.stored offset node).map some := by
  induction f using Format.induct generalizing node msg place offset with
  | scalar f hs =>
    obtain ⟨p, rfl, -⟩ := hfit.exists_leaf hs
    have hpattern : msg.patternAt? ⟨[], place, offset, f⟩ = some p := pattern?_of hloc
    rw [Format.leaves_scalar hs, Format.stored_leaf hs, List.map_singleton, List.map_singleton,
      storedAt?, hpattern]
    rfl
  | array element capacity ih =>
    obtain ⟨items, rfl, hlen, hitems⟩ := hfit.exists_items
    rw [Format.leaves, Format.stored, List.map_flatMap, List.map_flatMap]
    refine List.flatMap_congr fun i hi => ?_
    have hi : i < items.length := by rw [hlen]; exact List.mem_range.mp hi
    have hitem : (⟨items⟩ : Array Node)[i]? = some items[i] :=
      List.getElem?_toArray.trans (List.getElem?_eq_getElem hi)
    rw [List.getElem?_eq_getElem hi]
    exact ih h.1 (hitems _ (List.getElem_mem hi)) (locate?_element hloc hitem) _
  | message m ih =>
    obtain ⟨nodes, rfl, hnodes⟩ := hfit.exists_nodes
    -- a leaf inside is looked for in the nested message, which is stored at the place
    have hchild : msg.storedAt? ∘ Leaf.inside place = storedAt? ⟨m, ⟨nodes⟩⟩ := by
      funext l
      rw [Function.comp_apply, storedAt?_inside, @message?_of msg ⟨m, ⟨nodes⟩⟩ _ _ hloc,
        Option.bind_some]
    rw [Format.leaves_message, List.map_map, hchild]
    exact map_storedAt?_fields h offset [] rfl [] rfl hnodes fun f hf node msg place offset hnode hloc =>
      ih f hf (MessageFormat.Sound.field h hf) hnode hloc offset

/-- A fitting message holds a pattern for every leaf of its format. -/
theorem Fits.map_storedAt? {msg : DynamicMessage} (h : msg.format.Sound) (hfit : msg.Fits) :
    msg.format.leaves.map msg.storedAt? = msg.stored.map some :=
  map_storedAt?_fields h 0 [] rfl [] rfl hfit.2 fun _ hf _ _ _ offset hnode hloc =>
    DynamicMessage.map_storedAt? (h.field hf) hnode hloc offset

-- A leaf keeps its place when every pattern is changed.
theorem Fits.patternAt?_mapLeaves {msg : DynamicMessage} (h : msg.format.Sound) (hfit : msg.Fits)
    {g : Format → (offset : Nat) → UInt64 → UInt64} (hfit' : (msg.mapLeaves g).Fits) {l : Leaf}
    (hl : l ∈ msg.format.leaves) : ∃ p, msg.patternAt? l = some p ∧
      (msg.mapLeaves g).patternAt? l = some (g l.format l.offset p) := by
  have hbefore := hfit.map_storedAt? h
  have hafter : msg.format.leaves.map (msg.mapLeaves g).storedAt? = _ := hfit'.map_storedAt? h
  rw [hfit.stored_mapLeaves, List.map_map] at hafter
  -- both lists are told apart by the leaf's index in the format
  obtain ⟨i, hi, rfl⟩ := List.getElem_of_mem hl
  have hlen : i < msg.stored.length := by
    have := congrArg List.length hbefore
    rw [List.length_map, List.length_map] at this
    omega
  have hold := List.getElem_of_eq hbefore (by rwa [List.length_map])
  have hnew := List.getElem_of_eq hafter (by rwa [List.length_map])
  rw [List.getElem_map, List.getElem_map] at hold hnew
  obtain ⟨p, hp, hpat⟩ := Option.map_eq_some_iff.mp hold
  obtain ⟨p', hp', hpat'⟩ := Option.map_eq_some_iff.mp hnew
  rw [← hpat] at hpat'
  exact ⟨p, hp, hp'.trans (congrArg some (StoredLeaf.mk.inj hpat').2.2)⟩

/-- Encoding a message is reading its stored leaves. -/
theorem encodeBytes_run {msg : DynamicMessage} (h : msg.format.Sound) (hfit : msg.Fits) :
    (msg.format.encodeBytes accessor msg).run = (List.range msg.format.byteCount).map fun byte =>
      orAll (msg.stored.map (StoredLeaf.contribution byte)) := by
  rw [h.encodeBytes_run]
  refine List.map_congr_left fun byte _ => congrArg orAll ?_
  have hfound := congrArg (List.map fun found : Option StoredLeaf =>
    (found.map (StoredLeaf.contribution byte)).getD 0) (hfit.map_storedAt? h)
  rw [List.map_map, List.map_map] at hfound
  rw [funext (contribution_eq msg byte)]
  exact hfound

/-! ## 3. Writing -/

@[simp] theorem setByte_format (msg : DynamicMessage) (place : Place) (shift : Nat) (b : UInt8) :
    (msg.setByte place shift b).format = msg.format := by
  rw [setByte]
  split
  · exact replace_format _ _ _
  · rfl

/-- A message after an action on the nested message that a trail leads to, if there is one. -/
def within (action : DynamicMessage → DynamicMessage) : List Place → DynamicMessage → DynamicMessage
  | [], msg => action msg
  | place :: rest, msg =>
    match msg.message? place with
    | some child => msg.putMessage place (within action rest child)
    | none => msg

theorem within_format {action : DynamicMessage → DynamicMessage}
    (h : ∀ msg, (action msg).format = msg.format) (trail : List Place) (msg : DynamicMessage) :
    (within action trail msg).format = msg.format := by
  cases trail with
  | nil => exact h msg
  | cons place rest =>
    rw [within]
    split
    · exact replace_format _ _ _
    · rfl

/-- A message after a part of an input byte was added to it. -/
def put (input : UInt8) (msg : DynamicMessage) (part : Part) : DynamicMessage :=
  within (fun child => child.setByte part.place (part.span.contribution input).1
    (part.span.contribution input).2) part.trail msg

theorem put_inside (input : UInt8) (place : Place) (msg : DynamicMessage) (part : Part) :
    msg.put input (part.inside place) =
      match msg.message? place with
      | some child => msg.putMessage place (child.put input part)
      | none => msg := rfl

theorem message?_eq_some {msg child : DynamicMessage} {place : Place}
    (h : msg.message? place = some child) : ∃ f, msg.locate? place = some (child.node, f) := by
  rw [message?] at h
  split at h
  next own nodes f hloc =>
    obtain rfl := Option.some.inj h
    exact ⟨f, hloc⟩
  next => exact absurd h (by simp)

-- Adding parts to a nested message is adding them inside it and putting it back once.
theorem foldl_inside (input : UInt8) (place : Place) (parts : List Part) (msg : DynamicMessage) :
    (parts.map (Part.inside place)).foldl (put input) msg =
      match msg.message? place with
      | some child => msg.putMessage place (parts.foldl (put input) child)
      | none => msg := by
  induction parts generalizing msg with
  | nil =>
    cases hchild : msg.message? place with
    | some child =>
      obtain ⟨_, hloc⟩ := message?_eq_some hchild
      exact (replace_self hloc).symm
    | none => rfl
  | cons part parts ih =>
    rw [List.map_cons, List.foldl_cons, ih, put_inside]
    cases hchild : msg.message? place with
    | some child =>
      -- the nested message is found as it was put back, so its parts go on from there
      have hback : (msg.putMessage place (child.put input part)).message? place =
          some (child.put input part) := by
        obtain ⟨_, hloc⟩ := message?_eq_some hchild
        exact message?_of (locate?_replace hloc _)
      simp only [hback]
      exact replace_replace _ _ _ _
    | none => simp only [hchild]

mutual

-- A visit adds its parts.
theorem write_run (input : UInt8) : ∀ (visit : Visit) (msg : DynamicMessage),
    (visit.write accessor input msg).run = visit.parts.foldl (put input) msg
  | .value _ _, _ => rfl
  | .message place inner, msg => by
    rw [Visit.parts, foldl_inside, Visit.write]
    cases hchild : msg.message? place with
    | some child =>
      have hrun : accessor.messageMut? msg place = some (child, msg.putMessage place) :=
        congrArg (Option.map fun child => (child, msg.putMessage place)) hchild
      rw [hrun]
      exact congrArg (msg.putMessage place) (writeAll_run input inner child)
    | none =>
      have hrun : accessor.messageMut? msg place = none :=
        congrArg (Option.map fun child => (child, msg.putMessage place)) hchild
      rw [hrun]
      rfl

-- Visits add their parts, one after the other.
theorem writeAll_run (input : UInt8) : ∀ (visits : List Visit) (msg : DynamicMessage),
    (Visit.writeAll accessor input visits msg).run = (Visit.partsAll visits).foldl (put input) msg
  | [], _ => rfl
  | visit :: rest, msg => by
    rw [Visit.partsAll, List.foldl_append, ← write_run input visit msg]
    exact writeAll_run input rest _

end

/-- What becomes of the pattern of a leaf when an input byte is decoded. -/
def absorb (byte : Nat) (input : UInt8) (f : Format) (offset : Nat) (p : UInt64) : UInt64 :=
  match ByteSpan.of? offset f.width byte with
  | some span => addByte f p (span.contribution input).1 (span.contribution input).2
  | none => p

-- The part of a scalar in a byte is absorbed by its pattern.
theorem foldl_parts_scalar {f : Format} (h : f.Sound) (hs : f.isScalar = true) {p : UInt64}
    {msg : DynamicMessage} {place : Place} (hloc : msg.locate? place = some (.leaf p, f))
    (input : UInt8) (byte offset : Nat) :
    (Leaf.parts byte [⟨[], place, offset, f⟩]).foldl (put input) msg =
      msg.replace place (.leaf (absorb byte input f offset p)) := by
  rw [← Format.partsAll_ofLeaf h hs, Visit.ofLeaf, absorb]
  cases ByteSpan.of? offset f.width byte with
  | some span =>
    change msg.setByte place _ _ = _
    rw [setByte, hloc]
  | none => exact (replace_self hloc).symm

/-- The elements of an array of which the first `count` have been changed. -/
def changeFirst (g : Nat → Node → Node) (count : Nat) (items : List Node) : List Node :=
  items.mapIdx fun i item => if i < count then g i item else item

theorem changeFirst_zero (g : Nat → Node → Node) (items : List Node) :
    changeFirst g 0 items = items := by
  apply List.ext_getElem (by rw [changeFirst, List.length_mapIdx])
  intro i hi _
  simp only [changeFirst, List.getElem_mapIdx, Nat.not_lt_zero, if_false]

theorem changeFirst_length (g : Nat → Node → Node) (items : List Node) :
    changeFirst g items.length items = items.mapIdx g := by
  apply List.ext_getElem (by rw [changeFirst, List.length_mapIdx, List.length_mapIdx])
  intro i hi _
  rw [changeFirst, List.length_mapIdx] at hi
  simp only [changeFirst, List.getElem_mapIdx]
  rw [if_pos hi]

-- The next element is as it was.
theorem getElem?_changeFirst (g : Nat → Node → Node) {count : Nat} {items : List Node}
    (h : count < items.length) : (changeFirst g count items)[count]? = some items[count] := by
  rw [changeFirst, List.getElem?_mapIdx, List.getElem?_eq_getElem h, Option.map_some,
    if_neg (Nat.lt_irrefl count)]

-- Changing one more element is a change at its index.
theorem changeFirst_succ (g : Nat → Node → Node) {count : Nat} {items : List Node}
    (h : count < items.length) : (⟨changeFirst g (count + 1) items⟩ : Array Node) =
      Array.modify ⟨changeFirst g count items⟩ count fun _ => g count items[count] := by
  apply Array.ext_getElem?
  intro i
  rw [Array.getElem?_modify, List.getElem?_toArray, List.getElem?_toArray, changeFirst, changeFirst,
    List.getElem?_mapIdx, List.getElem?_mapIdx]
  by_cases hi : count = i
  · rw [if_pos hi, ← hi, List.getElem?_eq_getElem h, Option.map_some, Option.map_some,
      Option.map_some, if_pos (Nat.lt_succ_self count)]
  · rw [if_neg hi]
    congr 1
    funext item
    rw [if_congr (by omega : i < count + 1 ↔ i < count) rfl rfl]

-- The parts of an array in a byte are absorbed element after element.
theorem foldl_parts_elements {element : Format} {capacity : Nat} {items : List Node}
    {msg : DynamicMessage} {place : Place}
    (hloc : msg.locate? place = some (.array ⟨items⟩, .array element capacity))
    (hfit : ∀ item ∈ items, element.Fits item) (input : UInt8) (byte offset : Nat)
    (hput : ∀ (node : Node) (msg : DynamicMessage) (place : Place) (offset : Nat),
      element.Fits node → msg.locate? place = some (node, element) →
      (Leaf.parts byte (element.leaves place offset)).foldl (put input) msg =
        msg.replace place (element.mapLeaves (absorb byte input) offset node))
    {count : Nat} (hcount : count ≤ items.length) :
    (Leaf.parts byte ((List.range count).flatMap fun i =>
        element.leaves (place.element i) (offset + element.elementOffset i))).foldl (put input) msg =
      msg.replace place (.array ⟨changeFirst (fun i item =>
        element.mapLeaves (absorb byte input) (offset + element.elementOffset i) item)
          count items⟩) := by
  induction count with
  | zero =>
    rw [changeFirst_zero]
    exact (replace_self hloc).symm
  | succ count ih =>
    -- the elements below `count` have absorbed their parts, the others are as they were
    have hlt : count < items.length := hcount
    have hplace := locate?_replace hloc (.array ⟨changeFirst (fun i item =>
      element.mapLeaves (absorb byte input) (offset + element.elementOffset i) item) count items⟩)
    have hitem := locate?_element hplace
      (List.getElem?_toArray.trans (getElem?_changeFirst _ hlt))
    rw [List.range_succ, List.flatMap_append, Leaf.parts_append, List.foldl_append,
      ih (by omega), List.flatMap_singleton, hput _ _ _ _ (hfit _ (List.getElem_mem hlt)) hitem,
      replace_element hplace, replace_replace, changeFirst_succ _ hlt]

-- The parts of the fields of a message in a byte are absorbed field after field.
theorem foldl_parts_fields {m : MessageFormat} (h : m.Sound) (input : UInt8) (byte base : Nat)
    (front : List FieldFormat) {back : List FieldFormat} (hsplit : m.fields.toList = front ++ back)
    (done : List Node) {rest : List Node} (hlen : done.length = front.length) (hfit : Format.AllFit back rest)
    (hput : ∀ f ∈ back, ∀ (node : Node) (msg : DynamicMessage) (place : Place) (offset : Nat),
      f.format.Fits node → msg.locate? place = some (node, f.format) →
      (Leaf.parts byte (f.format.leaves place offset)).foldl (put input) msg =
        msg.replace place (f.format.mapLeaves (absorb byte input) offset node)) :
    (Leaf.parts byte (back.flatMap (Format.leavesOfField base))).foldl (put input)
        ⟨m, ⟨done ++ rest⟩⟩ =
      ⟨m, ⟨done ++ Format.mapFields (absorb byte input) back base rest⟩⟩ := by
  induction back generalizing front done rest with
  | nil =>
    cases rest with
    | nil => rfl
    | cons => exact absurd hfit not_false
  | cons f back ih =>
    cases rest with
    | nil => exact absurd hfit not_false
    | cons node rest =>
      -- the first field moves over to those that are done
      obtain ⟨hnode, hrest⟩ := hfit
      let changed := f.format.mapLeaves (absorb byte input) (base + f.offset) node
      have hback := ih (front ++ [f]) (by rw [hsplit, List.append_assoc, List.singleton_append])
        (done ++ [changed])
        (by rw [List.length_append, List.length_append, hlen, List.length_singleton,
          List.length_singleton])
        hrest fun g hg => hput g (List.mem_cons_of_mem _ hg)
      rw [List.append_assoc, List.append_assoc, List.singleton_append, List.singleton_append] at hback
      rw [List.flatMap_cons, Leaf.parts_append, List.foldl_append,
        hput f List.mem_cons_self node _ _ _ hnode (locate?_field h hsplit hlen),
        replace_field h hsplit hlen, hback]
      rfl

-- The parts of a value in a byte are absorbed by its leaves.
theorem foldl_parts {f : Format} (h : f.Sound) {node : Node} (hfit : f.Fits node)
    {msg : DynamicMessage} {place : Place} (hloc : msg.locate? place = some (node, f))
    (input : UInt8) (byte offset : Nat) :
    (Leaf.parts byte (f.leaves place offset)).foldl (put input) msg =
      msg.replace place (f.mapLeaves (absorb byte input) offset node) := by
  induction f using Format.induct generalizing node msg place offset with
  | scalar f hs =>
    obtain ⟨p, rfl, -⟩ := hfit.exists_leaf hs
    rw [Format.leaves_scalar hs, foldl_parts_scalar h hs hloc, Format.mapLeaves_leaf hs]
  | array element capacity ih =>
    obtain ⟨items, rfl, hlen, hitems⟩ := hfit.exists_items
    rw [Format.leaves, ← hlen, foldl_parts_elements hloc hitems input byte offset
      (fun node msg place offset hnode hloc => ih h.1 hnode hloc offset) (Nat.le_refl _),
      changeFirst_length]
    rfl
  | message m ih =>
    obtain ⟨nodes, rfl, hnodes⟩ := hfit.exists_nodes
    rw [Format.leaves_message, Leaf.parts_inside, foldl_inside,
      @message?_of msg ⟨m, ⟨nodes⟩⟩ _ _ hloc]
    -- the nested message is taken out, absorbs its parts and is put back
    have hfields := foldl_parts_fields h input byte offset [] rfl [] rfl hnodes
      fun f hf node msg place offset hnode hloc =>
        ih f hf (MessageFormat.Sound.field h hf) hnode hloc offset
    rw [List.nil_append] at hfields
    simp only [hfields]
    rfl

/-- What becomes of the pattern of a leaf when input bytes are decoded, the first of which is byte
`byte`. -/
def absorbAll (byte : Nat) : List UInt8 → Format → (offset : Nat) → UInt64 → UInt64
  | [], _, _, p => p
  | input :: rest, f, offset, p => absorbAll (byte + 1) rest f offset (absorb byte input f offset p)

theorem addByte_lt {f : Format} (hs : f.isScalar = true) (p : UInt64) (shift : Nat) (b : UInt8) :
    (addByte f p shift b).toNat < 2 ^ f.width := by
  cases f with
  | bool =>
    rw [addByte]
    split <;> decide
  | int | uint | enum =>
    change (Pattern.truncate _ _).toNat < _
    rw [Pattern.toNat_truncate]
    exact Nat.mod_lt _ (Nat.two_pow_pos _)
  | array | message => exact absurd hs Bool.false_ne_true

theorem absorb_lt {f : Format} (hs : f.isScalar = true) (byte : Nat) (input : UInt8) (offset : Nat)
    {p : UInt64} (hp : p.toNat < 2 ^ f.width) : (absorb byte input f offset p).toNat < 2 ^ f.width := by
  rw [absorb]
  split
  · exact addByte_lt hs _ _ _
  · exact hp

theorem absorbAll_lt {f : Format} (hs : f.isScalar = true) (data : List UInt8) (byte offset : Nat)
    {p : UInt64} (hp : p.toNat < 2 ^ f.width) :
    (absorbAll byte data f offset p).toNat < 2 ^ f.width := by
  induction data generalizing byte p with
  | nil => exact hp
  | cons input rest ih => exact ih (byte + 1) (absorb_lt hs byte input offset hp)

theorem Fits.mapLeaves_absorbAll {msg : DynamicMessage} (h : msg.Fits) (data : List UInt8)
    (byte : Nat) : (msg.mapLeaves (absorbAll byte data)).Fits :=
  h.mapLeaves fun _ offset _ hs hp => absorbAll_lt hs data byte offset hp

theorem Fits.writeAll_run {msg : DynamicMessage} (h : msg.format.Sound) (hfit : msg.Fits)
    (input : UInt8) (byte : Nat) :
    (Visit.writeAll accessor input (msg.format.visits byte) msg).run =
      msg.mapLeaves (absorb byte input) := by
  rw [DynamicMessage.writeAll_run, h.partsAll_visits]
  have hfields := foldl_parts_fields h input byte 0 [] rfl [] rfl hfit.2
    fun f hf node msg place offset hnode hloc => foldl_parts (h.field hf) hnode hloc input byte offset
  exact hfields

/-- Decoding bytes into a message changes its leaves. -/
theorem Fits.decodeFrom_run {msg : DynamicMessage} (h : msg.format.Sound) (hfit : msg.Fits)
    (data : List UInt8) (byte : Nat) :
    (msg.format.decodeFrom accessor data byte msg).run = msg.mapLeaves (absorbAll byte data) := by
  induction data generalizing byte msg with
  | nil => exact hfit.mapLeaves_id.symm
  | cons input rest ih =>
    have hfit' : (msg.mapLeaves (absorb byte input)).Fits :=
      hfit.mapLeaves fun f offset p hs hp => absorb_lt hs byte input offset hp
    have hrest : (msg.format.decodeFrom accessor rest (byte + 1)
        (msg.mapLeaves (absorb byte input))).run =
          (msg.mapLeaves (absorb byte input)).mapLeaves (absorbAll (byte + 1) rest) :=
      @ih (msg.mapLeaves (absorb byte input)) h hfit' (byte + 1)
    rw [hfit.mapLeaves_mapLeaves] at hrest
    change (msg.format.decodeFrom accessor rest (byte + 1)
      (Visit.writeAll accessor input (msg.format.visits byte) msg).run).run = _
    rw [hfit.writeAll_run h]
    exact hrest

end DynamicMessage

end Bitwire
