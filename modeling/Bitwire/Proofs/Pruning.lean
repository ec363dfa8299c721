import Bitwire.Proofs.Bisection
import Bitwire.Proofs.Leaves

/-!
# Nothing is lost by pruning

The visits of a byte skip fields by bisection, end at the first field behind the byte and find the
elements of an array by division.  Each of these shortcuts leaves out leaves that have no bit in
the byte, and no others: the parts that the visits move are those of all leaves that reach the
byte, in the order of the leaves.
-/

namespace Bitwire

/-- The part of a leaf that falls into a byte, with the way to the leaf. -/
structure Part where
  /-- The places of the nested messages on the way, the outermost first. -/
  trail : List Place
  place : Place
  span : ByteSpan

/-- The part as it is found from the message around its own. -/
def Part.inside (place : Place) (part : Part) : Part :=
  { part with trail := place :: part.trail }

/-- The part of a leaf that falls into byte `byte`. -/
def Leaf.part (byte : Nat) (l : Leaf) : Part :=
  ⟨l.trail, l.place, (8 * byte : Nat) - (l.offset : Int), ownBits l.offset l.width byte⟩

/-- The parts that fall into byte `byte`, of the leaves that have any. -/
def Leaf.parts (byte : Nat) (leaves : List Leaf) : List Part :=
  (leaves.filter (Leaf.reaches byte)).map (Leaf.part byte)

namespace Visit

mutual

/-- The parts that a visit moves, in order. -/
def parts : Visit → List Part
  | .value place span => [⟨[], place, span⟩]
  | .message place inner => (partsAll inner).map (Part.inside place)

/-- The parts that a list of visits moves, in order. -/
def partsAll : List Visit → List Part
  | [] => []
  | visit :: rest => visit.parts ++ partsAll rest

end

theorem partsAll_eq_flatMap (visits : List Visit) : partsAll visits = visits.flatMap parts := by
  induction visits with
  | nil => rfl
  | cons visit rest ih => rw [List.flatMap_cons, ← ih, partsAll]

theorem partsAll_append (xs ys : List Visit) :
    partsAll (xs ++ ys) = partsAll xs ++ partsAll ys := by
  simp only [partsAll_eq_flatMap, List.flatMap_append]

theorem partsAll_flatMap {β : Type} (xs : List β) (g : β → List Visit) :
    partsAll (xs.flatMap g) = xs.flatMap fun x => partsAll (g x) := by
  simp only [partsAll_eq_flatMap, List.flatMap_assoc]

theorem partsAll_message (place : Place) (inner : List Visit) :
    partsAll [.message place inner] = (partsAll inner).map (Part.inside place) := by
  simp only [partsAll, parts, List.append_nil]

end Visit

namespace Leaf

theorem parts_append (byte : Nat) (xs ys : List Leaf) :
    parts byte (xs ++ ys) = parts byte xs ++ parts byte ys := by
  simp only [parts, List.filter_append, List.map_append]

theorem parts_flatMap {β : Type} (byte : Nat) (xs : List β) (g : β → List Leaf) :
    parts byte (xs.flatMap g) = xs.flatMap fun x => parts byte (g x) := by
  simp only [parts, List.filter_flatMap, List.map_flatMap]

theorem parts_inside (byte : Nat) (place : Place) (xs : List Leaf) :
    parts byte (xs.map (inside place)) = (parts byte xs).map (Part.inside place) := by
  simp only [parts, List.filter_map, List.map_map]
  rfl

theorem parts_eq_nil {byte : Nat} {xs : List Leaf} (h : xs.filter (reaches byte) = []) :
    parts byte xs = [] := by
  rw [parts, h, List.map_nil]

end Leaf

/-! ## 1. Elements of an array -/

-- A range may be cut down to a middle part outside which nothing is found.
theorem flatMap_range_middle {β : Type} {g : Nat → List β} {first last capacity : Nat}
    (hle : first ≤ last) (hcap : last < capacity) (hbefore : ∀ i < first, g i = [])
    (hafter : ∀ i, last < i → i < capacity → g i = []) :
    ((List.range (last + 1 - first)).map (first + ·)).flatMap g =
      (List.range capacity).flatMap g := by
  have hall : List.range capacity = List.range (last + 1) ++
      (List.range (capacity - (last + 1))).map (last + 1 + ·) := by
    rw [← List.range_add, Nat.add_sub_of_le (by omega)]
  have hmiddle : List.range (last + 1) =
      List.range first ++ (List.range (last + 1 - first)).map (first + ·) := by
    rw [← List.range_add, Nat.add_sub_of_le (by omega)]
  have hnil : (List.range first).flatMap g = [] :=
    List.flatMap_eq_nil_iff.mpr fun i hi => hbefore i (List.mem_range.mp hi)
  have hnil' : ((List.range (capacity - (last + 1))).map (last + 1 + ·)).flatMap g = [] := by
    refine List.flatMap_eq_nil_iff.mpr fun i hi => ?_
    obtain ⟨k, hk, rfl⟩ := List.mem_map.mp hi
    have hk := List.mem_range.mp hk
    exact hafter _ (by omega) (by omega)
  rw [hall, List.flatMap_append, hnil', List.append_nil, hmiddle, List.flatMap_append, hnil,
    List.nil_append]

theorem element_stop_le (width : Nat) {i count : Nat} (h : i < count) :
    i * width + width ≤ width * count := by
  calc i * width + width = width * (i + 1) := by ring
    _ ≤ width * count := Nat.mul_le_mul_left _ h

-- Division finds elements that an array has.
theorem lt_of_mem_overlappingElements {width capacity offset byte i : Nat}
    (h : i ∈ overlappingElements width capacity offset byte) : i < capacity := by
  unfold overlappingElements at h
  split at h
  next => exact absurd h List.not_mem_nil
  next hw =>
    dsimp only at h
    split at h
    next hlt =>
      obtain ⟨k, hk, rfl⟩ := List.mem_map.mp h
      rw [List.mem_range] at hk
      have hlast : (min (offset + width * capacity) (8 * byte + 8) - 1 - offset) / width < capacity := by
        refine (Nat.div_lt_iff_lt_mul (Nat.pos_of_ne_zero hw)).mpr ?_
        rw [Nat.mul_comm capacity]
        omega
      omega
    next => exact absurd h List.not_mem_nil

-- The elements found by division are all those that have a bit in the byte.
theorem flatMap_overlappingElements {β : Type} {width capacity offset byte : Nat}
    (g : Nat → List β)
    (hg : ∀ i < capacity, ¬ max (offset + i * width) (8 * byte) <
      min (offset + i * width + width) (8 * byte + 8) → g i = []) :
    (overlappingElements width capacity offset byte).flatMap g =
      (List.range capacity).flatMap g := by
  unfold overlappingElements
  split
  next hw =>
    -- elements without bits have none in the byte
    exact (List.flatMap_eq_nil_iff.mpr fun i hi => hg i (List.mem_range.mp hi) (by omega)).symm
  next hw =>
    simp only
    split
    next hlt =>
      have hpos : 0 < width := Nat.pos_of_ne_zero hw
      let start := max offset (8 * byte)
      let stop := min (offset + width * capacity) (8 * byte + 8)
      let first := (start - offset) / width
      let last := (stop - 1 - offset) / width
      have hfirst : width * first ≤ start - offset := Nat.mul_div_le _ _
      have hlast : stop - 1 - offset < width * (last + 1) := Nat.lt_mul_div_succ _ hpos
      have hle : first ≤ last := Nat.div_le_div_right (by omega)
      have hcap : last < capacity := Nat.div_lt_of_lt_mul (by omega)
      apply flatMap_range_middle hle hcap
      · -- an element before the first ends before the byte
        intro i hi
        have hend := element_stop_le width hi
        exact hg i (by omega) (by omega)
      · -- an element behind the last starts behind the byte
        intro i hi hi'
        have hstart : width * (last + 1) ≤ i * width := by
          rw [Nat.mul_comm]
          exact Nat.mul_le_mul_right _ hi
        have hend := element_stop_le width hi'
        exact hg i hi' (by omega)
    next hge =>
      -- the whole array lies outside the byte
      refine (List.flatMap_eq_nil_iff.mpr fun i hi => ?_).symm
      have hend := element_stop_le width (List.mem_range.mp hi)
      exact hg i (List.mem_range.mp hi) (by omega)

/-! ## 2. Fields of a message -/

-- The fields that end at or before a bit are the first ones.
theorem exists_split_at_stop {fields : List FieldFormat}
    (h : fields.Pairwise fun f g => f.stop ≤ g.offset) (lo : Nat) :
    ∃ front back, fields = front ++ back ∧ (∀ f ∈ front, f.stop ≤ lo) ∧
      ∀ f ∈ back, ¬ f.stop ≤ lo := by
  induction fields with
  | nil => exact ⟨[], [], rfl, by simp, by simp⟩
  | cons f rest ih =>
    obtain ⟨hf, hrest⟩ := List.pairwise_cons.mp h
    by_cases hlo : f.stop ≤ lo
    · obtain ⟨front, back, hsplit, hfront, hback⟩ := ih hrest
      exact ⟨f :: front, back, by rw [hsplit, List.cons_append],
        List.forall_mem_cons.mpr ⟨hlo, hfront⟩, hback⟩
    · refine ⟨[], f :: rest, rfl, by simp, List.forall_mem_cons.mpr ⟨hlo, fun g hg => ?_⟩⟩
      have hfg := hf g hg
      have : g.stop = g.offset + g.format.width := rfl
      omega

-- `endedBefore` counts the fields in front of a bit.
theorem MessageFormat.exists_split_endedBefore {m : MessageFormat}
    (h : m.fields.toList.Pairwise fun f g => f.stop ≤ g.offset) (lo : Nat) :
    ∃ front back, m.fields.toList = front ++ back ∧ m.endedBefore lo = front.length ∧
      (∀ f ∈ front, f.stop ≤ lo) ∧ ∀ f ∈ back, ¬ f.stop ≤ lo := by
  obtain ⟨front, back, hsplit, hfront, hback⟩ := exists_split_at_stop h lo
  refine ⟨front, back, hsplit, ?_, hfront, hback⟩
  rw [endedBefore, ← @Array.toArray_toList _ m.fields, hsplit]
  exact Bisect.partitionPoint_append (fun f hf => decide_eq_true (hfront f hf))
    fun f hf => decide_eq_false (hback f hf)

theorem MessageFormat.Sound.endedBefore_eq {m : MessageFormat} (h : m.Sound) (lo : Nat) :
    ∃ front back, m.fields.toList = front ++ back ∧ m.endedBefore lo = front.length ∧
      ∀ f ∈ front, f.stop ≤ lo := by
  obtain ⟨front, back, hsplit, hended, hfront, -⟩ := exists_split_endedBefore h.disjoint lo
  exact ⟨front, back, hsplit, hended, hfront⟩

namespace Format

theorem fieldVisits_append (front back : List FieldFormat) (base byte : Nat) :
    fieldVisits (front ++ back) front.length base byte = fieldVisits back 0 base byte := by
  induction front with
  | nil => rfl
  | cons f front ih => rw [List.cons_append, List.length_cons, fieldVisits, ih]

-- Ending the walk at the first field behind the byte leaves out nothing.
theorem partsAll_fieldVisits {fields : List FieldFormat} {base byte : Nat}
    (hparts : ∀ f ∈ fields, Visit.partsAll (f.format.visits ⟨f.number, []⟩ (base + f.offset) byte) =
      Leaf.parts byte (leavesOfField base f))
    (hs : ∀ f ∈ fields, f.format.Sound)
    (hd : fields.Pairwise fun f g => f.stop ≤ g.offset) :
    Visit.partsAll (fieldVisits fields 0 base byte) =
      Leaf.parts byte (fields.flatMap (leavesOfField base)) := by
  induction fields with
  | nil => rfl
  | cons f rest ih =>
    obtain ⟨hf, hrest⟩ := List.pairwise_cons.mp hd
    rw [fieldVisits]
    split
    next hbehind =>
      -- every field from here on starts behind the byte
      rw [Leaf.parts_flatMap]
      refine (List.flatMap_eq_nil_iff.mpr fun g hg => Leaf.parts_eq_nil ?_).symm
      apply (hs g hg).no_leaf_reaches
      rcases List.mem_cons.mp hg with rfl | hg
      · omega
      · have hfg := hf g hg
        have : f.stop = f.offset + f.format.width := rfl
        omega
    next hin =>
      rw [Visit.partsAll_append, List.flatMap_cons, Leaf.parts_append,
        hparts f List.mem_cons_self,
        ih (fun g hg => hparts g (List.mem_cons_of_mem _ hg))
          (fun g hg => hs g (List.mem_cons_of_mem _ hg)) hrest]

-- Skipping the fields that end before the byte leaves out nothing.
theorem partsAll_skipVisits {m : MessageFormat} (h : m.Sound) (base byte : Nat)
    (hparts : ∀ f ∈ m.fields.toList,
      Visit.partsAll (f.format.visits ⟨f.number, []⟩ (base + f.offset) byte) =
        Leaf.parts byte (leavesOfField base f)) :
    Visit.partsAll (fieldVisits m.fields.toList (m.endedBefore (8 * byte - base)) base byte) =
      Leaf.parts byte (m.fields.toList.flatMap (leavesOfField base)) := by
  obtain ⟨front, back, hsplit, hskip, hfront⟩ := h.endedBefore_eq (8 * byte - base)
  have hs : ∀ f ∈ m.fields.toList, f.format.Sound := fun f hf => h.field hf
  have hd := h.disjoint
  rw [hsplit] at hparts hs hd ⊢
  have hskipped : Leaf.parts byte (front.flatMap (leavesOfField base)) = [] := by
    rw [Leaf.parts_flatMap]
    refine List.flatMap_eq_nil_iff.mpr fun f hf => Leaf.parts_eq_nil ?_
    apply (hs f (List.mem_append_left _ hf)).no_leaf_reaches
    have hstop : f.offset + f.format.width ≤ 8 * byte - base := hfront f hf
    omega
  rw [hskip, fieldVisits_append, List.flatMap_append, Leaf.parts_append, hskipped, List.nil_append]
  exact partsAll_fieldVisits (fun f hf => hparts f (List.mem_append_right _ hf))
    (fun f hf => hs f (List.mem_append_right _ hf)) (List.pairwise_append.mp hd).2.1

/-! ## 3. Formats -/

theorem visits_scalar {f : Format} (h : f.isScalar = true) (place : Place) (offset byte : Nat) :
    f.visits place offset byte = Visit.ofLeaf f.width place offset byte := by
  cases f <;> first | rfl | exact absurd h Bool.false_ne_true

theorem partsAll_ofLeaf {f : Format} (h : f.Sound) (hs : f.isScalar = true) (place : Place)
    (offset byte : Nat) : Visit.partsAll (Visit.ofLeaf f.width place offset byte) =
      Leaf.parts byte [⟨[], place, offset, f⟩] := by
  have hw := (h.scalar_width hs).1
  by_cases hr : offset < 8 * byte + 8 ∧ 8 * byte < offset + f.width
  · rw [Visit.ofLeaf, ByteSpan.of?_eq_some hr.1 hr.2 hw]
    have hr : Leaf.reaches byte ⟨[], place, offset, f⟩ = true := decide_eq_true hr
    rw [Leaf.parts, List.filter_cons_of_pos hr]
    rfl
  · rw [Visit.ofLeaf, ByteSpan.of?_eq_none (by omega)]
    have hr : ¬ Leaf.reaches byte ⟨[], place, offset, f⟩ = true := fun h => hr (of_decide_eq_true h)
    rw [Leaf.parts, List.filter_cons_of_neg hr]
    rfl

-- The parts that a value's visits move are those of its leaves.
theorem Sound.partsAll_visits {f : Format} (h : f.Sound) (place : Place) (offset byte : Nat) :
    Visit.partsAll (f.visits place offset byte) = Leaf.parts byte (f.leaves place offset) := by
  induction f using Format.induct generalizing place offset with
  | scalar f hs => rw [visits_scalar hs, leaves_scalar hs, partsAll_ofLeaf h hs]
  | array element capacity ih =>
    rw [visits, leaves, Visit.partsAll_flatMap, Leaf.parts_flatMap]
    simp only [ih h.1]
    exact flatMap_overlappingElements _ fun i _ hout =>
      Leaf.parts_eq_nil (h.1.no_leaf_reaches _ hout)
  | message m ih =>
    rw [leaves_message, Leaf.parts_inside]
    change Visit.partsAll [.message place (fieldVisits m.fields.toList
      (m.endedBefore (8 * byte - offset)) offset byte)] = _
    rw [Visit.partsAll_message,
      partsAll_skipVisits h offset byte fun f hf => ih f hf (MessageFormat.Sound.field h hf) _ _]

end Format

-- The parts that the visits of a byte move are those of the message's leaves.
theorem MessageFormat.Sound.partsAll_visits {m : MessageFormat} (h : m.Sound) (byte : Nat) :
    Visit.partsAll (m.visits byte) = Leaf.parts byte m.leaves := by
  have := Format.partsAll_skipVisits h 0 byte
    fun f hf => (h.field hf).partsAll_visits _ _ _
  rwa [Nat.sub_zero] at this

end Bitwire
