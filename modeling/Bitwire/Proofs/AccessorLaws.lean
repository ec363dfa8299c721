import Bitwire.Proofs.ReachableMessages
import Bitwire.Proofs.Simulation
import Bitwire.Proofs.StoredAddresses

/-!
# Laws of the accessor of dynamic messages

A scalar is read as its pattern, moved and cut to a byte, and a byte that is added to it changes its
pattern by an `or` and nothing else in the whole message.  A place that addresses no scalar reads as
zero and cannot be changed.  Entering nested messages for reading and for writing succeeds at the
same places: those where the format has a message.
-/

namespace Bitwire

/-! ## 1. Arithmetic -/

-- A byte is determined by its eight bits.
theorem toNat_eq_mod_of_testBit {b : UInt8} {n : Nat}
    (h : ∀ i < 8, b.toNat.testBit i = n.testBit i) : b.toNat = n % 256 := by
  apply Nat.eq_of_testBit_eq
  intro i
  rw [show 256 = 2 ^ 8 from rfl, Nat.testBit_mod_two_pow]
  by_cases hi : i < 8
  · rw [h i hi, decide_eq_true hi, Bool.true_and]
  · rw [testBit_uint8_of_le b (by omega), decide_eq_false hi, Bool.false_and]

/-- A byte of a pattern is the pattern divided by a power of two, without the fraction and modulo
256. -/
theorem Pattern.toNat_byteAt (p : UInt64) (shift : Int) :
    ((byteAt p shift).toNat : Int) = ⌊(p.toNat : ℚ) * 2 ^ (-shift)⌋ % 256 := by
  obtain ⟨k, rfl | rfl⟩ := shift.eq_nat_or_neg
  · have hfloor : ⌊(p.toNat : ℚ) * 2 ^ (-(k : Int))⌋ = ((p.toNat / 2 ^ k : Nat) : Int) := by
      rw [zpow_neg, zpow_natCast, ← div_eq_mul_inv]
      exact_mod_cast Rat.floor_natCast_div_natCast p.toNat (2 ^ k)
    have hbyte : (byteAt p k).toNat = p.toNat / 2 ^ k % 256 := by
      apply toNat_eq_mod_of_testBit
      intro i hi
      rw [testBit_byteAt p _ hi, decide_eq_true (by omega), Bool.true_and, Nat.testBit_div_two_pow,
        show ((i : Int) + k).toNat = i + k by omega]
    rw [hfloor, hbyte, Int.natCast_emod]
    rfl
  · have hfloor : ⌊(p.toNat : ℚ) * 2 ^ (-(-(k : Int)))⌋ = ((p.toNat * 2 ^ k : Nat) : Int) := by
      rw [neg_neg, zpow_natCast]
      exact_mod_cast Int.floor_natCast (R := ℚ) (p.toNat * 2 ^ k)
    have hbyte : (byteAt p (-k)).toNat = p.toNat * 2 ^ k % 256 := by
      apply toNat_eq_mod_of_testBit
      intro i hi
      rw [testBit_byteAt p _ hi, Nat.testBit_mul_two_pow]
      by_cases hk : k ≤ i
      · rw [decide_eq_true hk, decide_eq_true (by omega), show ((i : Int) + -k).toNat = i - k by omega]
      · rw [decide_eq_false hk, decide_eq_false (by omega), Bool.false_and, Bool.false_and]
    rw [hfloor, hbyte, Int.natCast_emod]
    rfl

namespace DynamicMessage

/-- Adding a byte to an integer or an enum is an `or`, cut to the width. -/
theorem toNat_addByte {f : Format} (hs : f.isScalar = true) (hf : f ≠ .bool) (hw : f.width ≤ 64)
    (p : UInt64) (shift : Nat) (b : UInt8) :
    (addByte f p shift b).toNat = (p.toNat ||| b.toNat * 2 ^ shift) % 2 ^ f.width := by
  apply Nat.eq_of_testBit_eq
  intro k
  rw [testBit_addByte hs hf, Nat.testBit_mod_two_pow, Nat.testBit_or, Nat.testBit_mul_two_pow]
  by_cases hk : k < f.width
  · rw [decide_eq_decide.mpr (by omega : k < 64 ∧ shift ≤ k ↔ shift ≤ k)]
  · rw [decide_eq_false hk, Bool.false_and, Bool.false_and]

/-! ## 2. One message -/

theorem setByte_of_leaf {msg : DynamicMessage} {place : Place} {p : UInt64} {g : Format}
    (hloc : msg.locate? place = some (.leaf p, g)) (shift : Nat) (b : UInt8) :
    msg.setByte place shift b = msg.replace place (.leaf (addByte g p shift b)) := by
  unfold setByte
  rw [hloc]

theorem setByte_of_no_leaf {msg : DynamicMessage} {place : Place}
    (hno : ∀ p g, msg.locate? place ≠ some (.leaf p, g))
    (shift : Nat) (b : UInt8) : msg.setByte place shift b = msg := by
  unfold setByte
  split
  next p g hloc => exact absurd hloc (hno p g)
  next => rfl

section

variable {msg : DynamicMessage} (hfit : msg.Fits) (h : msg.format.Orderly)

include hfit h

/-- A place addresses a scalar, and the message holds a pattern there; or it addresses none, and no
leaf is found there. -/
theorem Fits.leaf_cases (place : Place) :
    (∃ g p, msg.format.formatAt? place = some g ∧ g.isScalar = true ∧
      msg.nodeAt? place = some (.leaf p) ∧ msg.locate? place = some (.leaf p, g) ∧
      p.toNat < 2 ^ g.width) ∨
    ((∀ g, msg.format.formatAt? place = some g → g.isScalar = false) ∧
      (msg.nodeAt? place).bind Node.pattern? = none ∧
      ∀ p g, msg.locate? place ≠ some (.leaf p, g)) := by
  obtain ⟨hat, hnode, hloc⟩ | ⟨g, node, hat, hnode, hloc, hfits⟩ := hfit.place_cases h place
  · refine .inr ⟨fun g hg => ?_, by rw [hnode]; rfl, fun p g hp => ?_⟩
    · rw [hat] at hg
      cases hg
    · rw [hloc] at hp
      cases hp
  · by_cases hs : g.isScalar = true
    · obtain ⟨p, rfl, hp⟩ := hfits.exists_leaf hs
      exact .inl ⟨g, p, hat, hs, hnode, hloc, hp⟩
    · -- an array or a message is not stored as a leaf
      have hleaf : ∀ p, node ≠ .leaf p := by
        rintro p rfl
        cases g with
        | array | message => exact hfits
        | bool | int | uint | enum => exact hs rfl
      refine .inr ⟨fun g' hg' => ?_, ?_, fun p g' hp => ?_⟩
      · rw [hat] at hg'
        exact Option.some.inj hg' ▸ Bool.not_eq_true _ ▸ hs
      · rw [hnode]
        cases node with
        | leaf p => exact absurd rfl (hleaf p)
        | array | message => rfl
      · rw [hloc] at hp
        exact hleaf p (Prod.mk.inj (Option.some.inj hp)).1

-- Whatever is seen of a message at other places than those of arrays is seen as before.
theorem Fits.nodeAt?_setByte_of_ne {β : Type} {view : Node → Option β}
    (hview : ∀ items, view (.array items) = none) {place place' : Place} (hne : place' ≠ place)
    (shift : Nat) (b : UInt8) :
    ((msg.setByte place shift b).nodeAt? place').bind view = (msg.nodeAt? place').bind view := by
  obtain ⟨g, p, -, hs, -, hloc, -⟩ | ⟨-, -, hno⟩ := hfit.leaf_cases h place
  · rw [setByte_of_leaf hloc]
    apply hfit.nodeAt?_replace_of_ne h hview hloc _ rfl rfl hne
    exact (Format.fits_leaf hs _).mpr (addByte_lt hs p shift b)
  · rw [setByte_of_no_leaf hno]

theorem Fits.nodeAt?_setByte {place : Place} {p : UInt64} {g : Format} (hs : g.isScalar = true)
    (hloc : msg.locate? place = some (.leaf p, g)) (shift : Nat) (b : UInt8) :
    (msg.setByte place shift b).nodeAt? place = some (.leaf (addByte g p shift b)) := by
  rw [setByte_of_leaf hloc]
  exact hfit.nodeAt?_replace h hloc ((Format.fits_leaf hs _).mpr (addByte_lt hs p shift b))

-- Adding a byte to a value leaves all nested messages as they are.
theorem Fits.childAt?_setByte (place place' : Place) (shift : Nat) (b : UInt8) :
    (msg.setByte place shift b).childAt? place' = msg.childAt? place' := by
  unfold childAt?
  by_cases heq : place' = place
  · subst heq
    obtain ⟨g, p, hat, hs, hnode, hloc, -⟩ | ⟨-, -, hno⟩ := hfit.leaf_cases h place'
    · rw [hfit.nodeAt?_setByte h hs hloc, hnode]
      rfl
    · rw [setByte_of_no_leaf hno]
  · exact hfit.nodeAt?_setByte_of_ne h (fun items => rfl) heq shift b

variable {place : Place} {child : DynamicMessage} (hchild : msg.childAt? place = some child)

include hchild

theorem Fits.locate?_of_childAt? :
    msg.locate? place = some (child.node, .message child.format) := by
  rw [← hfit.message?_eq_childAt? h] at hchild
  exact (hfit.of_message? hchild).1

variable {child' : DynamicMessage} (hformat : child'.format = child.format) (hfits : child'.Fits)

include hformat hfits

theorem Fits.nodeAt?_putMessage :
    (msg.putMessage place child').nodeAt? place = some child'.node := by
  unfold Fits at hfits
  rw [hformat] at hfits
  exact hfit.nodeAt?_replace h (hfit.locate?_of_childAt? h hchild) hfits

theorem Fits.nodeAt?_putMessage_of_ne {β : Type} {view : Node → Option β}
    (hview : ∀ items, view (.array items) = none) {place' : Place} (hne : place' ≠ place) :
    ((msg.putMessage place child').nodeAt? place').bind view = (msg.nodeAt? place').bind view := by
  unfold Fits at hfits
  rw [hformat] at hfits
  exact hfit.nodeAt?_replace_of_ne h hview (hfit.locate?_of_childAt? h hchild) hfits rfl rfl hne

theorem Fits.childAt?_putMessage : (msg.putMessage place child').childAt? place = some child' := by
  unfold childAt?
  rw [hfit.nodeAt?_putMessage h hchild hformat hfits]
  rfl

theorem Fits.childAt?_putMessage_of_ne {place' : Place} (hne : place' ≠ place) :
    (msg.putMessage place child').childAt? place' = msg.childAt? place' := by
  unfold childAt?
  exact hfit.nodeAt?_putMessage_of_ne h hchild hformat hfits (fun items => rfl) hne

end

/-! ## 3. Messages in messages -/

-- An action behind a trail reaches a message exactly if the trail enters one.
theorem act_eq (msg : DynamicMessage) (trail : List Place) (action : Action) :
    msg.act trail action =
      ((accessor.enter trail msg).run).map fun _ => within action.run trail msg := by
  unfold act
  induction trail generalizing msg with
  | nil => rfl
  | cons place rest ih =>
    rw [enterMut_cons, enter_cons]
    unfold within
    cases msg.message? place with
    | none => rfl
    | some child =>
      have hput := congrArg (Option.map (msg.putMessage place)) (ih child)
      rw [Option.map_map, Option.map_map] at hput
      rw [Option.bind_some, Option.bind_some, Option.map_map]
      exact hput

-- An action that leaves the nested message alone leaves the whole message alone.
theorem within_eq_self {change : DynamicMessage → DynamicMessage} {trail : List Place}
    {msg child : DynamicMessage} (henter : (accessor.enter trail msg).run = some child)
    (hchange : change child = child) : within change trail msg = msg := by
  induction trail generalizing msg with
  | nil =>
    obtain rfl := Option.some.inj henter
    exact hchange
  | cons place rest ih =>
    rw [enter_cons] at henter
    obtain ⟨inner, hinner, henter⟩ := Option.bind_eq_some_iff.mp henter
    unfold within
    rw [hinner]
    show msg.putMessage place (within change rest inner) = msg
    rw [ih henter]
    obtain ⟨_, hloc⟩ := message?_eq_some hinner
    exact replace_self hloc

section

variable {msg : DynamicMessage} (hfit : msg.Fits) (h : msg.format.Orderly)

include hfit h

-- A change behind a trail is seen behind the trail.
theorem Fits.leafAt?_within {change : DynamicMessage → DynamicMessage} (hkeeps : Keeps change)
    (trail : List Place) (place : Place) :
    (within change trail msg).leafAt? trail place =
      (descend? trail msg).bind fun child => ((change child).nodeAt? place).bind Node.pattern? := by
  induction trail generalizing msg with
  | nil => rfl
  | cons inner rest ih =>
    unfold within
    rw [hfit.message?_eq_childAt? h]
    show _ = ((msg.childAt? inner).bind (descend? rest)).bind _
    cases hchild : msg.childAt? inner with
    | none =>
      rw [leafAt?_cons]
      dsimp only
      rw [hchild]
      rfl
    | some child =>
      obtain ⟨-, hfit', h'⟩ := hfit.of_childAt? h hchild
      obtain ⟨hformat, hfits⟩ := keeps_within hkeeps rest child
      dsimp only
      rw [leafAt?_cons, hfit.childAt?_putMessage h hchild hformat (hfits hfit')]
      exact ih hfit' h'

/-- Adding a byte to a value leaves every other scalar of the whole message as it is. -/
theorem Fits.leafAt?_within_setByte_of_ne (trail : List Place) (place : Place) (shift : Nat)
    (b : UInt8) (trail' : List Place) (place' : Place)
    (hne : (trail', place') ≠ (trail, place)) :
    (within (·.setByte place shift b) trail msg).leafAt? trail' place' = msg.leafAt? trail' place' := by
  induction trail generalizing msg trail' with
  | nil =>
    show (msg.setByte place shift b).leafAt? trail' place' = _
    cases trail' with
    | nil =>
      apply hfit.nodeAt?_setByte_of_ne h fun items => rfl
      exact fun heq => hne (by rw [heq])
    | cons inner rest' => rw [leafAt?_cons, leafAt?_cons, hfit.childAt?_setByte h]
  | cons inner rest ih =>
    unfold within
    rw [hfit.message?_eq_childAt? h]
    cases hchild : msg.childAt? inner with
    | none => rfl
    | some child =>
      obtain ⟨-, hfit', h'⟩ := hfit.of_childAt? h hchild
      obtain ⟨hformat, hfits⟩ := keeps_within (keeps_setByte place shift b) rest child
      dsimp only
      cases trail' with
      | nil =>
        by_cases heq : place' = inner
        · -- a nested message is no scalar, before and after
          subst heq
          show ((msg.putMessage place' _).nodeAt? place').bind _ = (msg.nodeAt? place').bind _
          rw [hfit.nodeAt?_putMessage h hchild hformat (hfits hfit'), nodeAt?_of_childAt? hchild]
          rfl
        · exact hfit.nodeAt?_putMessage_of_ne h hchild hformat (hfits hfit') (fun items => rfl) heq
      | cons inner' rest' =>
        rw [leafAt?_cons, leafAt?_cons]
        by_cases heq : inner' = inner
        · subst heq
          rw [hfit.childAt?_putMessage h hchild hformat (hfits hfit'), hchild]
          apply ih hfit' h'
          exact fun htail => hne (by rw [(Prod.mk.inj htail).1, (Prod.mk.inj htail).2])
        · rw [hfit.childAt?_putMessage_of_ne h hchild hformat (hfits hfit') heq]

/-! ## 4. The laws -/

/-- A trail enters nothing, or the message that it leads to, which has the format that the trail
leads to. -/
theorem Fits.enter_cases (trail : List Place) :
    (msg.format.enter? trail = none ∧ (accessor.enter trail msg).run = none) ∨
    ∃ child, msg.format.enter? trail = some child.format ∧
      (accessor.enter trail msg).run = some child ∧ descend? trail msg = some child ∧
      child.Fits ∧ child.format.Orderly := by
  obtain ⟨hformat, henter, hall⟩ := hfit.descend?_eq h trail
  rw [henter, ← hformat]
  cases hchild : descend? trail msg with
  | none => exact .inl ⟨rfl, rfl⟩
  | some child => exact .inr ⟨child, rfl, rfl, rfl, hall child hchild⟩

end

-- A scalar is read as its pattern, moved or cut.
theorem read_of_leaf {msg : DynamicMessage} {place : Place} {p : UInt64} {g : Format}
    (hloc : msg.locate? place = some (.leaf p, g)) :
    (∀ shift, ((accessor.getByte msg place shift).run.toNat : Int) =
      ⌊(p.toNat : ℚ) * 2 ^ (-shift)⌋ % 256) ∧
    ∀ n, (accessor.readPattern msg place n).run.toNat = p.toNat % 2 ^ n := by
  have hget : ∀ shift, accessor.getByte msg place shift = pure (Pattern.byteAt p shift) := by
    intro shift
    show msg.getByte place shift = _
    rw [getByte_eq, pattern?_of hloc]
    rfl
  constructor
  · intro shift
    rw [hget]
    exact Pattern.toNat_byteAt p shift
  · intro n
    rw [Accessor.readPattern_eq hget]
    exact Pattern.toNat_truncate p n

theorem getByte_of_no_leaf {msg : DynamicMessage} {place : Place}
    (hno : ∀ p g, msg.locate? place ≠ some (.leaf p, g)) (shift : Int) :
    (accessor.getByte msg place shift).run = 0 := by
  show msg.getByte place shift = 0
  unfold getByte
  split
  next p g hloc => exact absurd hloc (hno p g)
  next => rfl

-- Adding a byte to a scalar behind a trail changes the pattern of this scalar and no other.
theorem Fits.within_setByte {msg child : DynamicMessage} (hfit : msg.Fits)
    (h : msg.format.Orderly) {trail : List Place} (hdescend : descend? trail msg = some child)
    (hfit' : child.Fits) (h' : child.format.Orderly) {place : Place} {g : Format} {p : UInt64}
    (hs : g.isScalar = true) (hw : g.width ≤ 64)
    (hloc : child.locate? place = some (.leaf p, g)) (shift : Nat) (b : UInt8) :
    ∃ msg' q, within (·.setByte place shift b) trail msg = msg' ∧ msg'.format = msg.format ∧
      msg'.Fits ∧ msg'.leafAt? trail place = some q ∧
      (g = .bool → q = if b = 0 then 0 else 1) ∧
      (g ≠ .bool → q.toNat = (p.toNat ||| b.toNat * 2 ^ shift) % 2 ^ g.width) ∧
      ∀ trail' place', (trail', place') ≠ (trail, place) →
        msg'.leafAt? trail' place' = msg.leafAt? trail' place' := by
  have hkeeps := keeps_setByte place shift b
  obtain ⟨hformat, hfits⟩ := keeps_within hkeeps trail msg
  refine ⟨_, addByte g p shift b, rfl, hformat, hfits hfit, ?_, ?_, fun hbool => ?_, ?_⟩
  · rw [hfit.leafAt?_within h hkeeps, hdescend, Option.bind_some, hfit'.nodeAt?_setByte h' hs hloc]
    rfl
  · rintro rfl
    rfl
  · exact toNat_addByte hs hbool hw p shift b
  · exact hfit.leafAt?_within_setByte_of_ne h trail place shift b

end DynamicMessage

end Bitwire
