import Mathlib

/-!
# The order of names

Names are ordered by their characters.  This is the order of their bytes in UTF-8, because a
smaller character has smaller bytes: the first byte says how many follow, and the others are the
digits of the character.
-/

namespace Bitwire

/-- A name in UTF-8. -/
def nameBytes (name : String) : List UInt8 :=
  name.toUTF8.data.toList

/-! ## 1. Characters -/

-- The smaller of two numbers has the smaller digit where they first differ.
theorem digit_lt {a b : Nat} (h : a < b) (k : Nat) :
    a / k < b / k ∨ a / k = b / k ∧ a % k < b % k := by
  have ha := Nat.div_add_mod a k
  have hb := Nat.div_add_mod b k
  rcases Nat.lt_or_eq_of_le (Nat.div_le_div_right (c := k) h.le) with hlt | heq
  · exact Or.inl hlt
  · rw [heq] at ha
    exact Or.inr ⟨heq, by omega⟩

-- The digits that the bytes of a character hold, in base 64.
theorem digits_lt {a b : Nat} (h : a < b) :
    a / 262144 < b / 262144 ∨ a / 262144 = b / 262144 ∧ (a / 4096 % 64 < b / 4096 % 64 ∨
      a / 4096 % 64 = b / 4096 % 64 ∧ (a / 64 % 64 < b / 64 % 64 ∨
        a / 64 % 64 = b / 64 % 64 ∧ a % 64 < b % 64)) := by
  have hlast := digit_lt h 64
  have hthird : a / 64 < b / 64 → _ := fun h => digit_lt h 64
  have hsecond : a / 4096 < b / 4096 → _ := fun h => digit_lt h 64
  rw [Nat.div_div_eq_div_mul, Nat.div_div_eq_div_mul] at hthird hsecond
  omega

-- Two different characters are told apart by their bytes, whatever follows.
theorem utf8EncodeChar_append_lt {c d : Char} (h : c < d) (xs ys : List UInt8) :
    String.utf8EncodeChar c ++ xs < String.utf8EncodeChar d ++ ys := by
  have hlt : c.val.toNat < d.val.toNat := UInt32.lt_iff_toNat_lt.mp h
  have hbound : d.val.toNat < 0x110000 := by
    have hvalid := d.valid
    rw [UInt32.isValidChar, Nat.isValidChar] at hvalid
    omega
  have hdigits := digits_lt hlt
  rw [String.utf8EncodeChar, String.utf8EncodeChar]
  generalize c.val.toNat = a at *
  generalize d.val.toNat = b at *
  -- one case for each two lengths; the number of bytes grows with the character
  split_ifs
  all_goals
    simp only [List.cons_append, List.nil_append, List.cons_lt_cons_iff, UInt8.lt_iff_toNat_lt,
      ← UInt8.toNat_inj, UInt8.toNat_ofNat']
    simp (disch := omega) only [Nat.mod_eq_of_lt]
    omega

/-! ## 2. Names -/

theorem flatMap_utf8EncodeChar_lt {cs ds : List Char} (h : cs < ds) :
    cs.flatMap String.utf8EncodeChar < ds.flatMap String.utf8EncodeChar := by
  induction h with
  | @nil d ds =>
    rw [List.flatMap_nil, List.flatMap_cons]
    cases hbytes : String.utf8EncodeChar d with
    | nil =>
      have hlen := String.length_utf8EncodeChar d
      rw [hbytes, List.length_nil] at hlen
      exact absurd d.utf8Size_pos (by omega)
    | cons b rest => exact List.nil_lt_cons _ _
  | rel hlt =>
    rw [List.flatMap_cons, List.flatMap_cons]
    exact utf8EncodeChar_append_lt hlt _ _
  | cons _ ih =>
    rw [List.flatMap_cons, List.flatMap_cons]
    exact List.append_left_lt ih

theorem nameBytes_eq (name : String) :
    nameBytes name = name.toList.flatMap String.utf8EncodeChar := by
  rw [nameBytes, String.toUTF8_eq_toByteArray, ← String.utf8Encode_toList, List.utf8Encode,
    List.data_toByteArray]

/-- Names are in the order of their bytes. -/
theorem nameBytes_lt_iff {a b : String} : nameBytes a < nameBytes b ↔ a < b := by
  have hmono : ∀ {a b : String}, a < b → nameBytes a < nameBytes b := by
    intro a b h
    rw [nameBytes_eq, nameBytes_eq]
    exact flatMap_utf8EncodeChar_lt (String.lt_iff_toList_lt.mp h)
  refine ⟨fun h => ?_, hmono⟩
  rcases lt_trichotomy a b with hlt | rfl | hgt
  · exact hlt
  · exact absurd h (List.lt_irrefl _)
  · exact absurd h (List.lt_asymm (hmono hgt))

end Bitwire
