import Bitwire.Record.Value
import Mathlib

/-!
# Records as ordered lists

A record made of entries with different names holds exactly these entries, in ascending order of
the names.  The order in which they are given does not matter.
-/

namespace Bitwire

/-! ## 1. Entries by name -/

section

variable {κ ν : Type} [BEq κ] [LawfulBEq κ] {entries : List (κ × ν)} {name : κ} {value : ν}

theorem mem_of_lookup (h : entries.lookup name = some value) : (name, value) ∈ entries := by
  obtain ⟨front, back, rfl, -⟩ := List.lookup_eq_some_iff.mp h
  exact List.mem_append_right _ List.mem_cons_self

-- Among different names an entry is found.
theorem lookup_of_mem (h : (entries.map Prod.fst).Nodup) (hmem : (name, value) ∈ entries) :
    entries.lookup name = some value := by
  obtain ⟨front, back, rfl⟩ := List.append_of_mem hmem
  refine List.lookup_eq_some_iff.mpr ⟨front, back, rfl, fun entry hentry => ?_⟩
  rw [List.map_append, List.map_cons] at h
  have hne := (List.nodup_append.mp h).2.2 entry.1 (List.mem_map_of_mem hentry) name
    List.mem_cons_self
  exact bne_iff_ne.mpr hne.symm

end

namespace Record

/-- Records whose names ascend. -/
def Ordered (r : Record) : Prop :=
  r.Pairwise fun a b => a.1 < b.1

instance (r : Record) : Decidable r.Ordered :=
  inferInstanceAs (Decidable (r.Pairwise fun a b => a.1 < b.1))

/-! ## 2. One entry -/

theorem mem_insert {name : String} {value : Value} {r : Record} {entry : String × Value}
    (h : entry ∈ r.insert name value) : entry = (name, value) ∨ entry ∈ r := by
  induction r with
  | nil => exact Or.inl (List.mem_singleton.mp h)
  | cons first rest ih =>
    rw [insert] at h
    split at h
    · exact List.mem_cons.mp h
    · split at h
      · exact (List.mem_cons.mp h).imp_right (List.mem_cons_of_mem _)
      · rcases List.mem_cons.mp h with h | h
        · exact Or.inr (h ▸ List.mem_cons_self)
        · exact (ih h).imp_right (List.mem_cons_of_mem _)

theorem Ordered.insert {r : Record} (h : r.Ordered) (name : String) (value : Value) :
    (r.insert name value).Ordered := by
  induction r with
  | nil => exact List.pairwise_singleton _ _
  | cons first rest ih =>
    obtain ⟨hfirst, hrest⟩ := List.pairwise_cons.mp h
    rw [Record.insert]
    split
    next hlt =>
      refine List.pairwise_cons.mpr ⟨List.forall_mem_cons.mpr ⟨hlt, fun entry hentry => ?_⟩, h⟩
      exact lt_trans hlt (hfirst entry hentry)
    next hnlt =>
      split
      next heq => exact List.pairwise_cons.mpr ⟨heq ▸ hfirst, hrest⟩
      next hne =>
        refine List.pairwise_cons.mpr ⟨fun entry hentry => ?_, ih hrest⟩
        rcases mem_insert hentry with rfl | hentry
        · exact lt_of_le_of_ne (not_lt.mp hnlt) (Ne.symm hne)
        · exact hfirst entry hentry

-- An entry of a new name is added to the others.
theorem insert_perm {name : String} {r : Record} (h : name ∉ r.map Prod.fst) (value : Value) :
    (r.insert name value).Perm ((name, value) :: r) := by
  induction r with
  | nil => exact List.Perm.refl _
  | cons first rest ih =>
    rw [List.map_cons, List.mem_cons, not_or] at h
    rw [insert]
    split
    next => exact List.Perm.refl _
    next =>
      rw [if_neg h.1]
      exact ((ih h.2).cons first).trans (List.Perm.swap _ _ _)

/-! ## 3. Several entries -/

theorem Ordered.foldl_insert {r : Record} (h : r.Ordered) (entries : List (String × Value)) :
    Ordered (entries.foldl (fun r (name, value) => r.insert name value) r) := by
  induction entries generalizing r with
  | nil => exact h
  | cons entry rest ih => exact ih (h.insert entry.1 entry.2)

theorem foldl_insert_perm {entries : List (String × Value)} {r : Record}
    (h : ((r ++ entries).map Prod.fst).Nodup) :
    (entries.foldl (fun r (name, value) => r.insert name value) r).Perm (r ++ entries) := by
  induction entries generalizing r with
  | nil => rw [List.append_nil]; exact List.Perm.refl _
  | cons entry rest ih =>
    have hmiddle : (r ++ entry :: rest).Perm (entry :: r ++ rest) := List.perm_middle
    have hfresh : entry.1 ∉ r.map Prod.fst := by
      have := (hmiddle.map Prod.fst).nodup_iff.mp h
      rw [List.cons_append, List.map_cons, List.map_append] at this
      exact fun hmem => (List.nodup_cons.mp this).1 (List.mem_append_left _ hmem)
    have hperm : (r.insert entry.1 entry.2 ++ rest).Perm (entry :: r ++ rest) :=
      (insert_perm hfresh entry.2).append_right rest
    have hnodup : ((r.insert entry.1 entry.2 ++ rest).map Prod.fst).Nodup :=
      ((hperm.trans hmiddle.symm).map Prod.fst).nodup_iff.mpr h
    exact (ih hnodup).trans (hperm.trans hmiddle.symm)

theorem ofList_ordered (entries : List (String × Value)) : (ofList entries).Ordered :=
  Ordered.foldl_insert List.Pairwise.nil entries

-- Entries of different names are all kept.
theorem ofList_perm {entries : List (String × Value)} (h : (entries.map Prod.fst).Nodup) :
    (ofList entries).Perm entries :=
  foldl_insert_perm (r := []) h

-- Ordered records with the same entries are equal.
theorem Ordered.eq_of_perm {r r' : Record} (h : r.Ordered) (h' : r'.Ordered) (hperm : r.Perm r') :
    r = r' :=
  hperm.eq_of_pairwise (fun _ _ _ _ hab hba => absurd hba (lt_asymm hab)) h h'

-- The order in which entries are given does not matter.
theorem ofList_eq_of_perm {xs ys : List (String × Value)} (h : (xs.map Prod.fst).Nodup)
    (hperm : xs.Perm ys) : ofList xs = ofList ys :=
  (ofList_ordered xs).eq_of_perm (ofList_ordered ys)
    ((ofList_perm h).trans (hperm.trans (ofList_perm ((hperm.map Prod.fst).nodup_iff.mp h)).symm))

end Record

end Bitwire
