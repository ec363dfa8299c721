import Bitwire.Bisect
import Mathlib

/-!
# What bisection finds

On a range that is split into a front where the test holds and a back where it fails, bisection
answers the length of the front.  The tables of the codec are split that way by every bound, since
they are sorted.
-/

namespace Bitwire.Bisect

/-- Halving a range that is split at `n` ends at `n`. -/
theorem search_eq {test : Nat → Bool} {lo hi n : Nat} (hlo : lo ≤ n) (hhi : n ≤ hi)
    (hfront : ∀ i, lo ≤ i → i < n → test i = true)
    (hback : ∀ i, n ≤ i → i < hi → test i = false) : search test lo hi = n := by
  fun_induction search test lo hi with
  | case1 lo hi hlt mid htest ih =>
    -- the middle passes, so it lies in the front
    have hmid : mid < n := by
      by_contra hge
      rw [hback mid (by omega) (by omega)] at htest
      exact Bool.false_ne_true htest
    exact ih hmid hhi (fun i hi' hn => hfront i (by omega) hn) hback
  | case2 lo hi hlt mid htest ih =>
    have hmid : n ≤ mid := by
      by_contra hlt'
      exact htest (hfront mid (by omega) (by omega))
    exact ih hlo hmid hfront (fun i hn hi' => hback i hn (by omega))
  | case3 lo hi hge => omega

/-- A table whose front passes a test, and whose back does not, is split where the front ends. -/
theorem partitionPoint_append {α : Type} {test : α → Bool} {front back : List α}
    (hfront : ∀ a ∈ front, test a = true) (hback : ∀ a ∈ back, test a = false) :
    partitionPoint (front ++ back).toArray test = front.length := by
  apply search_eq (Nat.zero_le _)
  · simp only [List.size_toArray, List.length_append]
    omega
  · intro i _ hi
    rw [List.getElem?_toArray, List.getElem?_append_left hi, List.getElem?_eq_getElem hi]
    exact hfront _ (List.getElem_mem hi)
  · intro i hn hi
    have hi' : i - front.length < back.length := by
      simp only [List.size_toArray, List.length_append] at hi
      omega
    rw [List.getElem?_toArray, List.getElem?_append_right hn, List.getElem?_eq_getElem hi']
    exact hback _ (List.getElem_mem hi')

section

variable {α κ : Type} [LE κ] [DecidableLE κ] [DecidableEq κ] [Std.IsLinearOrder κ]

omit [DecidableEq κ] in
-- Sorting puts the entries of a table in ascending order of their keys.
theorem pairwise_mergeSort (key : α → κ) (table : List α) :
    (table.mergeSort fun a b => decide (key a ≤ key b)).Pairwise fun a b => key a ≤ key b := by
  refine List.Pairwise.imp of_decide_eq_true (List.pairwise_mergeSort ?_ ?_ table)
  · intro a b c hab hbc
    exact decide_eq_true (Std.le_trans (of_decide_eq_true hab) (of_decide_eq_true hbc))
  · intro a b
    rw [Bool.or_eq_true, decide_eq_true_iff, decide_eq_true_iff]
    exact Std.le_total

-- In a table whose keys ascend, an entry is found by its key.
theorem indexOf?_append_cons {key : α → κ} {front back : List α} {a : α}
    (hfront : ∀ b ∈ front, key b ≤ key a) (hback : ∀ b ∈ back, ¬ key b ≤ key a) :
    indexOf? (front ++ a :: back).toArray key (key a) = some front.length := by
  have hsplit : partitionPoint (front ++ a :: back).toArray (fun b => decide (key b ≤ key a)) =
      front.length + 1 := by
    have hupto : ∀ b ∈ front ++ [a], decide (key b ≤ key a) = true := by
      intro b hb
      rcases List.mem_append.mp hb with hb | hb
      · exact decide_eq_true (hfront b hb)
      · rw [List.mem_singleton.mp hb]
        exact decide_eq_true (Std.le_refl _)
    have hbehind : ∀ b ∈ back, decide (key b ≤ key a) = false :=
      fun b hb => decide_eq_false (hback b hb)
    have h := partitionPoint_append hupto hbehind
    rwa [List.append_assoc, List.singleton_append, List.length_append, List.length_singleton] at h
  have hget : (front ++ a :: back).toArray[front.length]? = some a := by
    rw [List.getElem?_toArray, List.getElem?_append_right (Nat.le_refl _), Nat.sub_self,
      List.getElem?_cons_zero]
  simp only [indexOf?, hsplit, hget, if_true]

omit [Std.IsLinearOrder κ] in
-- What is found has the key that was sought.
theorem of_indexOf? {table : Array α} {key : α → κ} {target : κ} {i : Nat}
    (h : indexOf? table key target = some i) : ∃ a, table[i]? = some a ∧ key a = target := by
  unfold indexOf? at h
  split at h
  · exact absurd h (by simp)
  next j _ =>
    split at h
    next a ha =>
      split at h
      next hkey =>
        obtain rfl := Option.some.inj h
        exact ⟨a, ha, hkey⟩
      next => exact absurd h (by simp)
    next => exact absurd h (by simp)

omit [DecidableEq κ] in
-- A sorted table is split by every bound.
theorem exists_split_at {key : α → κ} {xs : List α}
    (hsorted : xs.Pairwise fun a b => key a ≤ key b) (bound : κ) :
    ∃ front back, xs = front ++ back ∧ (∀ a ∈ front, key a ≤ bound) ∧
      ∀ a ∈ back, ¬ key a ≤ bound := by
  induction xs with
  | nil => exact ⟨[], [], rfl, by simp, by simp⟩
  | cons x rest ih =>
    obtain ⟨hx, hrest⟩ := List.pairwise_cons.mp hsorted
    by_cases hle : key x ≤ bound
    · obtain ⟨front, back, rfl, hfront, hback⟩ := ih hrest
      exact ⟨x :: front, back, rfl, by simpa [hle] using hfront, hback⟩
    · refine ⟨[], x :: rest, rfl, by simp, ?_⟩
      rw [List.forall_mem_cons]
      exact ⟨hle, fun a ha hbound => hle (Std.le_trans (hx a ha) hbound)⟩

-- In a sorted table, repetitions included, every key is found.
theorem isSome_indexOf?_iff {key : α → κ} {xs : List α}
    (hsorted : xs.Pairwise fun a b => key a ≤ key b) {target : κ} :
    (indexOf? xs.toArray key target).isSome = true ↔ ∃ a ∈ xs, key a = target := by
  constructor
  · intro h
    obtain ⟨i, hi⟩ := Option.isSome_iff_exists.mp h
    obtain ⟨a, ha, hkey⟩ := of_indexOf? hi
    rw [List.getElem?_toArray] at ha
    exact ⟨a, List.mem_of_getElem? ha, hkey⟩
  · rintro ⟨a, ha, rfl⟩
    obtain ⟨front, back, rfl, hfront, hback⟩ := exists_split_at hsorted (key a)
    have hmem : a ∈ front := by
      rcases List.mem_append.mp ha with ha | ha
      · exact ha
      · exact absurd (Std.le_refl _) (hback a ha)
    obtain ⟨init, last, rfl⟩ : ∃ init last, front = init ++ [last] := by
      rcases List.eq_nil_or_concat front with rfl | ⟨init, last, rfl⟩
      · exact absurd hmem List.not_mem_nil
      · exact ⟨init, last, List.concat_eq_append⟩
    -- the last entry up to the bound has the key
    have hkey : key last = key a := by
      refine Std.le_antisymm (hfront last (by simp)) ?_
      rcases List.mem_append.mp hmem with hmem | hmem
      · exact (List.pairwise_append.mp (List.pairwise_append.mp hsorted).1).2.2 a hmem last (by simp)
      · rw [List.mem_singleton.mp hmem]
        exact Std.le_refl _
    rw [List.append_assoc, List.singleton_append, ← hkey, indexOf?_append_cons]
    · rfl
    · exact fun b hb => hkey ▸ hfront b (List.mem_append_left _ hb)
    · exact fun b hb => hkey ▸ hback b hb

-- In a table whose keys ascend, bisection finds the entry that a walk over the table finds.
theorem find?_of_ascending {key : α → κ} {xs : List α}
    (h : xs.Pairwise fun a b => ¬ key b ≤ key a) (target : κ) :
    find? xs.toArray key target = xs.find? (key · == target) := by
  cases hfind : xs.find? (key · == target) with
  | some a =>
    obtain ⟨hkey, front, back, rfl, -⟩ := List.find?_eq_some_iff_append.mp hfind
    obtain rfl := eq_of_beq hkey
    obtain ⟨-, hback, hfront⟩ := List.pairwise_append.mp h
    have hindex : indexOf? (front ++ a :: back).toArray key (key a) = some front.length := by
      apply indexOf?_append_cons
      · exact fun b hb => Std.le_of_not_ge (hfront b hb a List.mem_cons_self)
      · exact (List.pairwise_cons.mp hback).1
    rw [find?, hindex, Option.bind_some, List.getElem?_toArray,
      List.getElem?_append_right (Nat.le_refl _), Nat.sub_self, List.getElem?_cons_zero]
  | none =>
    cases hindex : indexOf? xs.toArray key target with
    | none => rw [find?, hindex, Option.bind_none]
    | some i =>
      obtain ⟨a, ha, hkey⟩ := of_indexOf? hindex
      rw [List.getElem?_toArray] at ha
      have hno := List.find?_eq_none.mp hfind a (List.mem_of_getElem? ha)
      exact absurd (beq_iff_eq.mpr hkey) hno

omit [DecidableLE κ] [DecidableEq κ] in
-- Where keys differ, entries have one ascending order.
theorem eq_of_perm {key : α → κ} {xs ys : List α} (hperm : ys.Perm xs)
    (hkeys : (xs.map key).Nodup) (hys : ys.Pairwise fun a b => key a ≤ key b)
    (hxs : xs.Pairwise fun a b => key a ≤ key b) : ys = xs := by
  apply List.Perm.eq_of_pairwise _ hys hxs hperm
  intro a b ha hb hab hba
  exact List.inj_on_of_nodup_map hkeys (hperm.mem_iff.mp ha) hb (Std.le_antisymm hab hba)

end

end Bitwire.Bisect
