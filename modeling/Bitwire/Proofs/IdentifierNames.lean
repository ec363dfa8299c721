import Bitwire.Proofs.SourceUnits

/-!
# Identifiers are names

An identifier that is made of a name can be taken for a name: no letter has a capital or small form
that ends a name, since these forms are letters again.
-/

namespace Bitwire

open SourceReader

/-! ## 1. Letter case -/

-- What ends a name comes before the letters.
theorem SourceReader.endsName_ofNat {n : Nat} (h : 0x41 ≤ n) : endsName (Char.ofNat n) = false := by
  have hends : ∀ c ∈ ['\n', ' ', '(', ':', ';'], 0 < c.toNat ∧ c.toNat < 0x41 := by simp
  rw [endsName, List.contains_eq_mem, decide_eq_false_iff_not]
  intro hmem
  have hlt := hends _ hmem
  rw [Char.toNat_ofNat] at hlt
  split_ifs at hlt <;> omega

namespace Text

-- The tables of letter case lead to letters.
theorem endsName_mapChar {runs : Array MappedRun} {expansions : Array (Nat × List Nat)}
    (hruns : ∀ m ∈ runs.toList, 0x41 ≤ m.target)
    (hexpansions : ∀ e ∈ expansions.toList, ∀ target ∈ e.2, 0x41 ≤ target) {c : Char}
    (hc : endsName c = false) : ∀ d ∈ mapChar runs expansions c, endsName d = false := by
  intro d hd
  rw [mapChar] at hd
  split at hd
  next targets hfind =>
    obtain ⟨target, htarget, rfl⟩ := List.mem_map.mp hd
    obtain ⟨i, -, hi⟩ := Option.bind_eq_some_iff.mp hfind
    exact endsName_ofNat (hexpansions _ (Array.mem_of_getElem? hi).val target htarget)
  next =>
    split at hd
    next m hm =>
      have hmem : m ∈ runs := by
        rw [candidate?] at hm
        split at hm
        next => cases hm
        next => exact Array.mem_of_getElem? hm
      split_ifs at hd
      · rw [List.mem_singleton.mp hd]
        exact endsName_ofNat ((hruns m hmem.val).trans (Nat.le_add_right _ _))
      · rwa [List.mem_singleton.mp hd]
    next => rwa [List.mem_singleton.mp hd]

theorem endsName_toLower {c : Char} (hc : endsName c = false) :
    ∀ d ∈ toLower c, endsName d = false := by
  intro d hd
  rw [toLower] at hd
  split_ifs at hd with hascii
  · rw [List.mem_singleton.mp hd]
    by_cases hupper : c.isUpper = true
    · have hletter : 0x41 ≤ c.toNat := (of_decide_eq_true hupper).1
      rw [Char.toLower_eq_of_isUpper hupper]
      exact endsName_ofNat (by omega)
    · rwa [Char.toLower_eq_of_not_isUpper hupper]
  · exact endsName_mapChar (by decide +kernel) (by decide +kernel) hc d hd

theorem endsName_toUpper {c : Char} (hc : endsName c = false) :
    ∀ d ∈ toUpper c, endsName d = false := by
  intro d hd
  rw [toUpper] at hd
  split_ifs at hd with hascii
  · rw [List.mem_singleton.mp hd]
    by_cases hlower : c.isLower = true
    · have hletter : 0x61 ≤ c.toNat := by
        rw [Char.isLower, Bool.and_eq_true, decide_eq_true_eq] at hlower
        exact hlower.1
      rw [Char.toUpper_eq_of_isLower hlower]
      exact endsName_ofNat (by omega)
    · rwa [Char.toUpper_eq_of_not_isLower hlower]
  · exact endsName_mapChar (by decide +kernel) (by decide +kernel) hc d hd

end Text

/-! ## 2. Identifiers -/

namespace Identifier

theorem endsName_snakeChars {cs : List Char} (h : ∀ c ∈ cs, endsName c = false)
    (before : Option Char) (underscore : Bool) :
    ∀ c ∈ snakeChars cs before underscore, endsName c = false := by
  induction cs generalizing before underscore with
  | nil => exact List.forall_mem_nil _
  | cons c rest ih =>
    obtain ⟨hc, hrest⟩ := List.forall_mem_cons.mp h
    have hunderscore : endsName '_' = false := by decide
    rw [snakeChars]
    split_ifs
    · exact List.forall_mem_cons.mpr ⟨hunderscore, ih hrest _ _⟩
    · exact List.forall_mem_cons.mpr ⟨hc, ih hrest _ _⟩
    · exact List.forall_mem_cons.mpr ⟨hunderscore,
        List.forall_mem_append.mpr ⟨Text.endsName_toLower hc, ih hrest _ _⟩⟩
    · exact List.forall_mem_append.mpr ⟨Text.endsName_toLower hc, ih hrest _ _⟩

theorem isName_snakeCase {name : String} (h : IsName name) : IsName (snakeCase name) := by
  rw [IsName, snakeCase, String.toList_ofList]
  exact endsName_snakeChars h none false

theorem isName_upperSnakeCase {name : String} (h : IsName name) :
    IsName (upperSnakeCase name) := by
  rw [IsName, upperSnakeCase, String.toList_ofList]
  intro c hc
  obtain ⟨small, hsmall, hc⟩ := List.mem_flatMap.mp hc
  exact Text.endsName_toUpper (isName_snakeCase h small hsmall) c hc

end Identifier

end Bitwire
