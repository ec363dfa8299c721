import Bitwire.Source.Identifier
import Mathlib

/-!
# Snake case

Written in snake case, a name of ASCII characters keeps all its letters and digits in their order:
only capitals become small, separators become underscores, and underscores are inserted between
words.  Every underscore has a separator behind it or was inserted in front of a capital.  A name in
snake case stays as it is when it is written in snake case again.
-/

namespace Bitwire

namespace Identifier

/-! ## 1. Characters -/

/-- What separates the words of a name. -/
def isSeparator (c : Char) : Bool :=
  c == '_' || c == '-' || c == ' '

/-- A character as it is written: an underscore for a separator, a small letter for a capital. -/
def small (c : Char) : Char :=
  if isSeparator c then '_' else c.toLower

theorem isSeparator_iff {c : Char} : isSeparator c = true ↔ c = '_' ∨ c = '-' ∨ c = ' ' := by
  simp [isSeparator, or_assoc]

theorem toNat_lt_of_isAlpha {c : Char} (h : c.isAlpha = true) : c.toNat < 0x80 := by
  simp [Char.isAlpha, Char.isUpper, Char.isLower, UInt32.le_iff_toNat_le] at h
  omega

-- A letter becomes a letter, and nothing else changes.
theorem toLower_cases (c : Char) : c.isAlpha = true ∧ c.toLower.isAlpha = true ∨ c.toLower = c := by
  by_cases h : c.isUpper = true
  · simp [Char.isAlpha, h]
  · exact .inr (Char.toLower_eq_of_not_isUpper h)

theorem isSeparator_eq_false_of_isAlpha {c : Char} (h : c.isAlpha = true) :
    isSeparator c = false := by
  rw [Bool.eq_false_iff, Ne, isSeparator_iff]
  rintro (rfl | rfl | rfl) <;> revert h <;> decide

theorem isSeparator_toLower (c : Char) : isSeparator c.toLower = isSeparator c := by
  rcases toLower_cases c with ⟨hc, hlower⟩ | hsame
  · rw [isSeparator_eq_false_of_isAlpha hc, isSeparator_eq_false_of_isAlpha hlower]
  · rw [hsame]

theorem toLower_eq_underscore_iff {c : Char} : c.toLower = '_' ↔ c = '_' := by
  rcases toLower_cases c with ⟨hc, hlower⟩ | hsame
  · constructor <;> intro h
    · rw [h] at hlower
      exact absurd hlower (by decide)
    · rw [h] at hc
      exact absurd hc (by decide)
  · rw [hsame]

-- Only separators are written as underscores.
theorem small_eq_underscore_iff {c : Char} : small c = '_' ↔ isSeparator c = true := by
  unfold small
  by_cases h : isSeparator c = true
  · simp [h]
  · have hc : c ≠ '_' := fun hc => h (isSeparator_iff.mpr (.inl hc))
    simp [h, toLower_eq_underscore_iff, hc]

theorem small_eq_toLower {c : Char} (h : ¬ (c = '-' ∨ c = ' ')) : small c = c.toLower := by
  unfold small
  by_cases hc : c = '_'
  · rw [hc]
    decide
  · have hseparator : ¬ isSeparator c = true := by
      rw [isSeparator_iff]
      exact not_or.mpr ⟨hc, h⟩
    rw [if_neg hseparator]

/-- ASCII characters that are neither capitals nor, apart from the underscore, separators. -/
def IsSmall (c : Char) : Prop :=
  c.toNat < 0x80 ∧ c.isUpper = false ∧ c ≠ '-' ∧ c ≠ ' '

theorem isSmall_small {c : Char} (h : c.toNat < 0x80) : IsSmall (small c) := by
  unfold small
  by_cases hc : isSeparator c = true
  · rw [if_pos hc]
    exact ⟨by decide, by decide, by decide, by decide⟩
  · rw [if_neg hc]
    have hascii : c.toLower.toNat < 0x80 := by
      rcases toLower_cases c with ⟨-, hlower⟩ | hsame
      · exact toNat_lt_of_isAlpha hlower
      · rwa [hsame]
    have hseparator : ¬ isSeparator c.toLower = true := by rwa [isSeparator_toLower]
    rw [isSeparator_iff] at hseparator
    exact ⟨hascii, Char.isUpper_toLower_eq_false c, fun h => hseparator (.inr (.inl h)),
      fun h => hseparator (.inr (.inr h))⟩

theorem IsSmall.small_eq {c : Char} (h : IsSmall c) : small c = c := by
  unfold small
  by_cases hc : isSeparator c = true
  · rw [if_pos hc]
    rcases isSeparator_iff.mp hc with rfl | hdash | hspace
    · rfl
    · exact absurd hdash h.2.2.1
    · exact absurd hspace h.2.2.2
  · rw [if_neg hc]
    exact Char.toLower_eq_of_not_isUpper (by simp [h.2.1])

/-! ## 2. One step -/

-- A character is written small, behind an underscore if it starts a word.
theorem snakeChars_cons_of_ascii {c : Char} (h : c.toNat < 0x80) (rest : List Char)
    (before : Option Char) (underscore : Bool) :
    snakeChars (c :: rest) before underscore =
      (if c.isUpper && (startsWord before rest.head? && !underscore) then ['_'] else []) ++
        small c :: snakeChars rest (some c) (small c == '_') := by
  have hupper : Text.isUpper c = c.isUpper := if_pos h
  have hlower : Text.toLower c = [c.toLower] := if_pos h
  rw [snakeChars, hupper, hlower]
  by_cases hdash : c = '-' ∨ c = ' '
  · have hsmall : small c = '_' := small_eq_underscore_iff.mpr (isSeparator_iff.mpr (.inr hdash))
    have hcapital : c.isUpper = false := by
      rcases hdash with rfl | rfl <;> decide
    simp [hdash, hsmall, hcapital]
  · have hsmall := small_eq_toLower hdash
    by_cases hcapital : c.isUpper = true
    · simp [hdash, hsmall, hcapital]
      split <;> rfl
    · simp [hdash, hsmall, hcapital, Char.toLower_eq_of_not_isUpper]

/-! ## 3. What characters come from -/

/-- The character that is written for a character of the name, or for none: an underscore that is
inserted. -/
def written : Option Char → Char
  | some c => small c
  | none => '_'

/-- What each character of a name in snake case comes from: a character of the name, or none.
The arguments are those of `snakeChars`. -/
def origins : List Char → (before : Option Char) → (underscore : Bool) → List (Option Char)
  | [], _, _ => []
  | c :: rest, before, underscore =>
    (if c.isUpper && (startsWord before rest.head? && !underscore) then [none] else []) ++
      some c :: origins rest (some c) (small c == '_')

theorem map_written_origins {cs : List Char} (h : ∀ c ∈ cs, c.toNat < 0x80)
    (before : Option Char) (underscore : Bool) :
    (origins cs before underscore).map written = snakeChars cs before underscore := by
  induction cs generalizing before underscore with
  | nil => rfl
  | cons c rest ih =>
    rw [List.forall_mem_cons] at h
    rw [origins, snakeChars_cons_of_ascii h.1, List.map_append, List.map_cons, ih h.2]
    split <;> rfl

theorem reduceOption_origins (cs : List Char) (before : Option Char) (underscore : Bool) :
    (origins cs before underscore).reduceOption = cs := by
  induction cs generalizing before underscore with
  | nil => rfl
  | cons c rest ih =>
    rw [origins, List.reduceOption_append, List.reduceOption_cons_of_some, ih]
    split <;> rfl

-- An underscore that is inserted stands in front of the first character, or it is inserted behind it.
theorem origins_cons_split {c : Char} {rest : List Char} {before : Option Char} {underscore : Bool}
    {front back : List (Option Char)}
    (h : origins (c :: rest) before underscore = front ++ none :: back) :
    (front = [] ∧ back.head? = some (some c) ∧ c.isUpper = true ∧
      startsWord before rest.head? = true ∧ underscore = false) ∨
    ∃ pre tail, front = pre ++ some c :: tail ∧
      origins rest (some c) (small c == '_') = tail ++ none :: back := by
  rw [origins] at h
  by_cases hword : (c.isUpper && (startsWord before rest.head? && !underscore)) = true
  · rw [if_pos hword] at h
    cases front with
    | nil =>
      obtain ⟨-, rfl⟩ := List.cons.inj h
      simp only [Bool.and_eq_true, Bool.not_eq_true'] at hword
      exact .inl ⟨rfl, rfl, hword⟩
    | cons first front =>
      cases front with
      | nil => simp at h
      | cons second tail =>
        simp only [List.cons_append, List.nil_append, List.cons.injEq] at h
        obtain ⟨rfl, rfl, htail⟩ := h
        exact .inr ⟨[none], tail, rfl, htail⟩
  · rw [if_neg hword] at h
    cases front with
    | nil => simp at h
    | cons first tail =>
      simp only [List.cons_append, List.nil_append, List.cons.injEq] at h
      obtain ⟨rfl, htail⟩ := h
      exact .inr ⟨[], tail, rfl, htail⟩

-- The invariant of the walk: `text` was written so far.  It is not empty if there is a character in
-- front, and it ends with an underscore only if `underscore` says so.
theorem inserted_of_origins {cs : List Char} {before : Option Char} {underscore : Bool}
    {front back : List (Option Char)} {text : List Char}
    (hstart : before ≠ none → text ≠ []) (hend : underscore = false → text.getLast? ≠ some '_')
    (h : origins cs before underscore = front ++ none :: back) :
    text ++ front.map written ≠ [] ∧ (text ++ front.map written).getLast? ≠ some '_' ∧
      ∃ c, back.head? = some (some c) ∧ c.isUpper = true := by
  induction cs generalizing before underscore front text with
  | nil => simp [origins] at h
  | cons c rest ih =>
    rcases origins_cons_split h with ⟨rfl, hback, hcapital, hword, hunderscore⟩ |
      ⟨pre, tail, rfl, htail⟩
    · have hbefore : before ≠ none := by
        rintro rfl
        exact Bool.false_ne_true hword
      rw [List.map_nil, List.append_nil]
      exact ⟨hstart hbefore, hend hunderscore, c, hback, hcapital⟩
    · -- `c` is written as well when the walk comes to what is inserted
      have hsplit : text ++ (pre ++ some c :: tail).map written =
          (text ++ pre.map written ++ [small c]) ++ tail.map written := by
        simp [written]
      rw [hsplit]
      apply ih _ _ htail
      · simp
      · intro hsmall
        simpa using hsmall

/-! ## 4. Names -/

/-- What snake case makes of a name. -/
structure SnakeForm (name text : List Char) : Prop where
  isSmall : ∀ c ∈ text, IsSmall c
  /-- Nothing is lost, added or reordered, apart from underscores. -/
  letters : text.filter (· != '_') = (name.filter fun c => !isSeparator c).map Char.toLower
  /-- Each underscore comes from a separator, or stands directly in front of what was a capital; in
  the latter case it is not the first character and follows no other underscore. -/
  underscores : ∃ origins : List (Option Char),
    origins.reduceOption = name ∧ origins.map written = text ∧
    ∀ front origin back, origins = front ++ origin :: back → written origin = '_' →
      (∃ c, origin = some c ∧ isSeparator c = true) ∨
      (∃ c, back.head? = some (some c) ∧ c.isUpper = true) ∧
        front.map written ≠ [] ∧ (front.map written).getLast? ≠ some '_'

theorem filter_map_written (origins : List (Option Char)) :
    (origins.map written).filter (· != '_') =
      (origins.reduceOption.filter fun c => !isSeparator c).map Char.toLower := by
  induction origins with
  | nil => rfl
  | cons origin rest ih =>
    cases origin with
    | none => simpa [written] using ih
    | some c =>
      rw [List.map_cons, List.reduceOption_cons_of_some]
      by_cases hc : isSeparator c = true
      · have hsmall := small_eq_underscore_iff.mpr hc
        simpa [written, hc, hsmall] using ih
      · have hsmall : small c = c.toLower := if_neg hc
        have hlower : c.toLower ≠ '_' := fun h => hc (small_eq_underscore_iff.mp (hsmall.trans h))
        simpa [written, hc, hsmall, hlower] using ih

theorem snakeForm_snakeCase {name : String} (h : ∀ c ∈ name.toList, c.toNat < 0x80) :
    SnakeForm name.toList (snakeCase name).toList := by
  have hname : (origins name.toList none false).reduceOption = name.toList :=
    reduceOption_origins _ _ _
  have htext : (origins name.toList none false).map written = (snakeCase name).toList := by
    rw [map_written_origins h, snakeCase, String.toList_ofList]
  constructor
  case isSmall =>
    intro c hc
    rw [← htext, List.mem_map] at hc
    obtain ⟨origin, horigin, rfl⟩ := hc
    cases origin with
    | none => exact ⟨by decide, by decide, by decide, by decide⟩
    | some c =>
      have hmem : c ∈ name.toList := by
        rw [← hname]
        exact List.reduceOption_mem_iff.mpr horigin
      exact isSmall_small (h c hmem)
  case letters =>
    rw [← htext, filter_map_written, hname]
  case underscores =>
    refine ⟨_, hname, htext, fun front origin back hsplit hwritten => ?_⟩
    cases origin with
    | some c => exact .inl ⟨c, rfl, small_eq_underscore_iff.mp hwritten⟩
    | none =>
      have hinserted := @inserted_of_origins _ _ _ _ _ [] (fun hne => absurd rfl hne) (by simp) hsplit
      exact .inr ⟨hinserted.2.2, hinserted.1, hinserted.2.1⟩

-- Where there are no capitals, nothing is inserted, and every character is written as it is.
theorem snakeChars_eq_self {cs : List Char} (h : ∀ c ∈ cs, IsSmall c) (before : Option Char)
    (underscore : Bool) : snakeChars cs before underscore = cs := by
  induction cs generalizing before underscore with
  | nil => rfl
  | cons c rest ih =>
    rw [List.forall_mem_cons] at h
    rw [snakeChars_cons_of_ascii h.1.1, h.1.2.1, h.1.small_eq, ih h.2]
    rfl

/-- Snake case is a normal form of the names that are made of ASCII characters. -/
theorem snakeCase_normalForm {name : String} (h : ∀ c ∈ name.toList, c.toNat < 0x80) :
    SnakeForm name.toList (snakeCase name).toList ∧
    snakeCase (snakeCase name) = snakeCase name ∧
    upperSnakeCase (snakeCase name) = upperSnakeCase name := by
  have hform := snakeForm_snakeCase h
  have hagain : snakeCase (snakeCase name) = snakeCase name := by
    show String.ofList (snakeChars (snakeCase name).toList none false) = snakeCase name
    rw [snakeChars_eq_self hform.isSmall, String.ofList_toList]
  refine ⟨hform, hagain, ?_⟩
  unfold upperSnakeCase
  rw [hagain]

/-- Capitals that follow each other, digits, and separators of every kind. -/
theorem snakeCase_normalForm_mixed :
    (∀ c ∈ "HTTPServer-Vec3Max _Ab".toList, c.toNat < 0x80) ∧
    snakeCase "HTTPServer-Vec3Max _Ab" = "http_server_vec3_max__ab" ∧
    snakeCase "http_server_vec3_max__ab" = "http_server_vec3_max__ab" ∧
    upperSnakeCase "http_server_vec3_max__ab" = upperSnakeCase "HTTPServer-Vec3Max _Ab" ∧
    SnakeForm "HTTPServer-Vec3Max _Ab".toList "http_server_vec3_max__ab".toList := by
  have hascii : ∀ c ∈ "HTTPServer-Vec3Max _Ab".toList, c.toNat < 0x80 := by
    simp
  have hsnake : snakeCase "HTTPServer-Vec3Max _Ab" = "http_server_vec3_max__ab" := by
    decide +kernel
  obtain ⟨hform, hagain, hupper⟩ := snakeCase_normalForm hascii
  rw [hsnake] at hform hagain hupper
  exact ⟨hascii, hsnake, hagain, hupper, hform⟩

end Identifier

end Bitwire
