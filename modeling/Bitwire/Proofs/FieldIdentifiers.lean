import Bitwire.Proofs.SnakeCase

/-!
# Field identifiers

A field is declared under its name in small letters.  Where the name is made of ASCII letters,
digits and underscores, what is declared is an identifier of the generated language: none of its
keywords, unless it is a raw identifier.  The one name that leads to no identifier is a single
underscore.
-/

namespace Bitwire

namespace Identifier

/-! ## 1. Identifiers -/

/-- Spelled with allowed characters, the first of which is no digit. -/
def Spelled (allowed : Char → Bool) (s : String) : Prop :=
  ∃ first rest, s.toList = first :: rest ∧ first.isDigit = false ∧
    ∀ c ∈ first :: rest, allowed c = true

/-- ASCII letters and digits, and the underscore. -/
def isWordChar (c : Char) : Bool :=
  c.isAlphanum || c == '_'

/-- Small ASCII letters and digits, and the underscore. -/
def isSmallWordChar (c : Char) : Bool :=
  c.isLower || c.isDigit || c == '_'

/-- The keywords that the generated language uses. -/
def strictKeywords : List String :=
  ["as", "async", "await", "break", "const", "continue", "crate", "dyn", "else", "enum", "extern",
    "false", "fn", "for", "if", "impl", "in", "let", "loop", "match", "mod", "move", "mut", "pub",
    "ref", "return", "self", "Self", "static", "struct", "super", "trait", "true", "type", "unsafe",
    "use", "where", "while"]

/-- The keywords that the generated language keeps for later. -/
def reservedKeywords : List String :=
  ["abstract", "become", "box", "do", "final", "gen", "macro", "override", "priv", "try", "typeof",
    "unsized", "virtual", "yield"]

/-- What a field can be called: an identifier in small letters that is no keyword and not the
underscore, or a keyword as a raw identifier, except those that name a path. -/
def NamesField (ident : String) : Prop :=
  (Spelled isSmallWordChar ident ∧ ident ≠ "_" ∧ ident ∉ strictKeywords ++ reservedKeywords) ∨
    ∃ word ∈ strictKeywords ++ reservedKeywords,
      word ∉ ["crate", "self", "super", "Self"] ∧ ident = "r#" ++ word

/-! ## 2. Small letters -/

theorem toNat_lt_of_isWordChar {c : Char} (h : isWordChar c = true) : c.toNat < 0x80 := by
  by_cases hc : c = '_'
  · rw [hc]
    decide
  · simp [isWordChar, Char.isAlphanum, Char.isAlpha, Char.isUpper, Char.isLower, Char.isDigit,
      UInt32.le_iff_toNat_le, hc] at h
    omega

theorem isDigit_eq_false_of_isAlpha {c : Char} (h : c.isAlpha = true) : c.isDigit = false := by
  simp [Char.isAlpha, Char.isUpper, Char.isLower, Char.isDigit, UInt32.le_iff_toNat_le]
    at h ⊢
  omega

theorem isDigit_toLower (c : Char) : c.toLower.isDigit = c.isDigit := by
  rcases toLower_cases c with ⟨hc, hlower⟩ | hsame
  · rw [isDigit_eq_false_of_isAlpha hc, isDigit_eq_false_of_isAlpha hlower]
  · rw [hsame]

theorem isSmallWordChar_toLower {c : Char} (h : isWordChar c = true) :
    isSmallWordChar c.toLower = true := by
  unfold isWordChar Char.isAlphanum at h
  unfold isSmallWordChar
  rw [Char.isLower_toLower_eq_isAlpha, isDigit_toLower]
  by_cases hc : c = '_'
  · rw [hc]
    decide
  · rw [beq_eq_false_iff_ne.mpr hc, Bool.or_false] at h
    rw [h, Bool.true_or]

/-! ## 3. Words in small letters -/

-- A character of a word is written in its small form, behind an underscore if it starts a word.
theorem snakeChars_cons {c : Char} (h : isWordChar c = true) (rest : List Char)
    (before : Option Char) (underscore : Bool) :
    snakeChars (c :: rest) before underscore =
      (if c.isUpper && (startsWord before rest.head? && !underscore) then ['_'] else []) ++
        c.toLower :: snakeChars rest (some c) (c == '_') := by
  have hseparator : ¬ (c = '-' ∨ c = ' ') := by
    rintro (rfl | rfl) <;> revert h <;> decide
  have hsmall := small_eq_toLower hseparator
  have hunderscore : (c.toLower == '_') = (c == '_') := by
    rw [Bool.eq_iff_iff, beq_iff_eq, beq_iff_eq, toLower_eq_underscore_iff]
  rw [snakeChars_cons_of_ascii (toNat_lt_of_isWordChar h), hsmall, hunderscore]

theorem isSmallWordChar_snakeChars {cs : List Char} (h : ∀ c ∈ cs, isWordChar c = true)
    (before : Option Char) (underscore : Bool) :
    ∀ c ∈ snakeChars cs before underscore, isSmallWordChar c = true := by
  induction cs generalizing before underscore with
  | nil => exact List.forall_mem_nil _
  | cons c rest ih =>
    rw [List.forall_mem_cons] at h
    rw [snakeChars_cons h.1, List.forall_mem_append, List.forall_mem_cons]
    refine ⟨?_, isSmallWordChar_toLower h.1, ih h.2 _ _⟩
    split
    · simp [isSmallWordChar]
    · simp

-- No name starts with a new word.
theorem snakeCase_cons {name : String} {first : Char} {rest : List Char}
    (h : isWordChar first = true) (hname : name.toList = first :: rest) :
    (snakeCase name).toList =
      first.toLower :: snakeChars rest (some first) (first == '_') := by
  unfold snakeCase
  rw [String.toList_ofList, hname, snakeChars_cons h]
  simp [startsWord]

theorem spelled_snakeCase {name : String} (h : Spelled isWordChar name) :
    Spelled isSmallWordChar (snakeCase name) := by
  obtain ⟨first, rest, hname, hdigit, hword⟩ := h
  have hsmall := isSmallWordChar_snakeChars hword none false
  have hsnake := snakeCase_cons (hword first List.mem_cons_self) hname
  refine ⟨_, _, hsnake, ?_, ?_⟩
  · rw [isDigit_toLower, hdigit]
  · rw [← hsnake]
    unfold snakeCase
    rw [String.toList_ofList, hname]
    exact hsmall

-- Only an underscore becomes an underscore.
theorem snakeCase_eq_underscore_iff {name : String} (h : Spelled isWordChar name) :
    snakeCase name = "_" ↔ name = "_" := by
  have hlist : "_".toList = ['_'] := rfl
  constructor
  · intro hsnake
    obtain ⟨first, rest, hname, -, hword⟩ := h
    rw [List.forall_mem_cons] at hword
    have hchars := snakeCase_cons hword.1 hname
    rw [hsnake, hlist] at hchars
    obtain ⟨hfirst, hrest⟩ := List.cons.inj hchars
    cases rest with
    | nil => rw [← String.toList_inj, hname, toLower_eq_underscore_iff.mp hfirst.symm, hlist]
    | cons c rest =>
      rw [snakeChars_cons (hword.2 c List.mem_cons_self)] at hrest
      simp at hrest
  · rintro rfl
    decide

/-! ## 4. Fields -/

theorem not_namesField_underscore : ¬ NamesField "_" := by
  rintro (⟨-, hne, -⟩ | ⟨word, -, -, hraw⟩)
  · exact hne rfl
  · have hhead := congrArg (fun s : String => s.toList.head?) hraw
    simp [String.toList_append] at hhead

-- The underscore behind a keyword that cannot be raw makes it an identifier.
theorem namesField_underscore {word : String} (h : Spelled isSmallWordChar word)
    (hword : word ∈ reserved) : NamesField (word ++ "_") := by
  have hnew : ∀ w ∈ reserved, w ++ "_" ≠ "_" ∧ w ++ "_" ∉ strictKeywords ++ reservedKeywords := by
    decide +kernel
  obtain ⟨first, rest, hspelled, hdigit, hsmall⟩ := h
  refine .inl ⟨⟨first, rest ++ ['_'], ?_, hdigit, ?_⟩, hnew word hword⟩
  · rw [String.toList_append, hspelled]
    rfl
  · rw [← List.cons_append, List.forall_mem_append]
    exact ⟨hsmall, by simp [isSmallWordChar]⟩

/-- The field of a name made of ASCII letters, digits and underscores is declared under an
identifier of the generated language, unless the name is a single underscore: that one is kept as it
is. -/
theorem namesField_ofField_iff {name : String} (h : Spelled isWordChar name) :
    NamesField (ofField name) ↔ name ≠ "_" := by
  have hspelled := spelled_snakeCase h
  have hkeywords : ∀ word ∈ keywords, word ∈ strictKeywords ++ reservedKeywords := by
    decide +kernel
  have hall : ∀ word ∈ strictKeywords ++ reservedKeywords, word ∈ reserved ∨ word ∈ keywords := by
    decide +kernel
  have hraw : ∀ word ∈ ["crate", "self", "super", "Self"], word ∈ reserved := by
    decide +kernel
  constructor
  · rintro hfield rfl
    exact not_namesField_underscore hfield
  · intro hne
    unfold ofField
    by_cases hreserved : snakeCase name ∈ reserved
    · simp only [List.contains_iff_mem, hreserved, if_true]
      exact namesField_underscore hspelled hreserved
    by_cases hkeyword : snakeCase name ∈ keywords
    · simp only [List.contains_iff_mem, hreserved, hkeyword, if_true, if_false]
      exact .inr ⟨_, hkeywords _ hkeyword, fun hmem => hreserved (hraw _ hmem), rfl⟩
    · simp only [List.contains_iff_mem, hreserved, hkeyword, if_false]
      refine .inl ⟨hspelled, (snakeCase_eq_underscore_iff h).not.mpr hne, fun hmem => ?_⟩
      exact (hall _ hmem).elim hreserved hkeyword

/-- A name that becomes a keyword, and one that becomes a keyword which cannot be raw. -/
theorem namesField_ofField_keywords :
    Spelled isWordChar "Type" ∧ NamesField (ofField "Type") ∧ ofField "Type" = "r#type" ∧
    Spelled isWordChar "Self" ∧ NamesField (ofField "Self") ∧ ofField "Self" = "self_" := by
  have htype : Spelled isWordChar "Type" :=
    ⟨'T', ['y', 'p', 'e'], rfl, rfl, List.all_eq_true.mp rfl⟩
  have hself : Spelled isWordChar "Self" :=
    ⟨'S', ['e', 'l', 'f'], rfl, rfl, List.all_eq_true.mp rfl⟩
  exact ⟨htype, (namesField_ofField_iff htype).mpr (by decide), by decide +kernel,
    hself, (namesField_ofField_iff hself).mpr (by decide), by decide +kernel⟩

/-- The field of a name that is a single underscore gets no identifier. -/
theorem not_namesField_ofField_underscore :
    Spelled isWordChar "_" ∧ ofField "_" = "_" ∧ ¬ NamesField (ofField "_") :=
  ⟨⟨'_', [], rfl, rfl, List.all_eq_true.mp rfl⟩, rfl, not_namesField_underscore⟩

end Identifier

end Bitwire
