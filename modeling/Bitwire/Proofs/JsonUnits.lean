import Bitwire.Proofs.JsonGrammar

/-!
# The units of a text

A text that spells units is cut into them, whatever white space stands between and however its
strings are spelled.  A string ends at its closing quote and has its characters back, escapes and
all.  An integer ends where its digits end, as long as nothing follows that could go on with a
number; a comma, a bracket, white space and the end of the text cannot.
-/

namespace Bitwire

namespace JsonToken

/-! ## 1. Steps -/

-- Steps that are not needed make no difference.
theorem ofCharsIn_mono {steps steps' : Nat} {cs : List Char} {tokens : List JsonToken}
    (h : ofCharsIn steps cs = some tokens) (hle : steps ≤ steps') :
    ofCharsIn steps' cs = some tokens := by
  induction steps generalizing steps' cs tokens with
  | zero =>
    cases cs with
    | nil => rw [← h, ofCharsIn, ofCharsIn]
    | cons c rest => cases h
  | succ steps ih =>
    obtain ⟨k, rfl⟩ : ∃ k, steps' = k + 1 := ⟨steps' - 1, by omega⟩
    cases cs with
    | nil => rw [← h, ofCharsIn, ofCharsIn]
    | cons c rest =>
      rw [ofCharsIn] at h ⊢
      split at h
      next hblank => rw [if_pos hblank, ih h (by omega)]
      next hunit =>
        rw [if_neg hunit]
        split at h
        next => cases h
        next token after _ =>
          obtain ⟨others, hothers, rfl⟩ := Option.map_eq_some_iff.mp h
          simp only [ih hothers (by omega : steps ≤ k), Option.map_some]

theorem ofChars?_blank {c : Char} (h : isBlank c = true) (cs : List Char) :
    ofChars? (c :: cs) = ofChars? cs := by
  rw [ofChars?, List.length_cons, ofCharsIn, if_pos h, ofChars?]

-- White space of any length is passed over.
theorem ofChars?_blanks {blanks : List Char} (h : ∀ c ∈ blanks, isBlank c = true)
    (cs : List Char) : ofChars? (blanks ++ cs) = ofChars? cs := by
  induction blanks with
  | nil => rfl
  | cons c rest ih =>
    obtain ⟨hc, hrest⟩ := List.forall_mem_cons.mp h
    rw [List.cons_append, ofChars?_blank hc, ih hrest]

-- A text is its first unit followed by the units of what comes behind.
theorem ofChars?_unit {c : Char} {cs rest : List Char} {token : JsonToken} {tail : List JsonToken}
    (hc : isBlank c = false) (hnext : next? (c :: cs ++ rest) = some (token, rest))
    (hrest : ofChars? rest = some tail) : ofChars? (c :: cs ++ rest) = some (token :: tail) := by
  have hmono : ofCharsIn (cs ++ rest).length rest = some tail :=
    ofCharsIn_mono hrest (by simp)
  rw [List.cons_append] at hnext ⊢
  rw [ofChars?, List.length_cons, ofCharsIn, hc, if_neg Bool.false_ne_true, hnext]
  simp only [hmono, Option.map_some]

/-! ## 2. Strings -/

-- An escape of one letter.
theorem stringUnits_escape {e c : Char} (hu : e ≠ 'u') (h : simpleEscape? e = some c)
    (cs : List Char) : stringUnits ('\\' :: e :: cs) =
      (stringUnits cs).map fun (units, rest) => (c.toNat :: units, rest) := by
  rw [stringUnits, h]
  · cases stringUnits cs <;> rfl
  · intro _ _ _ _ _ he
    exact absurd he hu

-- An escape of a code point by its digits.
theorem stringUnits_unit {h₁ h₂ h₃ h₄ : Char} {n : Nat} (h : hexUnit? h₁ h₂ h₃ h₄ = some n)
    (cs : List Char) : stringUnits ('\\' :: 'u' :: h₁ :: h₂ :: h₃ :: h₄ :: cs) =
      (stringUnits cs).map fun (units, rest) => (n :: units, rest) := by
  rw [stringUnits, h]
  cases stringUnits cs <;> rfl

-- A character that stands for itself.
theorem stringUnits_plain {c : Char} (hquote : c ≠ '"') (hslash : c ≠ '\\') (hc : 0x20 ≤ c.toNat)
    (cs : List Char) : stringUnits (c :: cs) =
      (stringUnits cs).map fun (units, rest) => (c.toNat :: units, rest) := by
  rw [stringUnits, if_neg fun h => h.elim (by omega) hslash]
  · cases stringUnits cs <;> rfl
  · exact hquote
  -- no escape starts with another character
  all_goals
    intros
    contradiction

-- No character is half a surrogate pair.
theorem isHighSurrogate_toNat (c : Char) : isHighSurrogate c.toNat = false := by
  have hvalid : c.toNat < 0xd800 ∨ 0xdfff < c.toNat ∧ c.toNat < 0x110000 := c.valid
  simp only [isHighSurrogate, Bool.and_eq_false_iff, decide_eq_false_iff_not]
  omega

theorem isLowSurrogate_toNat (c : Char) : isLowSurrogate c.toNat = false := by
  have hvalid : c.toNat < 0xd800 ∨ 0xdfff < c.toNat ∧ c.toNat < 0x110000 := c.valid
  simp only [isLowSurrogate, Bool.and_eq_false_iff, decide_eq_false_iff_not]
  omega

-- A code point that is a character is read as that character.
theorem joinSurrogates_cons (c : Char) (units : List Nat) :
    joinSurrogates (c.toNat :: units) = (joinSurrogates units).map (c :: ·) := by
  cases units with
  | nil =>
    change joinSurrogates [c.toNat] = some [c]
    simp only [joinSurrogates, isHighSurrogate_toNat, isLowSurrogate_toNat, Bool.or_self,
      Char.ofNat_toNat, if_neg Bool.false_ne_true]
  | cons next rest =>
    rw [joinSurrogates, isHighSurrogate_toNat, if_neg Bool.false_ne_true, isLowSurrogate_toNat,
      if_neg Bool.false_ne_true, Char.ofNat_toNat]

/-- A character that is spelled is cut into units that are read as the character. -/
theorem SpellsChar.exists_units {front : List Char} {c : Char} (h : SpellsChar front c) :
    ∃ own, (∀ cs, stringUnits (front ++ cs) =
        (stringUnits cs).map fun (units, rest) => (own ++ units, rest)) ∧
      ∀ units, joinSurrogates (own ++ units) = (joinSurrogates units).map (c :: ·) := by
  cases h with
  | plain hquote hslash hc =>
    exact ⟨[c.toNat], stringUnits_plain hquote hslash hc, joinSurrogates_cons c⟩
  | @escape letter _ hletter =>
    have hu : letter ≠ 'u' := by
      rintro rfl
      cases hletter
    exact ⟨[c.toNat], stringUnits_escape hu hletter, joinSurrogates_cons c⟩
  | unit hunit => exact ⟨[c.toNat], stringUnits_unit hunit, joinSurrogates_cons c⟩
  | @pair h₁ h₂ h₃ h₄ l₁ l₂ l₃ l₄ _ high low hhigh hisHigh hlow hisLow hc =>
    refine ⟨[high, low], fun cs => ?_, fun units => ?_⟩
    · show stringUnits ('\\' :: 'u' :: h₁ :: h₂ :: h₃ :: h₄ :: '\\' :: 'u' :: l₁ :: l₂ :: l₃ ::
        l₄ :: cs) = _
      rw [stringUnits_unit hhigh, stringUnits_unit hlow]
      cases stringUnits cs <;> rfl
    · show joinSurrogates (high :: low :: units) = _
      rw [joinSurrogates, if_pos hisHigh, if_pos hisLow, ← hc, Char.ofNat_toNat]

/-- A string that is spelled ends at its closing quote and has its characters back. -/
theorem SpellsChars.exists_units {cs chars : List Char} (h : SpellsChars cs chars) (rest : List Char) :
    ∃ units, stringUnits (cs ++ '"' :: rest) = some (units, rest) ∧
      joinSurrogates units = some chars := by
  induction h with
  | nil => exact ⟨[], rfl, rfl⟩
  | @cons front behind c chars hfirst _ ih =>
    obtain ⟨units, hunits, hjoin⟩ := ih
    obtain ⟨own, hown, hjoinOwn⟩ := hfirst.exists_units
    refine ⟨own ++ units, ?_, ?_⟩
    · rw [List.append_assoc, hown, hunits]
      rfl
    · rw [hjoinOwn, hjoin]
      rfl

/-- Whether a text could go on with a number that stands in front of it. -/
def extendsNumber : List Char → Bool
  | [] => false
  | c :: _ => c.isDigit || c == '.' || c == 'e' || c == 'E'

/-! ## 3. Numbers -/

theorem digitsValue_toDigits (n : Nat) : digitsValue (Nat.toDigits 10 n) = n := by
  have hfold : digitsValue (Nat.toDigits 10 n) = Nat.ofDigitChars 10 (Nat.toDigits 10 n) 0 := by
    simp only [digitsValue, Nat.ofDigitChars_eq_foldl, Nat.mul_comm]
  rw [hfold, Nat.ofDigitChars_ten_toDigits]

-- No number but zero is written with a zero in front.
theorem head?_toDigits {n : Nat} (h : n ≠ 0) : (Nat.toDigits 10 n).head? ≠ some '0' := by
  induction n using Nat.strong_induction_on with
  | _ n ih =>
    by_cases hlt : n < 10
    · rw [Nat.toDigits_of_lt_base hlt, List.head?_cons]
      simpa using h
    · rw [Nat.toDigits_of_base_le (by decide) (by omega),
        List.head?_append_of_ne_nil _ Nat.toDigits_ne_nil]
      exact ih (n / 10) (by omega) (by omega)

theorem exists_toDigits_cons (n : Nat) : ∃ d ds, Nat.toDigits 10 n = d :: ds ∧ d.isDigit = true := by
  cases hdigits : Nat.toDigits 10 n with
  | nil => exact absurd hdigits Nat.toDigits_ne_nil
  | cons d ds =>
    refine ⟨d, ds, rfl, Nat.isDigit_of_mem_toDigits (b := 10) (n := n) (by decide) (by decide) ?_⟩
    rw [hdigits]
    exact List.mem_cons_self

-- Digits end where something follows that does not go on with a number.
theorem digits_append {ds rest : List Char} (hds : ∀ c ∈ ds, c.isDigit = true)
    (hrest : extendsNumber rest = false) : digits (ds ++ rest) = (ds, rest) := by
  have hstop : rest.takeWhile Char.isDigit = [] ∧ rest.dropWhile Char.isDigit = rest := by
    cases rest with
    | nil => exact ⟨rfl, rfl⟩
    | cons c rest =>
      have hc : c.isDigit = false := by
        simp only [extendsNumber, Bool.or_eq_false_iff] at hrest
        exact hrest.1.1.1
      rw [List.takeWhile_cons, List.dropWhile_cons, hc]
      exact ⟨rfl, rfl⟩
  rw [digits, List.span_eq_takeWhile_dropWhile, List.takeWhile_append_of_pos hds,
    List.dropWhile_append_of_pos hds, hstop.1, hstop.2, List.append_nil]

theorem fraction?_of_not_extendsNumber {rest : List Char} (h : extendsNumber rest = false) :
    fraction? rest = some (false, rest) := by
  cases rest with
  | nil => rfl
  | cons c rest =>
    simp only [extendsNumber, Bool.or_eq_false_iff, beq_eq_false_iff_ne] at h
    obtain ⟨⟨⟨-, hpoint⟩, he⟩, hE⟩ := h
    have hexponent : exponent? (c :: rest) = some (false, c :: rest) := by
      change (if c = 'e' ∨ c = 'E' then _ else _) = _
      rw [if_neg (not_or.mpr ⟨he, hE⟩)]
    rw [fraction?, hexponent]
    intro after hpoint'
    exact hpoint (List.cons.inj hpoint').1

theorem unsigned?_toDigits (negative : Bool) (n : Nat) {rest : List Char}
    (h : extendsNumber rest = false) : unsigned? negative (Nat.toDigits 10 n ++ rest) =
      some (if negative then (if n = 0 then .foreign else .int (-(n : Int))) else .int n, rest) := by
  have hdigits : digits (Nat.toDigits 10 n ++ rest) = (Nat.toDigits 10 n, rest) :=
    digits_append (fun c hc => Nat.isDigit_of_mem_toDigits (by decide) (by decide) hc) h
  unfold unsigned?
  rw [hdigits]
  dsimp only
  split
  next hnil => exact absurd hnil Nat.toDigits_ne_nil
  next c cs hzero =>
    -- two digits, the first of them zero: the number would be zero, which has one
    have hn : n = 0 := by
      by_contra hn
      exact head?_toDigits hn (by rw [hzero, List.head?_cons])
    rw [hn, Nat.toDigits_zero] at hzero
    cases hzero
  next =>
    rw [fraction?_of_not_extendsNumber h, digitsValue_toDigits]
    cases negative <;> simp

theorem next?_toDigits (n : Nat) {rest : List Char} (h : extendsNumber rest = false) :
    next? (Nat.toDigits 10 n ++ rest) = some (.scalar (.int n), rest) := by
  have hunsigned := unsigned?_toDigits false n h
  obtain ⟨d, ds, hdigits, hd⟩ := exists_toDigits_cons n
  rw [hdigits, List.cons_append] at hunsigned ⊢
  rw [next?, hunsigned]
  · rfl
  -- no unit of another kind starts with a digit
  all_goals
    intro after hhead
    obtain rfl := (List.cons.inj hhead).1
    exact absurd hd (by decide)

theorem isBlank_of_isDigit {d : Char} (h : d.isDigit = true) : isBlank d = false := by
  rw [← Bool.not_eq_true]
  intro hblank
  simp only [isBlank, Bool.or_eq_true, beq_iff_eq] at hblank
  obtain ((rfl | rfl) | rfl) | rfl := hblank <;> exact absurd h (by decide)

-- An integer that is spelled ends behind its digits.
theorem next?_int (v : Int) {rest : List Char} (h : extendsNumber rest = false) :
    next? ((toString v).toList ++ rest) = some (.scalar (.int v), rest) := by
  cases v with
  | ofNat n =>
    have htext : (toString (Int.ofNat n)).toList = Nat.toDigits 10 n := Nat.toList_repr
    rw [htext]
    exact next?_toDigits n h
  | negSucc n =>
    have htext : (toString (Int.negSucc n)).toList = '-' :: Nat.toDigits 10 (n + 1) := by
      change ("-" ++ (n + 1).repr).toList = _
      rw [String.toList_append, Nat.toList_repr]
      rfl
    rw [htext]
    change (unsigned? true (Nat.toDigits 10 (n + 1) ++ rest)).map _ = _
    rw [unsigned?_toDigits true (n + 1) h]
    rfl

theorem exists_toString_cons (v : Int) :
    ∃ c cs, (toString v).toList = c :: cs ∧ isBlank c = false := by
  cases v with
  | ofNat n =>
    obtain ⟨d, ds, hdigits, hd⟩ := exists_toDigits_cons n
    exact ⟨d, ds, Nat.toList_repr.trans hdigits, isBlank_of_isDigit hd⟩
  | negSucc n =>
    refine ⟨'-', (n + 1).repr.toList, ?_, rfl⟩
    change ("-" ++ (n + 1).repr).toList = _
    rw [String.toList_append]
    rfl

/-! ## 4. Texts -/

/-- Whether a unit is a value that is no string. -/
def isScalar : JsonToken → Bool
  | .scalar _ => true
  | _ => false

/-- Whether two units may follow each other without white space. -/
def Apart (token next : JsonToken) : Prop :=
  token.isScalar = false ∨ next.isScalar = false

-- A unit starts with no white space, and only a value goes on with a number.
theorem Spells.exists_cons {front : List Char} {token : JsonToken} (h : Spells front token) :
    ∃ c cs, front = c :: cs ∧ isBlank c = false ∧
      (token.isScalar = false → extendsNumber front = false) := by
  cases h with
  | openObject | closeObject | openArray | closeArray | comma | colon | string =>
    exact ⟨_, _, rfl, rfl, fun _ => rfl⟩
  | null => exact ⟨_, _, rfl, rfl, fun h => absurd h.symm Bool.false_ne_true⟩
  | bool b => cases b <;> exact ⟨_, _, rfl, rfl, fun h => absurd h.symm Bool.false_ne_true⟩
  | int v =>
    obtain ⟨c, cs, hcons, hc⟩ := exists_toString_cons v
    exact ⟨c, cs, hcons, hc, fun h => absurd h.symm Bool.false_ne_true⟩

/-- A unit that is spelled is the next unit of the text. -/
theorem Spells.next?_eq {front rest : List Char} {token : JsonToken} (h : Spells front token)
    (hrest : token.isScalar = true → extendsNumber rest = false) :
    next? (front ++ rest) = some (token, rest) := by
  cases h with
  | openObject | closeObject | openArray | closeArray | comma | colon | null => rfl
  | @string cs s hchars =>
    obtain ⟨units, hunits, hjoin⟩ := hchars.exists_units rest
    rw [List.cons_append, List.append_assoc]
    change (stringUnits (cs ++ '"' :: rest)).map _ = _
    rw [hunits, Option.map_some]
    dsimp only
    rw [hjoin, Option.map_some, String.ofList_toList]
  | bool b => cases b <;> rfl
  | int v => exact next?_int v (hrest rfl)

-- A number ends where units follow that do not start with a value.
theorem SpellsAll.extendsNumber_eq {cs : List Char} {tokens : List JsonToken}
    (h : SpellsAll cs tokens) (hhead : ∀ token ∈ tokens.head?, token.isScalar = false) :
    extendsNumber cs = false := by
  have hblank : ∀ {c : Char}, isBlank c = true → extendsNumber [c] = false := by
    intro c hc
    simp only [isBlank, Bool.or_eq_true, beq_iff_eq] at hc
    obtain ((rfl | rfl) | rfl) | rfl := hc <;> rfl
  cases h with
  | done hgap =>
    cases cs with
    | nil => rfl
    | cons c gap => exact hblank (hgap c List.mem_cons_self)
  | @unit gap front rest token tokens hgap hfront _ =>
    cases gap with
    | nil =>
      obtain ⟨c, cs, rfl, -, hextends⟩ := hfront.exists_cons
      exact hextends (hhead token rfl)
    | cons c gap => exact hblank (hgap c List.mem_cons_self)

/-- A text that spells units is cut into them, if no two values stand side by side. -/
theorem SpellsAll.ofChars?_eq {cs : List Char} {tokens : List JsonToken} (h : SpellsAll cs tokens)
    (hapart : tokens.IsChain Apart) : ofChars? cs = some tokens := by
  induction h with
  | @done gap hgap =>
    rw [← List.append_nil gap, ofChars?_blanks hgap]
    rfl
  | @unit gap front rest token tokens hgap hfront hrest ih =>
    obtain ⟨hnext, htail⟩ := List.isChain_cons.mp hapart
    obtain ⟨c, cs, rfl, hc, -⟩ := hfront.exists_cons
    rw [ofChars?_blanks hgap]
    refine ofChars?_unit hc (hfront.next?_eq fun hscalar => ?_) (ih htail)
    refine hrest.extendsNumber_eq fun next hmem => ?_
    exact (hnext next hmem).resolve_left (by rw [hscalar]; exact Bool.noConfusion)

end JsonToken

end Bitwire
