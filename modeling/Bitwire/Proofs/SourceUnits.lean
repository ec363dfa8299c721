import Bitwire.Proofs.SourceReader

/-!
# The units of written source

What stands in generated source is read as what was written: a name up to the first character that
no name holds, a number up to where its digits end, a quoted text with its characters back, and an
expression with the arrays, calls and paths that it is made of.
-/

namespace Bitwire

namespace SourceReader

/-! ## 1. Fixed texts, names and numbers -/

theorem literal?_append (text : String) (rest : List Char) :
    literal? text (text.toList ++ rest) = some rest :=
  List.dropPrefix?_append_of_beq rest (beq_self_eq_true _)

-- A text that starts differently is not the fixed one, whatever follows.
theorem literal?_eq_none (text start : String) (h : ¬ text.toList <+: start.toList)
    (h' : ¬ start.toList <+: text.toList) (rest : List Char) :
    literal? text (start.toList ++ rest) = none := by
  rw [literal?, Option.eq_none_iff_forall_ne_some]
  intro after hafter
  obtain ⟨front, hsplit, hfront⟩ := List.dropPrefix?_eq_some_iff.mp hafter
  rw [eq_of_beq hfront] at hsplit
  rcases List.prefix_or_prefix_of_prefix (List.prefix_append start.toList rest)
    (hsplit ▸ List.prefix_append text.toList after) with hstart | htext
  · exact h' hstart
  · exact h htext

-- A unit is cut off where the first character stands that does not belong to it.
theorem cut {p : Char → Bool} {unit back : List Char} (hunit : ∀ c ∈ unit, p c = true)
    (hback : back.head?.any (fun c => !p c) = true) :
    (unit ++ back).takeWhile p = unit ∧ (unit ++ back).dropWhile p = back := by
  cases back with
  | nil => cases hback
  | cons c rest =>
    have hc : ¬ p c = true := by simpa using hback
    rw [List.takeWhile_append_of_pos hunit, List.dropWhile_append_of_pos hunit,
      List.takeWhile_cons_of_neg hc, List.dropWhile_cons_of_neg hc, List.append_nil]
    exact ⟨rfl, rfl⟩

/-- Whether a text can be taken for a name: nothing in it ends one. -/
def IsName (s : String) : Prop :=
  ∀ c ∈ s.toList, endsName c = false

instance (s : String) : Decidable (IsName s) :=
  decidable_of_iff (s.toList.all (fun c => !endsName c) = true) (by simp [IsName])

-- What starts a text starts it whatever follows.
theorem any_head?_append {p : Char → Bool} {cs : List Char} (h : cs.head?.any p = true)
    (rest : List Char) : (cs ++ rest).head?.any p = true := by
  cases cs with
  | nil => cases h
  | cons c cs => exact h

-- A name is cut off where the first character stands that ends it.
theorem cut_name {name : String} {back : List Char} (h : IsName name)
    (hback : back.head?.any endsName = true) :
    (name.toList ++ back).takeWhile (fun c => !endsName c) = name.toList ∧
      (name.toList ++ back).dropWhile (fun c => !endsName c) = back := by
  refine cut (fun c hc => ?_) ?_
  · rw [h c hc]
    rfl
  · simp only [Bool.not_not]
    exact hback

-- So texts that start with names are alike in these and in what follows.
theorem name_append_inj {name name' : String} {back back' : List Char} (h : IsName name)
    (h' : IsName name') (hback : back.head?.any endsName = true)
    (hback' : back'.head?.any endsName = true)
    (heq : name.toList ++ back = name'.toList ++ back') : name = name' ∧ back = back' := by
  obtain ⟨htake, hdrop⟩ := cut_name h hback
  obtain ⟨htake', hdrop'⟩ := cut_name h' hback'
  rw [heq] at htake hdrop
  exact ⟨String.toList_inj.mp (htake.symm.trans htake'), hdrop.symm.trans hdrop'⟩

theorem nameBefore?_append {name stop : String} (h : IsName name)
    (hstop : stop.toList.head?.any endsName = true) (rest : List Char) :
    nameBefore? stop (name.toList ++ (stop.toList ++ rest)) = some (name, rest) := by
  obtain ⟨htake, hdrop⟩ := cut_name h (any_head?_append hstop rest)
  rw [nameBefore?, hdrop, htake, literal?_append, Option.map_some, String.ofList_toList]

theorem nameBefore?_end {name stop : String} (h : IsName name)
    (hstop : stop.toList.head?.any endsName = true) :
    nameBefore? stop (name.toList ++ stop.toList) = some (name, []) := by
  have hend := nameBefore?_append h hstop []
  rwa [List.append_nil] at hend

theorem numberBefore?_append {stop : String} (n : Nat)
    (hstop : stop.toList.head?.any (fun c => !c.isDigit) = true) (rest : List Char) :
    numberBefore? stop (n.repr.toList ++ (stop.toList ++ rest)) = some (n, rest) := by
  have hdigits : ∀ c ∈ Nat.toDigits 10 n, c.isDigit = true :=
    fun c hc => Nat.isDigit_of_mem_toDigits (by decide) (by decide) hc
  obtain ⟨htake, hdrop⟩ := cut hdigits (any_head?_append hstop rest)
  rw [numberBefore?, Nat.toList_repr]
  simp only [htake, hdrop]
  rw [if_neg Nat.toDigits_ne_nil, literal?_append, Option.map_some, Nat.ofDigitChars_ten_toDigits]

theorem numberBefore?_end {stop : String} (n : Nat)
    (hstop : stop.toList.head?.any (fun c => !c.isDigit) = true) :
    numberBefore? stop (n.repr.toList ++ stop.toList) = some (n, []) := by
  have hend := numberBefore?_append n hstop []
  rwa [List.append_nil] at hend

theorem bool?_append (b : Bool) (rest : List Char) :
    bool? ((toString b).toList ++ rest) = some (b, rest) := by
  cases b with
  | true =>
    have htrue : literal? "true" ((toString true).toList ++ rest) = some rest :=
      literal?_append "true" rest
    rw [bool?, htrue]
    rfl
  | false =>
    have hfalse : literal? "false" ((toString false).toList ++ rest) = some rest :=
      literal?_append "false" rest
    have htrue : literal? "true" ((toString false).toList ++ rest) = none :=
      literal?_eq_none "true" "false" (by decide) (by decide) rest
    rw [bool?, htrue, hfalse]
    rfl

/-! ## 2. Quoted texts and lists of numbers -/

-- The digits of an escape add up to the code point.
theorem quotedChars?_toDigits (n : Nat) (rest : List Char) :
    quotedChars? (some 0) (Nat.toDigits 16 n ++ rest) = quotedChars? (some n) rest := by
  have hdigit : ∀ d < 16, d.digitChar ≠ '\x7d' ∧ JsonToken.hexDigit? d.digitChar = some d := by
    decide
  have hstep : ∀ code d rest, d < 16 →
      quotedChars? (some code) (d.digitChar :: rest) = quotedChars? (some (code * 16 + d)) rest := by
    intro code d rest hd
    obtain ⟨hne, hvalue⟩ := hdigit d hd
    rw [quotedChars?, if_neg hne, hvalue]
  induction n using Nat.strong_induction_on generalizing rest with
  | _ n ih =>
    by_cases hlt : n < 16
    · rw [Nat.toDigits_of_lt_base hlt, List.singleton_append, hstep 0 n rest hlt, Nat.zero_mul,
        Nat.zero_add]
    · rw [Nat.toDigits_of_base_le (by decide) (by omega), List.append_assoc,
        List.singleton_append, ih (n / 16) (by omega), hstep _ _ _ (Nat.mod_lt n (by decide)),
        Nat.div_add_mod']

theorem quotedChars?_quotedChar (c : Char) (rest : List Char) :
    quotedChars? none ((Text.quotedChar c).toList ++ rest) =
      (quotedChars? none rest).map fun (cs, rest) => (c :: cs, rest) := by
  unfold Text.quotedChar
  split
  iterate 6 rfl
  next hquote hslash _ _ _ _ =>
    split_ifs with hunprintable
    · have hopen : ("\\u\x7b" : String).toList = ['\\', 'u', '\x7b'] := by decide
      have hclose : ("\x7d" : String).toList = ['\x7d'] := by decide
      rw [String.toList_append, String.toList_append, hopen, hclose, Text.hex,
        String.toList_ofList, List.append_assoc, List.append_assoc]
      show quotedChars? (some 0) (Nat.toDigits 16 c.toNat ++ _) = _
      rw [quotedChars?_toDigits, List.singleton_append, quotedChars?, if_pos rfl,
        Char.ofNat_toNat]
    · have hself : c.toString.toList = [c] := by simp
      rw [hself, List.singleton_append]
      exact quotedChars?.eq_6 c rest hquote (fun _ h => (hslash h).elim)
        (fun _ _ h => (hslash h).elim)

-- A quoted text ends at the first quote that is not escaped.
theorem quotedChars?_join (cs rest : List Char) :
    quotedChars? none ((String.join (cs.map Text.quotedChar)).toList ++ '"' :: rest) =
      some (cs, rest) := by
  induction cs with
  | nil => rfl
  | cons c cs ih =>
    rw [List.map_cons, String.join_cons, String.toList_append, List.append_assoc,
      quotedChars?_quotedChar, ih, Option.map_some]

theorem quoted?_append (s : String) (rest : List Char) :
    quoted? ((Text.quoted s).toList ++ rest) = some (s, rest) := by
  have hquote : ("\"" : String).toList = ['"'] := by decide
  have hquotes : (Text.quoted s).toList ++ rest =
      "\"".toList ++ ((String.join (s.toList.map Text.quotedChar)).toList ++ '"' :: rest) := by
    simp only [Text.quoted, String.toList_append, List.append_assoc, hquote,
      List.cons_append, List.nil_append]
  rw [hquotes, quoted?, literal?_append, Option.bind_eq_bind, Option.bind_some,
    quotedChars?_join]
  simp

-- The digits of a number add up to it.
theorem numbers?_toDigits (n : Nat) (rest : List Char) :
    numbers? none (Nat.toDigits 10 n ++ rest) = numbers? (some n) rest := by
  have hdigit : ∀ d < 10, d.digitChar.isDigit = true ∧ d.digitChar.toNat - '0'.toNat = d := by
    decide
  have hstep : ∀ n? d rest, d < 10 →
      numbers? n? (d.digitChar :: rest) = numbers? (some (n?.getD 0 * 10 + d)) rest := by
    intro n? d rest hd
    obtain ⟨hisDigit, hvalue⟩ := hdigit d hd
    rw [numbers?, if_pos hisDigit, hvalue]
    · rintro h
      rw [h] at hisDigit
      cases hisDigit
    · rintro _ _ _ h
      rw [h] at hisDigit
      cases hisDigit
  induction n using Nat.strong_induction_on generalizing rest with
  | _ n ih =>
    by_cases hlt : n < 10
    · rw [Nat.toDigits_of_lt_base hlt, List.singleton_append, hstep none n rest hlt,
        Option.getD_none, Nat.zero_mul, Nat.zero_add]
    · rw [Nat.toDigits_of_base_le (by decide) (by omega), List.append_assoc,
        List.singleton_append, ih (n / 10) (by omega), hstep _ _ _ (Nat.mod_lt n (by decide)),
        Option.getD_some, Nat.div_add_mod']

theorem numbers?_append (ns : List Nat) (rest : List Char) :
    numbers? none ((String.intercalate ", " (ns.map Nat.repr)).toList ++ ']' :: rest) =
      some (ns, rest) := by
  induction ns with
  | nil => rfl
  | cons n ns ih =>
    cases ns with
    | nil =>
      rw [List.map_singleton, String.intercalate_singleton, Nat.toList_repr, numbers?_toDigits]
      rfl
    | cons m ns =>
      have hcomma : (", " : String).toList = [',', ' '] := by decide
      rw [List.map_cons] at ih
      rw [List.map_cons, List.map_cons, String.intercalate_cons_cons, String.toList_append,
        String.toList_append, hcomma, Nat.toList_repr, List.append_assoc, List.append_assoc,
        numbers?_toDigits]
      show (numbers? none ((", ".intercalate _).toList ++ _)).map _ = _
      rw [ih, Option.map_some]

end SourceReader

/-! ## 3. Expressions -/

namespace FormatExpr

/-- The names of an expression can be taken for names. -/
def Named : FormatExpr → Prop
  | .array element _ => element.Named
  | .enumCall function => SourceReader.IsName function
  | .message name => SourceReader.IsName name
  | _ => True

/-- How many arrays stand in each other. -/
def arrays : FormatExpr → Nat
  | .array element _ => element.arrays + 1
  | _ => 0

theorem text_int (bits : Nat) :
    (FormatExpr.int bits).text = "Processor::Int(" ++ bits.repr ++ ")" :=
  rfl

theorem text_uint (bits : Nat) :
    (FormatExpr.uint bits).text = "Processor::Uint(" ++ bits.repr ++ ")" :=
  rfl

theorem text_array (element : FormatExpr) (capacity : Nat) :
    (FormatExpr.array element capacity).text =
      "Processor::array(" ++ element.text ++ ", " ++ capacity.repr ++ ")" :=
  rfl

theorem text_enumCall (function : String) :
    (FormatExpr.enumCall function).text = function ++ "()" :=
  rfl

theorem text_message (name : String) : (FormatExpr.message name).text =
    "Processor::Message(Arc::clone(" ++ name ++ "::processor()))" :=
  rfl

theorem toList_text_int (bits : Nat) : (FormatExpr.int bits).text.toList =
    "Processor::".toList ++ ("Int(".toList ++ (bits.repr.toList ++ ")".toList)) := by
  have hfront : "Processor::Int(".toList = "Processor::".toList ++ "Int(".toList := by decide
  rw [text_int, String.toList_append, String.toList_append, hfront, List.append_assoc,
    List.append_assoc]

theorem toList_text_uint (bits : Nat) : (FormatExpr.uint bits).text.toList =
    "Processor::".toList ++ ("Uint(".toList ++ (bits.repr.toList ++ ")".toList)) := by
  have hfront : "Processor::Uint(".toList = "Processor::".toList ++ "Uint(".toList := by decide
  rw [text_uint, String.toList_append, String.toList_append, hfront, List.append_assoc,
    List.append_assoc]

theorem toList_text_array (element : FormatExpr) (capacity : Nat) :
    (FormatExpr.array element capacity).text.toList =
      "Processor::".toList ++ ("array(".toList ++ (element.text.toList ++
        (", ".toList ++ (capacity.repr.toList ++ ")".toList)))) := by
  have hfront : "Processor::array(".toList = "Processor::".toList ++ "array(".toList := by decide
  rw [text_array]
  simp only [String.toList_append, hfront, List.append_assoc]

theorem toList_text_message (name : String) : (FormatExpr.message name).text.toList =
    "Processor::".toList ++ ("Message(Arc::clone(".toList ++
      (name.toList ++ "::processor()))".toList)) := by
  have hfront : "Processor::Message(Arc::clone(".toList =
    "Processor::".toList ++ "Message(Arc::clone(".toList := by decide
  rw [text_message, String.toList_append, String.toList_append, hfront, List.append_assoc,
    List.append_assoc]

theorem arrays_le_length (e : FormatExpr) : e.arrays ≤ e.text.toList.length := by
  induction e with
  | array element capacity ih =>
    rw [toList_text_array, arrays]
    simp only [List.length_append]
    have hopen : "array(".toList.length = 6 := by decide
    omega
  | _ => exact Nat.zero_le _

end FormatExpr

namespace SourceReader

-- A name is not taken for the start of a path.
theorem literal?_path_name {name : String} (h : IsName name) (rest : List Char) :
    literal? "Processor::" (name.toList ++ ("()".toList ++ rest)) = none := by
  rw [literal?, Option.eq_none_iff_forall_ne_some]
  intro after hafter
  obtain ⟨front, hsplit, hfront⟩ := List.dropPrefix?_eq_some_iff.mp hafter
  have hpath : "Processor::".toList = "Processor".toList ++ [':', ':'] := by decide
  have hcall : "()".toList = ['(', ')'] := by decide
  rw [eq_of_beq hfront, hpath, hcall, List.append_assoc] at hsplit
  have hprocessor : IsName "Processor" := by decide
  cases (name_append_inj h hprocessor rfl rfl hsplit).2

theorem formatExpr?_append {e : FormatExpr} (h : e.Named) {arrays : Nat}
    (harrays : e.arrays ≤ arrays) (rest : List Char) :
    formatExpr? arrays (e.text.toList ++ rest) = some (e, rest) := by
  induction e generalizing arrays rest with
  | bool =>
    have htext : FormatExpr.bool.text.toList = "Processor::".toList ++ "Bool".toList := by decide
    rw [htext, List.append_assoc, formatExpr?, literal?_append]
    simp only [literal?_append, Option.map_some]
    rfl
  | int bits =>
    rw [FormatExpr.toList_text_int, formatExpr?]
    simp (disch := decide) only [List.append_assoc, literal?_append, literal?_eq_none,
      numberBefore?_append, Option.map_none, Option.bind_some, Option.map_some]
    rfl
  | uint bits =>
    rw [FormatExpr.toList_text_uint, formatExpr?]
    simp (disch := decide) only [List.append_assoc, literal?_append, literal?_eq_none,
      numberBefore?_append, Option.map_none, Option.bind_none, Option.bind_some, Option.map_some]
    rfl
  | array element capacity ih =>
    obtain ⟨k, rfl⟩ : ∃ k, arrays = k + 1 := ⟨arrays - 1, by rw [FormatExpr.arrays] at harrays; omega⟩
    rw [FormatExpr.toList_text_array, formatExpr?]
    have helement := ih h (Nat.le_of_succ_le_succ harrays)
    simp (disch := decide) only [List.append_assoc, literal?_append, literal?_eq_none,
      numberBefore?_append, Option.map_none, Option.bind_none, Option.bind_some, helement,
      Option.bind_eq_bind, Option.pure_def]
    rfl
  | enumCall function =>
    rw [FormatExpr.text_enumCall, String.toList_append, List.append_assoc, formatExpr?, literal?_path_name h]
    simp (disch := decide) only [nameBefore?_append h, Option.map_some]
  | message name =>
    rw [FormatExpr.toList_text_message, formatExpr?]
    simp (disch := decide) only [List.append_assoc, literal?_append, literal?_eq_none,
      nameBefore?_append h, Option.map_none, Option.bind_none, Option.bind_some, Option.map_some]
    rfl

theorem formatExpr?_self {e : FormatExpr} (h : e.Named) (rest : List Char) :
    formatExpr? (e.text.toList ++ rest).length (e.text.toList ++ rest) = some (e, rest) := by
  refine formatExpr?_append h ?_ rest
  rw [List.length_append]
  exact e.arrays_le_length.trans (Nat.le_add_right _ _)

end SourceReader

end Bitwire
