import Bitwire.Proofs.JsonUnits

/-!
# Texts that are read, and texts that are printed

From the units of a value the grammar builds the value, so whatever text spells a value is read as
that value.  The compact and the indented text of a value both spell it.  So the reader and the
printers of this development make a library that does what is documented.
-/

namespace Bitwire

namespace Json

/-! ## 1. Induction -/

/-- Induction over JSON values. -/
@[elab_as_elim]
theorem induct {motive : Json → Prop} (null : motive .null) (bool : ∀ b, motive (.bool b))
    (int : ∀ v, motive (.int v)) (str : ∀ s, motive (.str s))
    (arr : ∀ items, (∀ item ∈ items, motive item) → motive (.arr items))
    (obj : ∀ members : List (String × Json), (∀ member ∈ members, motive member.2) →
      motive (.obj members))
    (foreign : motive .foreign) (v : Json) : motive v := by
  refine @Json.rec motive (fun items => ∀ item ∈ items, motive item)
    (fun members => ∀ member ∈ members, motive member.2) (fun member => motive member.2)
    null bool int str arr obj foreign ?_ (fun item rest hitem hrest => ?_) ?_
    (fun member rest hmember hrest => ?_) (fun _ _ h => h) v
  · exact fun item hitem => absurd hitem List.not_mem_nil
  · rw [List.forall_mem_cons]
    exact ⟨hitem, hrest⟩
  · exact fun member hmember => absurd hmember List.not_mem_nil
  · rw [List.forall_mem_cons]
    exact ⟨hmember, hrest⟩

theorem itemTokens_eq_map (items : List Json) : itemTokens items = items.map tokens := by
  induction items with
  | nil => rfl
  | cons item rest ih => rw [itemTokens, ih, List.map_cons]

theorem memberTokens_eq_map (members : List (String × Json)) :
    memberTokens members =
      members.map fun member => .string (some member.1) :: .colon :: member.2.tokens := by
  induction members with
  | nil => rfl
  | cons member rest ih => rw [memberTokens, ih, List.map_cons]

/-! ## 2. The grammar -/

namespace ReadState

/-- The units of the value are read as the value, wherever one may stand. -/
def Reads (v : Json) : Prop :=
  ∀ stack rest, (ReadState.value stack).run? (v.tokens ++ rest) = (deliver v stack).run? rest

theorem deliver_array (v : Json) (items : List Json) (stack : List Unfinished) :
    deliver v (.array items :: stack) = .separator (.array (v :: items)) stack :=
  rfl

theorem deliver_object (v : Json) (members : List (Option String × Json)) (name : Option String)
    (stack : List Unfinished) : deliver v (.object members name :: stack) =
      .separator (.object ((name, v) :: members) name) stack :=
  rfl

-- No value starts with the end of an array, so the first element is read like all others.
theorem run?_firstItem (v : Json) (stack : List Unfinished) (rest : List JsonToken) :
    (ReadState.firstItem stack).run? (v.tokens ++ rest) =
      (ReadState.value (.array [] :: stack)).run? (v.tokens ++ rest) := by
  cases v <;> simp only [tokens, List.cons_append] <;> rfl

theorem run?_items {item : Json} {others : List Json} (hitem : Reads item)
    (hothers : ∀ other ∈ others, Reads other) (before : List Json) (stack : List Unfinished)
    (rest : List JsonToken) :
    (ReadState.value (.array before :: stack)).run?
        ([.comma].intercalate (itemTokens (item :: others)) ++ .closeArray :: rest) =
      (deliver (.arr (before.reverse ++ item :: others)) stack).run? rest := by
  induction others generalizing item before with
  | nil =>
    rw [itemTokens, itemTokens, List.intercalate_singleton, hitem, deliver_array]
    simp only [run?, step?, List.reverse_cons]
  | cons next after ih =>
    obtain ⟨hnext, hafter⟩ := List.forall_mem_cons.mp hothers
    rw [itemTokens, itemTokens, List.intercalate_cons_cons, ← itemTokens, List.append_assoc,
      List.append_assoc, hitem, deliver_array, List.singleton_append]
    simp only [run?, step?]
    rw [ih hnext hafter, List.reverse_cons, List.append_assoc, List.singleton_append]

theorem objectOf_some (members : List (String × Json)) :
    objectOf (members.map fun member => (some member.1, member.2)) = .obj members := by
  have hread : ∀ f : Option String × Json → Option (String × Json),
      (∀ member : String × Json, f (some member.1, member.2) = some member) →
      (members.map fun member => (some member.1, member.2)).mapM f = some members := by
    intro f hf
    induction members with
    | nil => rfl
    | cons member rest ih =>
      rw [List.map_cons, List.mapM_cons, hf, ih]
      rfl
  rw [objectOf, hread]
  exact fun member => rfl

theorem run?_members {member : String × Json} {others : List (String × Json)}
    (hmember : Reads member.2) (hothers : ∀ other ∈ others, Reads other.2)
    (before : List (Option String × Json)) (stack : List Unfinished) (rest : List JsonToken) :
    (ReadState.memberName before stack).run?
        ([.comma].intercalate (memberTokens (member :: others)) ++ .closeObject :: rest) =
      (deliver (objectOf (before.reverse ++
        (member :: others).map fun member => (some member.1, member.2))) stack).run? rest := by
  induction others generalizing member before with
  | nil =>
    rw [memberTokens, memberTokens, List.intercalate_singleton, List.cons_append, List.cons_append]
    simp only [run?, step?]
    rw [hmember, deliver_object]
    simp only [run?, step?, List.reverse_cons, List.map_cons, List.map_nil]
  | cons next after ih =>
    obtain ⟨hnext, hafter⟩ := List.forall_mem_cons.mp hothers
    rw [memberTokens, memberTokens, List.intercalate_cons_cons, ← memberTokens, List.append_assoc,
      List.append_assoc, List.cons_append, List.cons_append]
    simp only [run?, step?]
    rw [hmember, deliver_object, List.singleton_append]
    simp only [run?, step?]
    rw [ih hnext hafter, List.reverse_cons, List.append_assoc, List.singleton_append]
    rfl

-- A list between separators starts like its first part.
theorem exists_intercalate_cons {α : Type} (separator first : List α) (others : List (List α)) :
    ∃ more, separator.intercalate (first :: others) = first ++ more := by
  cases others with
  | nil => exact ⟨[], by rw [List.intercalate_singleton, List.append_nil]⟩
  | cons next after => exact ⟨_, by rw [List.intercalate_cons_cons, List.append_assoc]⟩

/-- A value is read from its units. -/
theorem reads (v : Json) : Reads v := by
  induction v using Json.induct with
  | null => exact fun _ _ => rfl
  | bool b => exact fun _ _ => rfl
  | int n => exact fun _ _ => rfl
  | str s => exact fun _ _ => rfl
  | foreign => exact fun _ _ => rfl
  | arr items ih =>
    intro stack rest
    cases items with
    | nil => rfl
    | cons item others =>
      obtain ⟨hitem, hothers⟩ := List.forall_mem_cons.mp ih
      have hitems := run?_items hitem hothers [] stack rest
      obtain ⟨more, hmore⟩ := exists_intercalate_cons [.comma] item.tokens (itemTokens others)
      rw [itemTokens, hmore, List.append_assoc, ← run?_firstItem, ← List.append_assoc, ← hmore,
        ← itemTokens] at hitems
      rw [tokens, List.cons_append, List.append_assoc, List.singleton_append]
      exact hitems
  | obj members ih =>
    intro stack rest
    cases members with
    | nil => rfl
    | cons member others =>
      obtain ⟨hmember, hothers⟩ := List.forall_mem_cons.mp ih
      have hmembers := run?_members hmember hothers [] stack rest
      rw [List.reverse_nil, List.nil_append, objectOf_some] at hmembers
      obtain ⟨more, hmore⟩ := exists_intercalate_cons [.comma]
        (.string (some member.1) :: .colon :: member.2.tokens) (memberTokens others)
      rw [tokens, List.cons_append, List.append_assoc, List.singleton_append, ← hmembers,
        memberTokens, hmore]
      rfl

end ReadState

/-! ## 3. Units side by side -/

-- A mark keeps apart what stands around it.
theorem isChain_append_cons {mark : JsonToken} (hmark : mark.isScalar = false)
    {front back : List JsonToken} (hfront : front.IsChain JsonToken.Apart)
    (hback : back.IsChain JsonToken.Apart) : (front ++ mark :: back).IsChain JsonToken.Apart := by
  rw [List.isChain_append]
  refine ⟨hfront, List.isChain_cons.mpr ⟨fun _ _ => Or.inl hmark, hback⟩, ?_⟩
  rintro last - next hnext
  rw [List.head?_cons, Option.mem_some_iff] at hnext
  exact Or.inr (hnext ▸ hmark)

theorem isChain_intercalate {parts : List (List JsonToken)}
    (h : ∀ part ∈ parts, part.IsChain JsonToken.Apart) :
    ([.comma].intercalate parts).IsChain JsonToken.Apart := by
  induction parts with
  | nil => exact List.isChain_nil
  | cons part rest ih =>
    obtain ⟨hpart, hrest⟩ := List.forall_mem_cons.mp h
    cases rest with
    | nil =>
      rw [List.intercalate_singleton]
      exact hpart
    | cons next rest =>
      rw [List.intercalate_cons_cons, List.append_assoc, List.singleton_append]
      exact isChain_append_cons rfl hpart (ih hrest)

-- Between marks there are the units of values.
theorem isChain_enclosed {opening closing : JsonToken} (hopening : opening.isScalar = false)
    (hclosing : closing.isScalar = false) {parts : List (List JsonToken)}
    (h : ∀ part ∈ parts, part.IsChain JsonToken.Apart) :
    (opening :: ([.comma].intercalate parts ++ [closing])).IsChain JsonToken.Apart := by
  refine @isChain_append_cons opening hopening [] _ List.isChain_nil ?_
  exact isChain_append_cons hclosing (isChain_intercalate h) List.isChain_nil

/-- No two values stand side by side among the units of a value. -/
theorem isChain_tokens (v : Json) : v.tokens.IsChain JsonToken.Apart := by
  induction v using Json.induct with
  | null | bool | int | str | foreign => exact List.isChain_singleton _
  | arr items ih =>
    rw [tokens, itemTokens_eq_map]
    exact isChain_enclosed rfl rfl (List.forall_mem_map.mpr ih)
  | obj members ih =>
    rw [tokens, memberTokens_eq_map]
    refine isChain_enclosed rfl rfl (List.forall_mem_map.mpr fun member hmember => ?_)
    exact @isChain_append_cons .colon rfl [_] _ (List.isChain_singleton _) (ih member hmember)

/-- A text that spells a value is read as the value. -/
theorem parse?_of_spells {v : Json} {text : String} (h : v.Spells text) : parse? text = some v := by
  have hread := ReadState.reads v [] []
  rw [List.append_nil] at hread
  rw [parse?, JsonToken.SpellsAll.ofChars?_eq h v.isChain_tokens]
  dsimp only
  rw [hread]
  rfl

end Json

/-! ## 4. Printed texts -/

namespace JsonToken

-- The digits behind the escape of a control are read as that control.
theorem hexUnit?_control {n : Nat} (h : n < 0x20) :
    hexUnit? '0' '0' (if n < 0x10 then '0' else '1') (n % 0x10).digitChar = some n := by
  revert n
  decide

theorem hex_toList {n : Nat} (h : n < 0x20) :
    (Text.hex n).toList = (if n < 0x10 then [] else ['1']) ++ [(n % 0x10).digitChar] := by
  rw [Text.hex, String.toList_ofList]
  revert n
  decide

/-- A character is spelled by its printed form. -/
theorem spells_escapedChar (c : Char) : SpellsChar (Json.escapedChar c).toList c := by
  unfold Json.escapedChar
  split
  iterate 7 exact .escape rfl
  next hquote hslash _ _ _ _ _ =>
    split_ifs with hlow hcontrol
    · have hunit := hexUnit?_control (by omega : c.toNat < 0x20)
      rw [if_pos hlow] at hunit
      rw [String.toList_append, hex_toList (by omega), if_pos hlow]
      exact .unit hunit
    · have hunit := hexUnit?_control hcontrol
      rw [if_neg hlow] at hunit
      rw [String.toList_append, hex_toList hcontrol, if_neg hlow]
      exact .unit hunit
    · rw [Char.toString, String.toList_singleton]
      exact .plain hquote hslash (by omega)

theorem spells_escaped (cs : List Char) :
    SpellsChars (cs.flatMap fun c => (Json.escapedChar c).toList) cs := by
  induction cs with
  | nil => exact .nil
  | cons c cs ih => exact .cons (spells_escapedChar c) ih

theorem spells_stringText (s : String) : Spells (Json.stringText s).toList (.string (some s)) := by
  have htext : (Json.stringText s).toList =
      '"' :: (s.toList.flatMap (fun c => (Json.escapedChar c).toList) ++ ['"']) := by
    simp [Json.stringText, String.toList_join, List.flatMap_map]
  rw [htext]
  exact .string (spells_escaped s.toList)

namespace SpellsAll

theorem blanks {gap cs : List Char} {tokens : List JsonToken}
    (hgap : ∀ c ∈ gap, isBlank c = true) (h : SpellsAll cs tokens) :
    SpellsAll (gap ++ cs) tokens := by
  cases h with
  | done hblank => exact .done (List.forall_mem_append.mpr ⟨hgap, hblank⟩)
  | unit hblank hfront hrest =>
    rw [← List.append_assoc]
    exact .unit (List.forall_mem_append.mpr ⟨hgap, hblank⟩) hfront hrest

theorem append {cs cs' : List Char} {tokens tokens' : List JsonToken} (h : SpellsAll cs tokens)
    (h' : SpellsAll cs' tokens') : SpellsAll (cs ++ cs') (tokens ++ tokens') := by
  induction h with
  | done hgap => exact h'.blanks hgap
  | unit hgap hfront _ ih =>
    rw [List.append_assoc, List.append_assoc]
    exact .unit hgap hfront ih

theorem of_spells {cs : List Char} {token : JsonToken} (h : Spells cs token) :
    SpellsAll cs [token] := by
  have hall := @SpellsAll.unit [] cs [] token [] (by simp) h (@SpellsAll.done [] (by simp))
  rwa [List.nil_append, List.append_nil] at hall

-- A mark in front of other units.
theorem cons {front cs : List Char} {token : JsonToken} {tokens : List JsonToken}
    (hfront : Spells front token) (h : SpellsAll cs tokens) :
    SpellsAll (front ++ cs) (token :: tokens) :=
  (of_spells hfront).append h

-- Parts with commas and white space between them.
theorem separated {texts : List String} {parts : List (List JsonToken)} {gap : String}
    (hgap : ∀ c ∈ gap.toList, isBlank c = true)
    (h : List.Forall₂ (fun text part => SpellsAll text.toList part) texts parts) :
    SpellsAll (String.intercalate ("," ++ gap) texts).toList ([.comma].intercalate parts) := by
  induction h with
  | nil => exact .done (by simp)
  | cons hfirst hrest ih =>
    cases hrest with
    | nil =>
      rw [String.intercalate_singleton, List.intercalate_singleton]
      exact hfirst
    | cons =>
      rw [String.intercalate_cons_cons, List.intercalate_cons_cons, String.toList_append,
        String.toList_append, String.toList_append, List.append_assoc, List.append_assoc,
        List.append_assoc]
      exact hfirst.append (.cons .comma (ih.blanks hgap))

/-- Parts between brackets, with white space around each of them. -/
theorem enclosed {left right : String} {opening closing : JsonToken}
    (hleft : Spells left.toList opening) (hright : Spells right.toList closing)
    {before between after : String} (hbefore : ∀ c ∈ before.toList, isBlank c = true)
    (hbetween : ∀ c ∈ between.toList, isBlank c = true)
    (hafter : ∀ c ∈ after.toList, isBlank c = true) {texts : List String}
    {parts : List (List JsonToken)}
    (h : List.Forall₂ (fun text part => SpellsAll text.toList part) texts parts) :
    SpellsAll (left ++ before ++ String.intercalate ("," ++ between) texts ++ after ++ right).toList
      (opening :: ([.comma].intercalate parts ++ [closing])) := by
  have hend := (of_spells hright).blanks hafter
  have hall := SpellsAll.cons hleft (((separated hbetween h).append hend).blanks hbefore)
  simpa only [String.toList_append, List.append_assoc] using hall

end SpellsAll

end JsonToken

namespace Json

/-- A value that has a text of its own. -/
inductive Native : Json → Prop
  | null : Native .null
  | bool (b : Bool) : Native (.bool b)
  | int (v : Int) : Native (.int v)
  | str (s : String) : Native (.str s)
  | arr {items : List Json} (h : ∀ item ∈ items, Native item) : Native (.arr items)
  | obj {members : List (String × Json)} (h : ∀ member ∈ members, Native member.2) :
    Native (.obj members)

theorem native_arr_iff (items : List Json) :
    (Json.arr items).Native ↔ ∀ item ∈ items, item.Native := by
  constructor
  · rintro ⟨⟩
    assumption
  · exact .arr

theorem native_obj_iff (members : List (String × Json)) :
    (Json.obj members).Native ↔ ∀ member ∈ members, member.2.Native := by
  constructor
  · rintro ⟨⟩
    assumption
  · exact .obj

theorem spells_array {before between after : String}
    (hbefore : ∀ c ∈ before.toList, JsonToken.isBlank c = true)
    (hbetween : ∀ c ∈ between.toList, JsonToken.isBlank c = true)
    (hafter : ∀ c ∈ after.toList, JsonToken.isBlank c = true)
    {items : List Json} {text : Json → String} (h : ∀ item ∈ items, item.Spells (text item)) :
    (Json.arr items).Spells
      ("[" ++ before ++ String.intercalate ("," ++ between) (items.map text) ++ after ++ "]") := by
  have hleft : JsonToken.Spells "[".toList .openArray := .openArray
  have hright : JsonToken.Spells "]".toList .closeArray := .closeArray
  rw [Spells, tokens, itemTokens_eq_map]
  refine JsonToken.SpellsAll.enclosed hleft hright hbefore hbetween hafter ?_
  rw [List.forall₂_map_left_iff, List.forall₂_map_right_iff, List.forall₂_same]
  exact h

theorem spells_object {before between after behind : String}
    (hbefore : ∀ c ∈ before.toList, JsonToken.isBlank c = true)
    (hbetween : ∀ c ∈ between.toList, JsonToken.isBlank c = true)
    (hafter : ∀ c ∈ after.toList, JsonToken.isBlank c = true)
    (hbehind : ∀ c ∈ behind.toList, JsonToken.isBlank c = true)
    {members : List (String × Json)} {text : Json → String}
    (h : ∀ member ∈ members, member.2.Spells (text member.2)) :
    (Json.obj members).Spells
      ("\x7b" ++ before ++ String.intercalate ("," ++ between)
        (members.map fun member => stringText member.1 ++ (":" ++ behind) ++ text member.2) ++
        after ++ "\x7d") := by
  have hleft : JsonToken.Spells "\x7b".toList .openObject := .openObject
  have hright : JsonToken.Spells "\x7d".toList .closeObject := .closeObject
  rw [Spells, tokens, memberTokens_eq_map]
  refine JsonToken.SpellsAll.enclosed hleft hright hbefore hbetween hafter ?_
  rw [List.forall₂_map_left_iff, List.forall₂_map_right_iff, List.forall₂_same]
  intro member hmember
  rw [String.append_assoc, String.append_assoc, String.toList_append, String.toList_append,
    String.toList_append]
  exact .cons (JsonToken.spells_stringText member.1) (.cons .colon ((h member hmember).blanks hbehind))

theorem compactItems_eq_map (items : List Json) : compactItems items = items.map compact := by
  induction items with
  | nil => rfl
  | cons item rest ih => rw [compactItems, ih, List.map_cons]

theorem compactMembers_eq_map (members : List (String × Json)) :
    compactMembers members =
      members.map fun member => stringText member.1 ++ ":" ++ member.2.compact := by
  induction members with
  | nil => rfl
  | cons member rest ih => rw [compactMembers, ih, List.map_cons]

theorem prettyItems_eq_map (depth : Nat) (items : List Json) :
    prettyItems depth items = items.map (prettyAt depth) := by
  induction items with
  | nil => rfl
  | cons item rest ih => rw [prettyItems, ih, List.map_cons]

theorem prettyMembers_eq_map (depth : Nat) (members : List (String × Json)) :
    prettyMembers depth members =
      members.map fun member => stringText member.1 ++ ": " ++ member.2.prettyAt depth := by
  induction members with
  | nil => rfl
  | cons member rest ih => rw [prettyMembers, ih, List.map_cons]

theorem isBlank_newline (depth : Nat) : ∀ c ∈ (newline depth).toList, JsonToken.isBlank c = true := by
  intro c hc
  rw [newline, String.toList_append, List.mem_append] at hc
  obtain hc | hc := hc
  · obtain rfl := List.mem_singleton.mp hc
    rfl
  · rw [String.toList_ofList] at hc
    rw [List.eq_of_mem_replicate hc]
    rfl

/-- The compact text of a value spells it. -/
theorem spells_compact {v : Json} (h : v.Native) : v.Spells v.compact := by
  induction h with
  | null => exact .of_spells .null
  | bool b => exact .of_spells (.bool b)
  | int n => exact .of_spells (.int n)
  | str s => exact .of_spells (JsonToken.spells_stringText s)
  | arr _ ih =>
    have hnone : ∀ c ∈ "".toList, JsonToken.isBlank c = true := by simp
    rw [compact, compactItems_eq_map]
    simpa only [String.append_empty] using spells_array hnone hnone hnone ih
  | obj _ ih =>
    have hnone : ∀ c ∈ "".toList, JsonToken.isBlank c = true := by simp
    rw [compact, compactMembers_eq_map]
    simpa only [String.append_empty] using spells_object hnone hnone hnone hnone ih

-- Between the brackets and the parts of a block there is white space only.
theorem exists_gaps (left right : String) (depth : Nat) (texts : List String) :
    ∃ before between after : String, (∀ c ∈ before.toList, JsonToken.isBlank c = true) ∧
      (∀ c ∈ between.toList, JsonToken.isBlank c = true) ∧
      (∀ c ∈ after.toList, JsonToken.isBlank c = true) ∧
      block left right depth texts =
        left ++ before ++ String.intercalate ("," ++ between) texts ++ after ++ right := by
  cases texts with
  | nil =>
    refine ⟨"", "", "", by simp, by simp, by simp, ?_⟩
    simp only [block, List.isEmpty_nil, if_true, String.intercalate_nil, String.append_empty]
  | cons text rest =>
    exact ⟨newline (depth + 1), newline (depth + 1), newline depth, isBlank_newline _,
      isBlank_newline _, isBlank_newline _, rfl⟩

/-- The indented text of a value, at any depth, spells it. -/
theorem spells_prettyAt {v : Json} (h : v.Native) (depth : Nat) : v.Spells (v.prettyAt depth) := by
  induction h generalizing depth with
  | null => exact .of_spells .null
  | bool b => exact .of_spells (.bool b)
  | int n => exact .of_spells (.int n)
  | str s => exact .of_spells (JsonToken.spells_stringText s)
  | arr _ ih =>
    rw [prettyAt, prettyItems_eq_map]
    obtain ⟨before, between, after, hbefore, hbetween, hafter, hblock⟩ := exists_gaps _ _ _ _
    rw [hblock]
    exact spells_array hbefore hbetween hafter fun item hitem => ih item hitem (depth + 1)
  | obj _ ih =>
    rw [prettyAt, prettyMembers_eq_map]
    obtain ⟨before, between, after, hbefore, hbetween, hafter, hblock⟩ := exists_gaps _ _ _ _
    rw [hblock]
    have hbehind : ∀ c ∈ " ".toList, JsonToken.isBlank c = true := by simp [JsonToken.isBlank]
    exact spells_object hbefore hbetween hafter hbehind
      fun member hmember => ih member hmember (depth + 1)

end Json

/-! ## 5. The library of this development -/

/-- The library of this development does what is documented, if every value is represented by a JSON
value that has a text, and what a JSON value stands for is read from it. -/
theorem JsonLibrary.standard_documented {α : Type} {toJson : α → Json} {ofJson? : Json → Option α}
    {StandsFor : Json → α → Prop} (hnative : ∀ a, (toJson a).Native)
    (hread : ∀ v a, v.nesting ≤ DocumentReader.maxNesting → StandsFor v a → ofJson? v = some a) :
    (standard toJson ofJson?).Documented toJson StandsFor where
  read {text v a} htext hnesting ha := by
    show (Json.parse? text).bind ofJson? = some a
    rw [Json.parse?_of_spells htext, Option.bind_some, hread v a hnesting ha]
  compact a := ⟨_, rfl, Json.spells_compact (hnative a)⟩
  pretty a := ⟨_, rfl, Json.spells_prettyAt (hnative a) 0⟩

end Bitwire
