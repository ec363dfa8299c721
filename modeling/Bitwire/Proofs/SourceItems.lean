import Bitwire.Proofs.SourceLines
import Bitwire.Source.Module

/-!
# What written source says

A reader of generated source finds every item that says something about formats or sizes, and no
other: all other lines start in a way in which no such item starts.  One constant may be taken for
a size that is none, the value of an enum that bears the name of the type of sizes.
-/

namespace Bitwire

namespace SourceReader

/-! ## 1. Lines that say nothing -/

/-- No item starts at a line, whatever follows it. -/
def Silent (line : List Char) : Prop :=
  ∀ lines, item? line lines = none

theorem literal?_nil {text : String} (h : text.toList ≠ []) : literal? text [] = none := by
  obtain ⟨c, cs, hcs⟩ := List.exists_cons_of_ne_nil h
  rw [literal?, hcs]
  rfl

theorem literal?_cons_of_ne {text : String} {c first : Char} (htext : text.toList.head? = some first)
    (h : c ≠ first) (rest : List Char) : literal? text (c :: rest) = none := by
  obtain ⟨cs, hcs⟩ := List.head?_eq_some_iff.mp htext
  rw [literal?, hcs]
  exact if_neg (by simpa using h)

-- It is enough that none of the three kinds of items starts in this way.
theorem silent_of_literals {line : List Char} (hconst : byteCount? line = none)
    (hfn : nameBetween? "pub fn " "() -> Processor \x7b" line = none)
    (himpl : literal? "impl BitMessage for " line = none) : Silent line := by
  intro lines
  rw [item?, hconst, hfn, nameBetween?, himpl]
  rfl

/-- How the items that are read start. -/
def starts : List String :=
  ["pub const ", "pub fn ", "impl BitMessage for "]

-- A line that starts in another way says nothing.
theorem silent_of_starts {line : List Char} (h : ∀ start ∈ starts, literal? start line = none) :
    Silent line := by
  refine silent_of_literals ?_ ?_ (h _ (by simp [starts]))
  · rw [byteCount?, h _ (by simp [starts])]
    rfl
  · rw [nameBetween?, h _ (by simp [starts])]
    rfl

theorem silent_nil : Silent [] := by
  refine silent_of_starts fun start hstart => literal?_nil ?_
  fin_cases hstart <;> decide

theorem silent_of_start (front : String)
    (h : ∀ start ∈ starts, ¬ start.toList <+: front.toList ∧ ¬ front.toList <+: start.toList)
    (rest : List Char) : Silent (front.toList ++ rest) :=
  silent_of_starts fun start hstart =>
    literal?_eq_none start front (h start hstart).1 (h start hstart).2 rest

-- A fixed text, given by its characters.
theorem silent_chars {text : String} (cs : List Char) (h : text = String.ofList cs)
    (hcs : cs.head?.all (fun c => c != 'p' && c != 'i') = true) : Silent text.toList := by
  rw [h, String.toList_ofList]
  cases cs with
  | nil => exact silent_nil
  | cons c rest =>
    obtain ⟨hp, hi⟩ : c ≠ 'p' ∧ c ≠ 'i' := by simpa using hcs
    refine silent_of_starts fun start hstart => ?_
    fin_cases hstart
    · exact literal?_cons_of_ne (by decide) hp rest
    · exact literal?_cons_of_ne (by decide) hp rest
    · exact literal?_cons_of_ne (by decide) hi rest

theorem silent_deeper (line : List Char) : Silent (deeper line) := by
  cases line with
  | nil => exact silent_nil
  | cons c cs => exact silent_of_start "    " (by decide) _

theorem nameBefore?_eq_none {name stop : String} {back : List Char} (h : IsName name)
    (hback : back.head?.any endsName = true) (hne : literal? stop back = none) :
    nameBefore? stop (name.toList ++ back) = none := by
  rw [nameBefore?, (cut_name h hback).2, hne, Option.map_none]

-- A constant that has another type than the size of a message.
theorem silent_constant {ident : String} {back : List Char} (h : IsName ident)
    (hback : back.head?.any endsName = true) (hne : literal? ": usize = " back = none) :
    Silent ("pub const ".toList ++ (ident.toList ++ back)) := by
  refine silent_of_literals ?_ ?_ (literal?_eq_none _ _ (by decide) (by decide) _)
  · rw [byteCount?, literal?_append, Option.bind_eq_bind, Option.bind_some,
      nameBefore?_eq_none h hback hne]
    rfl
  · rw [nameBetween?, literal?_eq_none _ _ (by decide) (by decide)]
    rfl

-- A function that is not without arguments.
theorem silent_function {function : String} {back : List Char} (h : IsName function)
    (hback : back.head?.any endsName = true)
    (hne : literal? "() -> Processor \x7b" back = none) :
    Silent ("pub fn ".toList ++ (function.toList ++ back)) := by
  refine silent_of_literals ?_ ?_ (literal?_eq_none _ _ (by decide) (by decide) _)
  · rw [byteCount?, literal?_eq_none _ _ (by decide) (by decide)]
    rfl
  · rw [nameBetween?, literal?_append, Option.bind_eq_bind, Option.bind_some,
      nameBefore?_eq_none h hback hne]
    rfl

/-! ## 2. Items -/

theorem items_append_of_silent {front : List (List Char)} (h : ∀ line ∈ front, Silent line)
    (rest : List (List Char)) : items (front ++ rest) = items rest := by
  induction front with
  | nil => rfl
  | cons line front ih =>
    obtain ⟨hline, hfront⟩ := List.forall_mem_cons.mp h
    rw [List.cons_append, items, hline, ih hfront]
    rfl

-- Of lines between braces only the first one may say something.
theorem items_braced {head : String} {body : List String} {first : List Char}
    {others : List (List Char)}
    (h : (Lines.braced head body).map String.toList = first :: others)
    (rest : List (List Char)) :
    items ((Lines.braced head body).map String.toList ++ rest) =
      (item? first (others ++ rest)).toList ++ items rest := by
  have hinner : ∀ line ∈ others, Silent line := by
    intro line hline
    rw [← (List.cons.inj ((toList_braced head body).symm.trans h)).2] at hline
    rcases List.mem_append.mp hline with hbody | hclose
    · obtain ⟨text, -, rfl⟩ := List.mem_map.mp hbody
      exact silent_deeper text
    · rw [List.mem_singleton.mp hclose]
      exact silent_of_start "\x7d" (by decide) []
  rw [h, List.cons_append, items, items_append_of_silent hinner]

theorem items_braced_of_silent {head : String} (body : List String)
    (h : Silent (head ++ " \x7b").toList) (rest : List (List Char)) :
    items ((Lines.braced head body).map String.toList ++ rest) = items rest := by
  rw [items_braced (toList_braced head body), h]
  rfl

/-- What is read from the lines of an item. -/
def said : Item → List Item
  | .enumValue ident enumName value =>
    -- the type that sizes have, if an enum bears its name
    if enumName = "usize" then [.byteCount ident value.toNat] else []
  | .enumFormat function enumName bits extensible values =>
    [.enumFormat function enumName bits extensible values]
  | .byteCount ident count => [.byteCount ident count]
  | .codec name sizeIdent fields => [.codec name sizeIdent fields]
  | _ => []

theorem item?_function {function : String} (h : IsName function) (body : List Char)
    (lines : List (List Char)) :
    item? ("pub fn " ++ function ++ "() -> Processor \x7b").toList (body :: lines) =
      enumFormat? function body := by
  have hconst : byteCount? ("pub fn " ++ function ++ "() -> Processor \x7b").toList = none := by
    rw [String.append_assoc, String.toList_append, byteCount?,
      literal?_eq_none _ _ (by decide) (by decide)]
    rfl
  have himpl : nameBetween? "impl BitMessage for " " \x7b"
      ("pub fn " ++ function ++ "() -> Processor \x7b").toList = none := by
    rw [String.append_assoc, String.toList_append, nameBetween?,
      literal?_eq_none _ _ (by decide) (by decide)]
    rfl
  rw [item?, hconst, himpl, nameBetween?_line h (by decide)]
  show (none <|> enumFormat? function body <|> none) = _
  cases enumFormat? function body <;> rfl

theorem item?_struct {name : String} (h : IsName name) (lines : List (List Char)) :
    item? ("impl BitMessage for " ++ name ++ " \x7b").toList lines = codec? name lines := by
  have hconst : byteCount? ("impl BitMessage for " ++ name ++ " \x7b").toList = none := by
    rw [String.append_assoc, String.toList_append, byteCount?,
      literal?_eq_none _ _ (by decide) (by decide)]
    rfl
  have hfn : nameBetween? "pub fn " "() -> Processor \x7b"
      ("impl BitMessage for " ++ name ++ " \x7b").toList = none := by
    rw [String.append_assoc, String.toList_append, nameBetween?,
      literal?_eq_none _ _ (by decide) (by decide)]
    rfl
  rw [item?, hconst, hfn, nameBetween?_line h (by decide)]
  rfl

theorem items_codec {name sizeIdent : String} {fields : List FieldExpr} (hname : IsName name)
    (hsize : IsName sizeIdent) (hfields : ∀ f ∈ fields, f.format.Named)
    (rest : List (List Char)) :
    items ((Item.codec name sizeIdent fields).lines.map String.toList ++ rest) =
      .codec name sizeIdent fields :: items rest := by
  have hhead : s!"impl BitMessage for {name}" ++ " \x7b" =
    "impl BitMessage for " ++ name ++ " \x7b" := rfl
  have hread : item? (s!"impl BitMessage for {name}" ++ " \x7b").toList
      (codecRest name sizeIdent fields ++ rest) = some (.codec name sizeIdent fields) := by
    rw [hhead, item?_struct hname, codec?_lines name hsize hfields]
  rw [Item.lines]
  refine (items_braced (toList_codecLines name sizeIdent fields) rest).trans ?_
  rw [hread]
  rfl

theorem items_enumFormat {function : String} (h : IsName function) (enumName : String)
    (bits : Nat) (extensible : Bool) (values : List UInt64) (rest : List (List Char)) :
    items ((Item.enumFormat function enumName bits extensible values).lines.map String.toList ++
      rest) = .enumFormat function enumName bits extensible values :: items rest := by
  have hhead : s!"pub fn {function}() -> Processor" ++ " \x7b" =
      "pub fn " ++ function ++ "() -> Processor \x7b" := by
    have htext : s!"pub fn {function}() -> Processor" =
      "pub fn " ++ function ++ "() -> Processor" := rfl
    have hstop : "() -> Processor" ++ " \x7b" = "() -> Processor \x7b" := rfl
    rw [htext, String.append_assoc, hstop]
  have hbody : deeper ("Processor::Enum(Arc::new(EnumProcessor::new(" ++ Text.quoted enumName ++
      s!", {bits}, {extensible}, vec![{listed values}])))").toList =
    indented 1 ("Processor::Enum(Arc::new(EnumProcessor::new(" ++ Text.quoted enumName ++
      s!", {bits}, {extensible}, vec![{listed values}])))").toList := by
    refine deeper_of_ne_nil ?_
    rw [String.append_assoc, String.toList_append]
    exact List.append_ne_nil_of_left_ne_nil (by decide) _
  rw [Item.lines]
  refine (items_braced (toList_braced _ _) rest).trans ?_
  rw [List.map_singleton, List.map_singleton, hbody, hhead, List.singleton_append,
    List.cons_append, item?_function h, enumFormat?_line]
  rfl

theorem items_byteCount {ident : String} (h : IsName ident) (count : Nat)
    (rest : List (List Char)) :
    items ((Item.byteCount ident count).lines.map String.toList ++ rest) =
      .byteCount ident count :: items rest := by
  rw [Item.lines, List.map_singleton, List.singleton_append, items, item?, byteCount?_line h]
  rfl

-- The constant of an enum is not taken for a size, unless the type of the two is the same.
theorem literal?_size_name {enumName : String} (h : IsName enumName) (hne : enumName ≠ "usize")
    (rest : List Char) :
    literal? ": usize = " (": ".toList ++ (enumName.toList ++ (" = ".toList ++ rest))) = none := by
  rw [literal?, Option.eq_none_iff_forall_ne_some]
  intro after hafter
  obtain ⟨front, hsplit, hfront⟩ := List.dropPrefix?_eq_some_iff.mp hafter
  have hsize : ": usize = ".toList = ": ".toList ++ ("usize".toList ++ " = ".toList) := by decide
  rw [eq_of_beq hfront, hsize, List.append_assoc, List.append_assoc] at hsplit
  exact hne (name_append_inj h (by decide) (any_head?_append (by decide) _)
    (any_head?_append (by decide) _) (List.append_cancel_left hsplit)).1

theorem items_enumValue {ident enumName : String} (hident : IsName ident)
    (henum : IsName enumName) (value : UInt64) (rest : List (List Char)) :
    items ((Item.enumValue ident enumName value).lines.map String.toList ++ rest) =
      said (.enumValue ident enumName value) ++ items rest := by
  rw [Item.lines, List.map_singleton, List.singleton_append, items, said]
  by_cases hsize : enumName = "usize"
  · have htext : s!"pub const {ident}: {enumName} = {value};" =
        s!"pub const {ident}: usize = {value.toNat};" := by
      have htype : ": " ++ ("usize" ++ " = ") = ": usize = " := rfl
      show "pub const " ++ ident ++ ": " ++ enumName ++ " = " ++ value.toNat.repr ++ ";" =
        "pub const " ++ ident ++ ": usize = " ++ value.toNat.repr ++ ";"
      rw [hsize, ← htype]
      simp only [String.append_assoc]
    rw [if_pos hsize, htext, item?, byteCount?_line hident]
    rfl
  · have htext : s!"pub const {ident}: {enumName} = {value};" =
      "pub const " ++ ident ++ ": " ++ enumName ++ " = " ++ value.toNat.repr ++ ";" := rfl
    have hsilent := silent_constant hident (any_head?_append (by decide) _)
      (literal?_size_name henum hsize (value.toNat.repr.toList ++ ";".toList))
    rw [if_neg hsize, htext]
    simp only [String.toList_append, List.append_assoc]
    rw [hsilent]
    rfl

-- The types of constants are other ones.
theorem silent_constantLine {ident : String} (h : IsName ident) (value : ConstantValue) :
    Silent (Item.constantLine ident value).toList := by
  cases value with
  | bool b =>
    have htext : Item.constantLine ident (.bool b) =
      "pub const " ++ ident ++ ": bool = " ++ toString b ++ ";" := rfl
    rw [htext]
    simp only [String.toList_append, List.append_assoc]
    exact silent_constant h (any_head?_append (by decide) _)
      (literal?_eq_none _ _ (by decide) (by decide) _)
  | int v =>
    have htext : Item.constantLine ident (.int v) =
      "pub const " ++ ident ++ ": i64 = " ++ toString v ++ ";" := rfl
    rw [htext]
    simp only [String.toList_append, List.append_assoc]
    exact silent_constant h (any_head?_append (by decide) _)
      (literal?_eq_none _ _ (by decide) (by decide) _)
  | string s =>
    have htext : Item.constantLine ident (.string s) =
      "pub const " ++ ident ++ ": &str = " ++ Text.quoted s ++ ";" := rfl
    rw [htext]
    simp only [String.toList_append, List.append_assoc]
    exact silent_constant h (any_head?_append (by decide) _)
      (literal?_eq_none _ _ (by decide) (by decide) _)

theorem items_enumNames {function : String} (h : IsName function) (enumName : String)
    (arms : List (String × String)) (rest : List (List Char)) :
    items ((Item.enumNames function enumName arms).lines.map String.toList ++ rest) =
      items rest := by
  have hcomment : Silent ("/// Declared name of a " ++ "`" ++ enumName ++ "` value.").toList := by
    rw [String.append_assoc, String.append_assoc, String.toList_append]
    exact silent_of_start _ (by decide) _
  have hhead : Silent (s!"pub fn {function}(value: {enumName}) -> Option<&'static str>" ++
      " \x7b").toList := by
    have htext : s!"pub fn {function}(value: {enumName}) -> Option<&'static str>" =
      "pub fn " ++ function ++ "(value: " ++ enumName ++ ") -> Option<&'static str>" := rfl
    rw [htext]
    simp only [String.toList_append, List.append_assoc]
    exact silent_function h (any_head?_append (by decide) _)
      (literal?_eq_none _ _ (by decide) (by decide) _)
  rw [Item.lines, List.map_cons, List.cons_append, items, hcomment, Option.toList_none,
    List.nil_append, items_braced_of_silent _ hhead]

theorem items_struct (name : String) (totalBits : Nat) (fields : List StructField)
    (rest : List (List Char)) :
    items ((Item.struct name totalBits fields).lines.map String.toList ++ rest) = items rest := by
  have hcomment : Silent ("/// `" ++ name ++ s!"`: {totalBits} bits.").toList := by
    rw [String.append_assoc, String.toList_append]
    exact silent_of_start _ (by decide) _
  have hderive : Silent "#[derive(Debug, Clone, PartialEq, Eq)]".toList :=
    silent_chars _ rfl rfl
  have hhead : Silent (s!"pub struct {name}" ++ " \x7b").toList := by
    have htext : s!"pub struct {name}" = "pub struct " ++ name := rfl
    rw [htext, String.append_assoc, String.toList_append]
    exact silent_of_start _ (by decide) _
  rw [Item.lines, List.map_append, List.append_assoc, List.map_cons, List.map_singleton,
    List.cons_append, List.singleton_append, items, hcomment, items, hderive,
    items_braced_of_silent _ hhead]
  rfl

theorem items_structDefault (name : String) (fields : List (String × ZeroExpr))
    (rest : List (List Char)) :
    items ((Item.structDefault name fields).lines.map String.toList ++ rest) = items rest := by
  have hhead : Silent (s!"impl Default for {name}" ++ " \x7b").toList := by
    have htext : s!"impl Default for {name}" = "impl Default for " ++ name := rfl
    rw [htext, String.append_assoc, String.toList_append]
    exact silent_of_start _ (by decide) _
  rw [Item.lines, items_braced_of_silent _ hhead]

theorem items_accessor (name : String) (arms : List Arm) (rest : List (List Char)) :
    items ((Item.accessor name arms).lines.map String.toList ++ rest) = items rest := by
  have hallow : Silent "#[allow(clippy::unnecessary_cast)]".toList :=
    silent_chars _ rfl rfl
  have hhead : Silent (s!"impl Accessor for {name}" ++ " \x7b").toList := by
    have htext : s!"impl Accessor for {name}" = "impl Accessor for " ++ name := rfl
    rw [htext, String.append_assoc, String.toList_append]
    exact silent_of_start _ (by decide) _
  rw [Item.lines, Item.accessorLines, List.map_cons, List.cons_append, items, hallow,
    items_braced_of_silent _ hhead]
  rfl

/-- Whether a text stands in one line. -/
def IsLine (s : String) : Prop :=
  '\n' ∉ s.toList

end SourceReader

/-- The integer type that an arm converts to, if there is one. -/
def ArmKind.typeText : ArmKind → String
  | .unsigned type => type
  | .signed _ type => type
  | _ => ""

namespace SourceReader

/-- The names of an item can be taken for names, and everything else in it stands in one line. -/
def Legible : Item → Prop
  | .constant ident _ => IsName ident
  | .typeAlias name type => IsName name ∧ IsLine type.text
  | .enumValue ident enumName _ => IsName ident ∧ IsName enumName
  | .enumNames function enumName arms =>
    IsName function ∧ IsName enumName ∧ ∀ arm ∈ arms, IsName arm.1
  | .enumFormat function _ _ _ _ => IsName function
  | .byteCount ident _ => IsName ident
  | .struct name _ fields => IsName name ∧ ∀ f ∈ fields, IsLine f.ident ∧ IsLine f.type.text
  | .structDefault name fields => IsName name ∧ ∀ f ∈ fields, IsLine f.1 ∧ IsLine f.2.text
  | .accessor name arms =>
    IsName name ∧ ∀ arm ∈ arms, IsLine arm.place ∧ IsLine arm.kind.typeText
  | .codec name sizeIdent fields => IsName name ∧ IsName sizeIdent ∧ ∀ f ∈ fields, f.format.Named

/-- What is read from the lines of an item is what the item says. -/
theorem items_lines {item : Item} (h : Legible item) (rest : List (List Char)) :
    items (item.lines.map String.toList ++ rest) = said item ++ items rest := by
  cases item with
  | constant ident value =>
    rw [Item.lines, List.map_singleton, List.singleton_append, items, silent_constantLine h]
    rfl
  | typeAlias name type =>
    have hline : Silent s!"pub type {name} = {type.text};".toList := by
      have htext : s!"pub type {name} = {type.text};" =
        "pub type " ++ name ++ " = " ++ type.text ++ ";" := rfl
      rw [htext]
      simp only [String.toList_append, List.append_assoc]
      exact silent_of_start _ (by decide) _
    rw [Item.lines, List.map_singleton, List.singleton_append, items, hline]
    rfl
  | enumValue ident enumName value => exact items_enumValue h.1 h.2 value rest
  | enumNames function enumName arms => exact items_enumNames h.1 enumName arms rest
  | enumFormat function enumName bits extensible values =>
    exact items_enumFormat h enumName bits extensible values rest
  | byteCount ident count => exact items_byteCount h count rest
  | struct name totalBits fields => exact items_struct name totalBits fields rest
  | structDefault name fields => exact items_structDefault name fields rest
  | accessor name arms => exact items_accessor name arms rest
  | codec name sizeIdent fields => exact items_codec h.1 h.2.1 h.2.2 rest

/-! ## 3. Texts -/

-- A text is cut at its line breaks, and nothing stands behind the last of them.
theorem splitOn_join {lines : List String} (h : ∀ line ∈ lines, IsLine line) :
    (String.join (lines.map (· ++ "\n"))).toList.splitOn '\n' = lines.map String.toList ++ [[]] := by
  have hbreak : "\n".toList = ['\n'] := by decide
  have hjoin : (String.join (lines.map (· ++ "\n"))).toList =
      ['\n'].intercalate (lines.map String.toList ++ [[]]) := by
    clear h
    induction lines with
    | nil => rfl
    | cons line lines ih =>
      rw [List.map_cons, String.join_cons, String.toList_append, String.toList_append, hbreak, ih]
      cases lines with
      | nil =>
        simp only [List.map_cons, List.map_nil, List.cons_append, List.nil_append,
          List.intercalate_cons_cons, List.intercalate_singleton, List.append_assoc]
      | cons next lines =>
        simp only [List.map_cons, List.cons_append, List.intercalate_cons_cons]
  rw [hjoin, List.splitOn_intercalate]
  · intro line hline
    rcases List.mem_append.mp hline with hmem | hmem
    · obtain ⟨text, htext, rfl⟩ := List.mem_map.mp hmem
      exact h text htext
    · rw [List.mem_singleton.mp hmem]
      exact List.not_mem_nil
  · exact List.append_ne_nil_of_right_ne_nil _ (List.cons_ne_nil _ _)

theorem silent_headerLines (out : SourceModule) :
    ∀ line ∈ out.headerLines, Silent line.toList := by
  rw [SourceModule.headerLines, List.forall_mem_append, List.forall_mem_append,
    List.forall_mem_append]
  refine ⟨⟨⟨?_, ?_⟩, ?_⟩, ?_⟩
  · exact List.forall_mem_singleton.mpr (silent_chars _ rfl rfl)
  · split
    next => exact fun line hline => absurd hline List.not_mem_nil
    next =>
      refine List.forall_mem_singleton.mpr ?_
      rw [String.toList_append]
      exact silent_of_start _ (by decide) _
  · exact List.forall_mem_singleton.mpr silent_nil
  · split
    next => exact fun line hline => absurd hline List.not_mem_nil
    next path _ =>
      have huse : Silent ("use " ++ path ++ "::\x7b").toList := by
        rw [String.append_assoc, String.toList_append]
        exact silent_of_start _ (by decide) _
      simp only [List.forall_mem_cons]
      exact ⟨silent_chars _ rfl rfl, silent_chars _ rfl rfl, silent_nil, silent_chars _ rfl rfl,
        huse, silent_chars _ rfl rfl, silent_chars _ rfl rfl, silent_chars _ rfl rfl, silent_nil,
        List.forall_mem_nil _⟩

theorem items_groups {groups : List (List Item)} (h : ∀ group ∈ groups, ∀ item ∈ group, Legible item)
    (rest : List (List Char)) :
    items ((groups.flatMap SourceModule.groupLines).map String.toList ++ rest) =
      groups.flatten.flatMap said ++ items rest := by
  have hgroup : ∀ group : List Item, (∀ item ∈ group, Legible item) → ∀ rest,
      items ((group.flatMap Item.lines).map String.toList ++ rest) =
        group.flatMap said ++ items rest := by
    intro group hgroup rest
    induction group with
    | nil => rfl
    | cons item group ih =>
      obtain ⟨hitem, hgroup⟩ := List.forall_mem_cons.mp hgroup
      rw [List.flatMap_cons, List.map_append, List.append_assoc, items_lines hitem, ih hgroup,
        List.flatMap_cons, List.append_assoc]
  induction groups with
  | nil => rfl
  | cons group groups ih =>
    obtain ⟨hfirst, hothers⟩ := List.forall_mem_cons.mp h
    rw [List.flatMap_cons, List.map_append, List.append_assoc, List.flatten_cons,
      List.flatMap_append, List.append_assoc, ← ih hothers, SourceModule.groupLines]
    split
    next hempty =>
      rw [List.isEmpty_iff.mp hempty]
      rfl
    next =>
      rw [List.map_append, List.append_assoc, hgroup group hfirst, List.map_singleton,
        List.singleton_append, String.toList_empty, items, silent_nil]
      rfl

/-- What a module says is what its items say, as long as no line of it holds a line break. -/
theorem read_text_of_lines {out : SourceModule} (hlegible : ∀ item ∈ out.items, Legible item)
    (hheader : ∀ line ∈ out.headerLines, IsLine line)
    (hlines : ∀ item ∈ out.items, ∀ line ∈ item.lines, IsLine line) :
    read out.text = out.items.flatMap said := by
  have hall : ∀ line ∈ out.headerLines ++ out.groups.flatMap SourceModule.groupLines,
      IsLine line := by
    refine List.forall_mem_append.mpr ⟨hheader, fun line hline => ?_⟩
    obtain ⟨group, hgroup, hline⟩ := List.mem_flatMap.mp hline
    rw [SourceModule.groupLines] at hline
    split at hline
    next => exact absurd hline List.not_mem_nil
    next =>
      rcases List.mem_append.mp hline with hitems | hblank
      · obtain ⟨item, hitem, hline⟩ := List.mem_flatMap.mp hitems
        exact hlines item (List.mem_flatten_of_mem hgroup hitem) line hline
      · rw [List.mem_singleton.mp hblank]
        exact List.not_mem_nil
  have hsilent : ∀ line ∈ out.headerLines.map String.toList, Silent line := by
    intro line hline
    obtain ⟨text, htext, rfl⟩ := List.mem_map.mp hline
    exact silent_headerLines out text htext
  have hgroups : ∀ group ∈ out.groups, ∀ item ∈ group, Legible item :=
    fun group hgroup item hitem => hlegible item (List.mem_flatten_of_mem hgroup hitem)
  rw [read, SourceModule.text, splitOn_join hall, List.map_append, List.append_assoc,
    items_append_of_silent hsilent, items_groups hgroups, items, silent_nil,
    SourceModule.items]
  simp [items]

end SourceReader

end Bitwire
