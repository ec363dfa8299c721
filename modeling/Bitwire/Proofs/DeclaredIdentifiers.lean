import Bitwire.Proofs.SourceItems

/-!
# What generated source declares

Other code reaches a generated module by its public constants and functions, its public types, and
the public fields of its structs.  Each of them is declared in a line of its own.  The lines that
start like one are there for the identifiers of the items, in the order of the items.
-/

namespace Bitwire

open SourceReader

/-! ## 1. Declarations in lines -/

/-- What stands in front of a declared identifier, and what behind it. -/
structure DeclForm where
  front : String
  back : String

namespace DeclForm

/-- Constants and functions. -/
def values : List DeclForm :=
  [⟨"pub const ", ": "⟩, ⟨"pub fn ", "("⟩]

/-- Types. -/
def types : List DeclForm :=
  [⟨"pub type ", " = "⟩, ⟨"pub struct ", " \x7b"⟩]

/-- The fields of a struct, one level further in. -/
def fields : List DeclForm :=
  [⟨"    pub ", ": "⟩]

/-- Whether a line starts in one of several forms. -/
def starts (forms : List DeclForm) (line : String) : Bool :=
  forms.any fun form => (literal? form.front line.toList).isSome

/-- The lines that start in one of several forms declare the identifiers, in this order. -/
def Declare (forms : List DeclForm) (idents lines : List String) : Prop :=
  List.Forall₂ (fun ident line => ∃ form ∈ forms, ∃ rest,
    line = form.front ++ ident ++ form.back ++ rest) idents (lines.filter (starts forms))

variable {forms : List DeclForm}

theorem toList_front (front rest : String) : front.toList <+: (front ++ rest).toList := by
  rw [String.toList_append]
  exact List.prefix_append _ _

-- A line that starts differently starts in no form.
theorem starts_eq_false (front : String) {line : String} (hline : front.toList <+: line.toList)
    (h : ∀ form ∈ forms, ¬ form.front.toList <+: front.toList ∧ ¬ front.toList <+: form.front.toList) :
    starts forms line = false := by
  obtain ⟨rest, hrest⟩ := hline
  rw [starts, List.any_eq_false]
  intro form hform
  rw [← hrest, literal?_eq_none form.front front (h form hform).1 (h form hform).2]
  exact Bool.false_ne_true

theorem Declare.append {idents idents' lines lines' : List String} (h : Declare forms idents lines)
    (h' : Declare forms idents' lines') : Declare forms (idents ++ idents') (lines ++ lines') := by
  rw [Declare, List.filter_append]
  exact List.rel_append h h'

theorem Declare.flatMap {α : Type} {xs : List α} {f g : α → List String}
    (h : ∀ x ∈ xs, Declare forms (f x) (g x)) : Declare forms (xs.flatMap f) (xs.flatMap g) := by
  induction xs with
  | nil => exact .nil
  | cons x rest ih =>
    obtain ⟨hx, hrest⟩ := List.forall_mem_cons.mp h
    rw [List.flatMap_cons, List.flatMap_cons]
    exact hx.append (ih hrest)

theorem Declare.none {lines : List String} (h : ∀ line ∈ lines, starts forms line = false) :
    Declare forms [] lines := by
  have hnil : lines.filter (starts forms) = [] :=
    List.filter_eq_nil_iff.mpr fun line hline => by rw [h line hline]; exact Bool.false_ne_true
  rw [Declare, hnil]
  exact .nil

theorem Declare.one {form : DeclForm} (hform : form ∈ forms) (ident rest : String)
    {line : String} (hline : line = form.front ++ ident ++ form.back ++ rest) :
    Declare forms [ident] [line] := by
  have hstarts : starts forms line = true := by
    refine List.any_eq_true.mpr ⟨form, hform, ?_⟩
    rw [hline, String.append_assoc, String.append_assoc, String.toList_append, literal?_append]
    rfl
  rw [Declare, List.filter_cons, if_pos hstarts]
  exact .cons ⟨form, hform, rest, hline⟩ .nil

-- A line that starts with another character than all forms do.
theorem starts_margin {first : Char} (h : ∀ form ∈ forms, form.front.toList.head? = some first)
    {line : String} (hline : line.toList.head? ≠ some first) : starts forms line = false := by
  refine List.any_eq_false.mpr fun form hform => ?_
  obtain ⟨cs, hcs⟩ := List.head?_eq_some_iff.mp (h form hform)
  cases hchars : line.toList with
  | nil => simp [literal?, hcs, List.dropPrefix?]
  | cons c rest =>
    rw [hchars] at hline
    have hne : c ≠ first := by simpa using hline
    simp [literal?, hcs, List.dropPrefix?, hne]

theorem Declare.margin {first : Char} (h : ∀ form ∈ forms, form.front.toList.head? = some first)
    {line : String} (hline : line.toList.head? ≠ some first) : Declare forms [] [line] :=
  Declare.none (List.forall_mem_singleton.mpr (starts_margin h hline))

/-! ## 2. Lines between braces -/

-- What starts at the margin does not start further in.
theorem starts_indent {first : Char} (hne : first ≠ ' ')
    (h : ∀ form ∈ forms, form.front.toList.head? = some first) (body : List String) :
    ∀ line ∈ Lines.indent body, starts forms line = false := by
  intro line hline
  obtain ⟨text, -, rfl⟩ := List.mem_map.mp hline
  refine starts_margin h ?_
  split
  next hempty => simp [String.isEmpty_iff.mp hempty]
  next => simp [hne.symm]

-- Lines between braces declare what the first of them declares.
theorem Declare.braced {idents : List String} {head : String}
    (h : ∀ form ∈ forms, form.front.toList.head? = some 'p')
    (hhead : Declare forms idents [head ++ " \x7b"]) (body : List String) :
    Declare forms idents (Lines.braced head body) := by
  have hbrace : Declare forms [] ["\x7d"] := Declare.margin h (by decide)
  have hbody := Declare.none (starts_indent (by decide) h body)
  have hall := hhead.append (hbody.append hbrace)
  rw [List.append_nil, List.append_nil] at hall
  exact hall

/-- A line that, one level further in, is no field of a struct. -/
def Plain (line : String) : Prop :=
  literal? "pub " line.toList = none

theorem plain_of_front (front : String) {line : String} (hline : front.toList <+: line.toList)
    (h : ¬ "pub ".toList <+: front.toList ∧ ¬ front.toList <+: "pub ".toList) : Plain line := by
  obtain ⟨rest, hrest⟩ := hline
  rw [Plain, ← hrest]
  exact literal?_eq_none _ front h.1 h.2 rest

theorem plain_empty : Plain "" :=
  literal?_nil (by decide)

theorem plain_indent (body : List String) : ∀ line ∈ Lines.indent body, Plain line := by
  intro line hline
  obtain ⟨text, -, rfl⟩ := List.mem_map.mp hline
  split
  next hempty => exact String.isEmpty_iff.mp hempty ▸ plain_empty
  next => exact plain_of_front "    " (toList_front _ _) (by decide)

theorem plain_braced {head : String} (h : Plain (head ++ " \x7b")) (body : List String) :
    ∀ line ∈ Lines.braced head body, Plain line := by
  rw [Lines.braced, List.cons_append, List.forall_mem_cons, List.forall_mem_append]
  exact ⟨h, plain_indent body, List.forall_mem_singleton.mpr
    (plain_of_front "\x7d" List.prefix_rfl (by decide))⟩

-- One level further in, a line starts like a field if it is not plain.
theorem starts_fields_indent (line : String) :
    starts fields ("    " ++ line) = (literal? "pub " line.toList).isSome := by
  have hfront : "    pub ".toList = ' ' :: ' ' :: ' ' :: ' ' :: "pub ".toList := by decide
  have hspaces : "    ".toList = [' ', ' ', ' ', ' '] := by decide
  rw [starts, fields, List.any_cons, List.any_nil, Bool.or_false, literal?, literal?, hfront,
    String.toList_append, hspaces]
  rfl

-- Plain lines between braces are no fields of a struct.
theorem Declare.fields_braced {head : String} {body : List String}
    (hhead : (head ++ " \x7b").toList.head? ≠ some ' ') (h : ∀ line ∈ body, Plain line) :
    Declare fields [] (Lines.braced head body) := by
  have hmargin : ∀ form ∈ fields, form.front.toList.head? = some ' ' := by decide
  refine Declare.none ?_
  rw [Lines.braced, List.cons_append, List.forall_mem_cons, List.forall_mem_append]
  refine ⟨starts_margin hmargin hhead, fun line hline => ?_,
    List.forall_mem_singleton.mpr (starts_margin hmargin (by decide))⟩
  obtain ⟨text, htext, rfl⟩ := List.mem_map.mp hline
  split
  next hempty => exact starts_margin hmargin (by simp [String.isEmpty_iff.mp hempty])
  next =>
    rw [starts_fields_indent, h text htext]
    rfl

theorem Declare.silent (front : String) {line : String} (hline : front.toList <+: line.toList)
    (h : ∀ form ∈ forms, ¬ form.front.toList <+: front.toList ∧ ¬ front.toList <+: form.front.toList) :
    Declare forms [] [line] :=
  Declare.none (List.forall_mem_singleton.mpr (starts_eq_false front hline h))

end DeclForm

/-! ## 3. Items -/

namespace Item

open DeclForm

/-- The first line of an item behind its comments and attributes, unless the item is an
implementation, which declares nothing. -/
def head? : Item → Option String
  | .constant ident value => some (constantLine ident value)
  | .typeAlias name type => some ("pub type " ++ name ++ " = " ++ type.text ++ ";")
  | .enumValue ident enumName value =>
    some ("pub const " ++ ident ++ ": " ++ enumName ++ " = " ++ toString value ++ ";")
  | .enumNames function enumName _ =>
    some ("pub fn " ++ function ++ "(value: " ++ enumName ++ ") -> Option<&'static str>" ++ " \x7b")
  | .enumFormat function _ _ _ _ => some ("pub fn " ++ function ++ "() -> Processor" ++ " \x7b")
  | .byteCount ident count => some ("pub const " ++ ident ++ ": usize = " ++ toString count ++ ";")
  | .struct name _ _ => some ("pub struct " ++ name ++ " \x7b")
  | .structDefault _ _ => none
  | .accessor _ _ => none
  | .codec _ _ _ => none

-- What is declared at the margin is declared in the first line.
theorem declare_lines {forms : List DeclForm}
    (hmargin : ∀ form ∈ forms, form.front.toList.head? = some 'p') {item : Item}
    {idents : List String} (h : Declare forms idents item.head?.toList) :
    Declare forms idents item.lines := by
  -- an implementation starts with another letter
  have himpl : ∀ front name : String, front.toList.head? = some 'i' →
      Declare forms [] [front ++ name ++ " \x7b"] := fun front name hfront => by
    obtain ⟨cs, hcs⟩ := List.head?_eq_some_iff.mp hfront
    refine Declare.margin hmargin ?_
    simp [hcs]
  cases item with
  | constant | typeAlias | enumValue | byteCount => exact h
  | enumFormat => exact Declare.braced hmargin h _
  | enumNames function enumName arms =>
    refine Declare.append (Declare.margin hmargin ?_) (Declare.braced hmargin h _)
    simp
  | struct name totalBits fields =>
    have hcomment : Declare forms [] ["/// `" ++ name ++ s!"`: {totalBits} bits."] :=
      Declare.margin hmargin (by simp)
    have hderive : Declare forms [] ["#[derive(Debug, Clone, PartialEq, Eq)]"] :=
      Declare.margin hmargin (by decide)
    exact (hcomment.append hderive).append (Declare.braced hmargin h _)
  | structDefault name fields =>
    obtain rfl := List.forall₂_nil_right_iff.mp h
    exact Declare.braced hmargin (himpl "impl Default for " name (by decide)) _
  | codec name sizeIdent fields =>
    obtain rfl := List.forall₂_nil_right_iff.mp h
    exact Declare.braced hmargin (himpl "impl BitMessage for " name (by decide)) _
  | accessor name arms =>
    have hallow : Declare forms [] ["#[allow(clippy::unnecessary_cast)]"] :=
      Declare.margin hmargin (by decide)
    obtain rfl := List.forall₂_nil_right_iff.mp h
    exact hallow.append (Declare.braced hmargin (himpl "impl Accessor for " name (by decide)) _)

-- A constant has one of three types.
theorem constantLine_eq (ident : String) (value : ConstantValue) : ∃ rest,
    constantLine ident value = "pub const " ++ ident ++ ": " ++ rest := by
  have hbool : ": bool = " = ": " ++ "bool = " := by decide
  have hint : ": i64 = " = ": " ++ "i64 = " := by decide
  have hstr : ": &str = " = ": " ++ "&str = " := by decide
  cases value with
  | bool b =>
    refine ⟨"bool = " ++ toString b ++ ";", ?_⟩
    show "pub const " ++ ident ++ ": bool = " ++ toString b ++ ";" = _
    simp only [hbool, String.append_assoc]
  | int v =>
    refine ⟨"i64 = " ++ toString v ++ ";", ?_⟩
    show "pub const " ++ ident ++ ": i64 = " ++ toString v ++ ";" = _
    simp only [hint, String.append_assoc]
  | string s =>
    refine ⟨"&str = " ++ Text.quoted s ++ ";", ?_⟩
    show "pub const " ++ ident ++ ": &str = " ++ Text.quoted s ++ ";" = _
    simp only [hstr, String.append_assoc]

/-- The lines of an item declare the value that it adds to its module. -/
theorem declare_values (item : Item) : Declare values item.valueIdent?.toList item.lines := by
  have hconst : ⟨"pub const ", ": "⟩ ∈ values := List.mem_cons_self
  have hfn : ⟨"pub fn ", "("⟩ ∈ values := List.mem_cons_of_mem _ List.mem_cons_self
  refine declare_lines (by decide) ?_
  cases item with
  | constant ident value =>
    obtain ⟨rest, hrest⟩ := constantLine_eq ident value
    exact Declare.one hconst ident rest hrest
  | enumValue ident enumName value =>
    refine Declare.one hconst ident (enumName ++ " = " ++ toString value ++ ";") ?_
    simp only [String.append_assoc]
  | enumNames function enumName arms =>
    have hopen : "(value: " = "(" ++ "value: " := by decide
    refine Declare.one hfn function
      ("value: " ++ enumName ++ ") -> Option<&'static str>" ++ " \x7b") ?_
    simp only [hopen, String.append_assoc]
  | enumFormat function enumName bits extensible values =>
    have hopen : "() -> Processor" = "(" ++ ") -> Processor" := by decide
    refine Declare.one hfn function (") -> Processor" ++ " \x7b") ?_
    simp only [hopen, String.append_assoc]
  | byteCount ident count =>
    have hsize : ": usize = " = ": " ++ "usize = " := by decide
    refine Declare.one hconst ident ("usize = " ++ toString count ++ ";") ?_
    simp only [hsize, String.append_assoc]
  | typeAlias => exact Declare.silent "pub type " (by simp) (by decide)
  | struct => exact Declare.silent "pub struct " (by simp) (by decide)
  | structDefault | accessor | codec => exact .nil

/-- The lines of an item declare the type that it adds to its module. -/
theorem declare_types (item : Item) : Declare types item.typeIdent?.toList item.lines := by
  have htype : ⟨"pub type ", " = "⟩ ∈ types := List.mem_cons_self
  have hstruct : ⟨"pub struct ", " \x7b"⟩ ∈ types := List.mem_cons_of_mem _ List.mem_cons_self
  refine declare_lines (by decide) ?_
  cases item with
  | typeAlias name type =>
    refine Declare.one htype name (type.text ++ ";") ?_
    simp only [String.append_assoc]
  | struct name totalBits fields => exact Declare.one hstruct name "" String.append_empty.symm
  | constant ident value =>
    obtain ⟨rest, hrest⟩ := constantLine_eq ident value
    exact Declare.silent "pub const " (by simp [hrest]) (by decide)
  | enumValue | byteCount => exact Declare.silent "pub const " (by simp) (by decide)
  | enumNames | enumFormat => exact Declare.silent "pub fn " (by simp) (by decide)
  | structDefault | accessor | codec => exact .nil

-- A line of a struct, one level further in.
theorem indent_singleton {line : String} (h : line.toList ≠ []) :
    Lines.indent [line] = ["    " ++ line] := by
  have hempty : ¬ line.isEmpty = true := by
    rw [String.isEmpty_iff, ← String.toList_inj]
    exact h
  rw [Lines.indent, List.map_singleton, if_neg hempty]

theorem declare_structField (f : StructField) :
    Declare fields [f.ident] (Lines.indent (structFieldLines f)) := by
  have hform : ⟨"    pub ", ": "⟩ ∈ fields := List.mem_cons_self
  have hpub : "    pub " = "    " ++ "pub " := by decide
  have hfield : Declare fields [f.ident]
      (Lines.indent ["pub " ++ f.ident ++ ": " ++ f.type.text ++ ","]) := by
    rw [indent_singleton (by simp)]
    refine Declare.one hform f.ident (f.type.text ++ ",") ?_
    simp only [hpub, String.append_assoc]
  rw [structFieldLines, Lines.indent, List.map_append]
  split
  next start stop _ =>
    have hcomment : Declare fields [] (Lines.indent ["/// Field " ++ toString f.number ++ ", bits " ++
        toString start ++ ".." ++ toString stop ++ "."]) := by
      rw [indent_singleton (by simp)]
      exact Declare.silent "    /// Field " (by simp) (by decide)
    exact hcomment.append hfield
  next => exact hfield

/-- The identifiers of the fields of a struct. -/
def fieldIdents : Item → List String
  | .struct _ _ fields => fields.map StructField.ident
  | _ => []

-- The lines of an accessor are those of functions.
theorem plain_accessor (name : String) (arms : List Arm) : ∃ body,
    accessorLines name arms = "#[allow(clippy::unnecessary_cast)]" ::
      Lines.braced ("impl Accessor for " ++ name) body ∧ ∀ line ∈ body, Plain line := by
  refine ⟨_, rfl, ?_⟩
  have hfn : ∀ line : String, "fn ".toList <+: line.toList → Plain line :=
    fun line hline => plain_of_front "fn " hline (by decide)
  have hempty : ∀ line ∈ [""], Plain line := List.forall_mem_singleton.mpr plain_empty
  rw [List.forall_mem_append]
  constructor
  · split
    next =>
      simp only [List.forall_mem_append, List.forall_mem_cons]
      exact ⟨plain_braced (hfn _ (by decide)) _, plain_empty, hfn _ (by decide),
        List.forall_mem_nil _⟩
    next =>
      simp only [List.forall_mem_append]
      exact ⟨⟨plain_braced (hfn _ (by decide)) _, hempty⟩, plain_braced (hfn _ (by decide)) _⟩
  · split
    next => exact List.forall_mem_nil _
    next =>
      simp only [List.forall_mem_append]
      exact ⟨⟨⟨hempty, plain_braced (hfn _ (by decide)) _⟩, hempty⟩,
        plain_braced (hfn _ (by decide)) _⟩

theorem head?_margin {item : Item} {line : String} (h : item.head? = some line) :
    line.toList.head? ≠ some ' ' := by
  cases item with
  | constant ident value =>
    obtain rfl := Option.some.inj h
    obtain ⟨rest, hrest⟩ := constantLine_eq ident value
    simp [hrest]
  | typeAlias | enumValue | enumNames | enumFormat | byteCount | struct =>
    obtain rfl := Option.some.inj h
    simp
  | structDefault | accessor | codec => cases h

/-- The lines of an item declare the fields that it has if it is a struct. -/
theorem declare_fields (item : Item) : Declare fields item.fieldIdents item.lines := by
  have hmargin : ∀ form ∈ fields, form.front.toList.head? = some ' ' := by decide
  have hhead := @head?_margin item
  cases item with
  | constant | typeAlias | enumValue | byteCount => exact Declare.margin hmargin (hhead rfl)
  | enumNames function enumName arms =>
    refine Declare.append (Declare.margin hmargin ?_)
      (Declare.fields_braced (hhead rfl) (plain_braced ?_ _))
    · simp
    · exact plain_of_front "match " (by decide) (by decide)
  | enumFormat function enumName bits extensible values =>
    refine Declare.fields_braced (hhead rfl) (List.forall_mem_singleton.mpr ?_)
    refine plain_of_front "Processor::" ?_ (by decide)
    simp
  | struct name totalBits fields =>
    have hcomment : Declare DeclForm.fields [] ["/// `" ++ name ++ s!"`: {totalBits} bits."] :=
      Declare.margin hmargin (by simp)
    have hderive : Declare DeclForm.fields [] ["#[derive(Debug, Clone, PartialEq, Eq)]"] :=
      Declare.margin hmargin (by decide)
    have hopen : Declare DeclForm.fields [] ["pub struct " ++ name ++ " \x7b"] :=
      Declare.margin hmargin (hhead rfl)
    have hclose : Declare DeclForm.fields [] ["\x7d"] := Declare.margin hmargin (by decide)
    have hbody : Declare DeclForm.fields (fields.map StructField.ident)
        (Lines.indent (fields.flatMap structFieldLines)) := by
      rw [Lines.indent, List.map_flatMap, List.map_eq_flatMap]
      exact Declare.flatMap fun f _ => declare_structField f
    have hall := (hcomment.append hderive).append (hopen.append (hbody.append hclose))
    rw [List.append_nil, List.append_nil] at hall
    exact hall
  | structDefault name fields =>
    change Declare _ _ (Lines.braced ("impl Default for " ++ name) _)
    refine Declare.fields_braced ?_ (plain_braced ?_ _)
    · simp
    · exact plain_of_front "fn " (by decide) (by decide)
  | accessor name arms =>
    obtain ⟨body, hlines, hplain⟩ := plain_accessor name arms
    change Declare _ _ (accessorLines name arms)
    rw [hlines]
    refine Declare.append (Declare.margin hmargin ?_) (Declare.fields_braced ?_ hplain)
    · decide
    · simp
  | codec name sizeIdent fields =>
    have hsize : Plain ("const BYTES_LENGTH: usize = " ++ sizeIdent ++ ";") :=
      plain_of_front "const " (by simp) (by decide)
    change Declare _ _ (Lines.braced ("impl BitMessage for " ++ name) _)
    refine Declare.fields_braced (by simp) ?_
    refine List.forall_mem_append.mpr ⟨List.forall_mem_cons.mpr ⟨hsize,
      List.forall_mem_singleton.mpr plain_empty⟩, plain_braced ?_ _⟩
    exact plain_of_front "fn " (by decide) (by decide)

end Item

/-! ## 4. Modules -/

namespace SourceModule

open DeclForm

/-- The lines of a module. -/
def lines (out : SourceModule) : List String :=
  out.headerLines ++ out.groups.flatMap groupLines

theorem text_eq (out : SourceModule) : out.text = String.join (out.lines.map (· ++ "\n")) :=
  rfl

/-- How the lines in front of the items start, if they are not empty. -/
def headerFronts : List String :=
  ["//", "#[", "use ", "    bits, ", "    Processor", "\x7d"]

-- Each line in front of the items starts in one of these ways.
theorem front_of_mem_headerLines {out : SourceModule} {line : String}
    (h : line ∈ out.headerLines) :
    line = "" ∨ ∃ front ∈ headerFronts, front.toList <+: line.toList := by
  rw [headerLines, List.mem_append, List.mem_append, List.mem_append] at h
  rcases h with ((h | h) | h) | h
  · obtain rfl := List.mem_singleton.mp h
    exact .inr ⟨"//", by simp [headerFronts], by decide⟩
  · split at h
    next => exact absurd h List.not_mem_nil
    next =>
      obtain rfl := List.mem_singleton.mp h
      exact .inr ⟨"//", by simp [headerFronts], by simp⟩
  · exact .inl (List.mem_singleton.mp h)
  · split at h
    next => exact absurd h List.not_mem_nil
    next path _ =>
      simp only [List.mem_cons, List.not_mem_nil, or_false] at h
      rcases h with rfl | rfl | rfl | rfl | rfl | rfl | rfl | rfl | rfl
      · exact .inr ⟨"#[", by simp [headerFronts], by decide⟩
      · exact .inr ⟨"use ", by simp [headerFronts], by decide⟩
      · exact .inl rfl
      · exact .inr ⟨"#[", by simp [headerFronts], by decide⟩
      · exact .inr ⟨"use ", by simp [headerFronts], by simp⟩
      · exact .inr ⟨"    bits, ", by simp [headerFronts], by decide⟩
      · exact .inr ⟨"    Processor", by simp [headerFronts], by decide⟩
      · exact .inr ⟨"\x7d", by simp [headerFronts], by decide⟩
      · exact .inl rfl

-- A module declares what its items declare.
theorem declare_lines {forms : List DeclForm}
    (hfronts : ∀ front ∈ headerFronts, ∀ form ∈ forms,
      ¬ form.front.toList <+: front.toList ∧ ¬ front.toList <+: form.front.toList)
    (hempty : starts forms "" = false) {idents : Item → List String}
    (hitem : ∀ item : Item, Declare forms (idents item) item.lines) (out : SourceModule) :
    Declare forms (out.items.flatMap idents) out.lines := by
  have hheader : Declare forms [] out.headerLines := by
    refine Declare.none fun line hline => ?_
    rcases front_of_mem_headerLines hline with rfl | ⟨front, hfront, hstart⟩
    · exact hempty
    · exact starts_eq_false front hstart (hfronts front hfront)
  have hblank : Declare forms [] [""] := Declare.none (List.forall_mem_singleton.mpr hempty)
  have hgroup : ∀ group : List Item, Declare forms (group.flatMap idents) (groupLines group) := by
    intro group
    rw [groupLines]
    split
    next hnil =>
      rw [List.isEmpty_iff.mp hnil]
      exact .nil
    next =>
      have hall := (Declare.flatMap fun item (_ : item ∈ group) => hitem item).append hblank
      rwa [List.append_nil] at hall
  rw [items, List.flatten_eq_flatMap, List.flatMap_assoc]
  exact hheader.append (Declare.flatMap fun group _ => hgroup group)

end SourceModule

end Bitwire
