import Bitwire.Proofs.SourceItems

/-!
# Lines without breaks

No line of an item holds a line break, so the lines of a generated module are the lines that its
text is cut into.  Quoted texts hold none, whatever is quoted; everything else is names, numbers and
fixed texts.
-/

namespace Bitwire

namespace SourceReader

/-! ## 1. Parts of lines -/

theorem isLine_chars {s : String} (cs : List Char) (h : s = String.ofList cs)
    (hcs : cs.contains '\n' = false) : IsLine s := by
  rw [IsLine, h, String.toList_ofList]
  simpa using hcs

theorem IsLine.append {s t : String} (hs : IsLine s) (ht : IsLine t) : IsLine (s ++ t) := by
  rw [IsLine, String.toList_append]
  exact List.not_mem_append hs ht

theorem IsName.isLine {s : String} (h : IsName s) : IsLine s :=
  fun hmem => absurd (h _ hmem) (by decide)

theorem isLine_toDigits {base : Nat} (hbase : 1 < base) (hle : base ≤ 16) (n : Nat) :
    '\n' ∉ Nat.toDigits base n := by
  have hdigit : ∀ d < 16, '\n' ≠ d.digitChar := by decide
  induction n using Nat.strong_induction_on with
  | _ n ih =>
    by_cases hlt : n < base
    · rw [Nat.toDigits_of_lt_base hlt, List.mem_singleton]
      exact hdigit n (by omega)
    · rw [Nat.toDigits_of_base_le hbase (by omega), List.mem_append, List.mem_singleton, not_or]
      have hmod := Nat.mod_lt n (by omega : base > 0)
      exact ⟨ih _ (Nat.div_lt_self (by omega) hbase), hdigit _ (by omega)⟩

theorem isLine_repr (n : Nat) : IsLine n.repr := by
  rw [IsLine, Nat.toList_repr]
  exact isLine_toDigits (by decide) (by decide) n

theorem isLine_int (v : Int) : IsLine (toString v) := by
  cases v with
  | ofNat n => exact isLine_repr n
  | negSucc n => exact IsLine.append (isLine_chars ['-'] rfl rfl) (isLine_repr (n + 1))

theorem isLine_bool (b : Bool) : IsLine (toString b) := by
  cases b with
  | true => exact isLine_chars _ rfl rfl
  | false => exact isLine_chars _ rfl rfl

theorem isLine_quotedChar (c : Char) : IsLine (Text.quotedChar c) := by
  unfold Text.quotedChar
  split
  iterate 6 exact isLine_chars _ rfl rfl
  next hbreak _ _ _ =>
    split_ifs
    · refine ((isLine_chars _ rfl rfl).append ?_).append (isLine_chars _ rfl rfl)
      rw [IsLine, Text.hex, String.toList_ofList]
      exact isLine_toDigits (by decide) (by decide) _
    · have hself : c.toString.toList = [c] := by simp
      rw [IsLine, hself, List.mem_singleton]
      exact fun heq => hbreak heq.symm

theorem isLine_quoted (s : String) : IsLine (Text.quoted s) := by
  refine ((isLine_chars ['"'] rfl rfl).append ?_).append (isLine_chars ['"'] rfl rfl)
  induction s.toList with
  | nil => exact isLine_chars [] rfl rfl
  | cons c cs ih =>
    rw [List.map_cons, String.join_cons]
    exact (isLine_quotedChar c).append ih

theorem isLine_intercalate {separator : String} (hseparator : IsLine separator)
    {parts : List String} (h : ∀ part ∈ parts, IsLine part) :
    IsLine (String.intercalate separator parts) := by
  induction parts with
  | nil => exact isLine_chars [] rfl rfl
  | cons part parts ih =>
    obtain ⟨hpart, hparts⟩ := List.forall_mem_cons.mp h
    cases parts with
    | nil =>
      rw [String.intercalate_singleton]
      exact hpart
    | cons next parts =>
      rw [String.intercalate_cons_cons]
      exact (hpart.append hseparator).append (ih hparts)

theorem isLine_formatExpr {e : FormatExpr} (h : e.Named) : IsLine e.text := by
  induction e with
  | bool => exact isLine_chars _ rfl rfl
  | int bits =>
    rw [FormatExpr.text_int]
    exact ((isLine_chars _ rfl rfl).append (isLine_repr bits)).append (isLine_chars _ rfl rfl)
  | uint bits =>
    rw [FormatExpr.text_uint]
    exact ((isLine_chars _ rfl rfl).append (isLine_repr bits)).append (isLine_chars _ rfl rfl)
  | array element capacity ih =>
    rw [FormatExpr.text_array]
    exact ((((isLine_chars _ rfl rfl).append (ih h)).append (isLine_chars _ rfl rfl)).append
      (isLine_repr capacity)).append (isLine_chars _ rfl rfl)
  | enumCall function =>
    rw [FormatExpr.text_enumCall]
    exact (IsName.isLine h).append (isLine_chars _ rfl rfl)
  | message name =>
    rw [FormatExpr.text_message]
    exact ((isLine_chars _ rfl rfl).append (IsName.isLine h)).append (isLine_chars _ rfl rfl)

/-! ## 2. Lines between braces -/

theorem isLine_indent {lines : List String} (h : ∀ line ∈ lines, IsLine line) :
    ∀ line ∈ Lines.indent lines, IsLine line := by
  intro line hline
  obtain ⟨inner, hinner, rfl⟩ := List.mem_map.mp hline
  split_ifs
  · exact h inner hinner
  · exact (isLine_chars _ rfl rfl).append (h inner hinner)

theorem isLine_braced {head : String} {body : List String} (hhead : IsLine head)
    (hbody : ∀ line ∈ body, IsLine line) : ∀ line ∈ Lines.braced head body, IsLine line := by
  rw [Lines.braced, List.cons_append, List.forall_mem_cons, List.forall_mem_append,
    List.forall_mem_singleton]
  exact ⟨hhead.append (isLine_chars _ rfl rfl), isLine_indent hbody, isLine_chars _ rfl rfl⟩

/-! ## 3. Items -/

theorem isLine_constantLine {ident : String} (h : IsName ident) (value : ConstantValue) :
    IsLine (Item.constantLine ident value) := by
  cases value with
  | bool b =>
    exact ((((isLine_chars _ rfl rfl).append h.isLine).append (isLine_chars _ rfl rfl)).append
      (isLine_bool b)).append (isLine_chars _ rfl rfl)
  | int v =>
    exact ((((isLine_chars _ rfl rfl).append h.isLine).append (isLine_chars _ rfl rfl)).append
      (isLine_int v.toInt)).append (isLine_chars _ rfl rfl)
  | string s =>
    exact ((((isLine_chars _ rfl rfl).append h.isLine).append (isLine_chars _ rfl rfl)).append
      (isLine_quoted s)).append (isLine_chars _ rfl rfl)

theorem isLine_enumNames {function enumName : String} {arms : List (String × String)}
    (hfunction : IsName function) (henum : IsName enumName) (harms : ∀ arm ∈ arms, IsName arm.1) :
    ∀ line ∈ (Item.enumNames function enumName arms).lines, IsLine line := by
  rw [Item.lines, List.forall_mem_cons]
  refine ⟨(((isLine_chars _ rfl rfl).append (isLine_chars _ rfl rfl)).append henum.isLine).append
    (isLine_chars _ rfl rfl), isLine_braced ?_ (isLine_braced (isLine_chars _ rfl rfl) ?_)⟩
  · exact ((((isLine_chars _ rfl rfl).append hfunction.isLine).append
      (isLine_chars _ rfl rfl)).append henum.isLine).append (isLine_chars _ rfl rfl)
  · rw [List.forall_mem_append, List.forall_mem_singleton]
    refine ⟨fun line hline => ?_, isLine_chars _ rfl rfl⟩
    obtain ⟨arm, harm, rfl⟩ := List.mem_map.mp hline
    exact (((harms arm harm).isLine.append (isLine_chars _ rfl rfl)).append
      (isLine_quoted arm.2)).append (isLine_chars _ rfl rfl)

theorem isLine_enumFormat {function : String} (h : IsName function) (enumName : String)
    (bits : Nat) (extensible : Bool) (values : List UInt64) :
    ∀ line ∈ (Item.enumFormat function enumName bits extensible values).lines, IsLine line := by
  have hvalues : IsLine (listed values) := by
    refine isLine_intercalate (isLine_chars _ rfl rfl) fun part hpart => ?_
    obtain ⟨value, -, rfl⟩ := List.mem_map.mp hpart
    exact isLine_repr value.toNat
  have hlast : IsLine s!", {bits}, {extensible}, vec![{listed values}])))" :=
    ((((((isLine_chars _ rfl rfl).append (isLine_repr bits)).append (isLine_chars _ rfl rfl)).append
      (isLine_bool extensible)).append (isLine_chars _ rfl rfl)).append hvalues).append
      (isLine_chars _ rfl rfl)
  rw [Item.lines]
  refine isLine_braced ?_ (List.forall_mem_singleton.mpr ?_)
  · exact ((isLine_chars _ rfl rfl).append h.isLine).append (isLine_chars _ rfl rfl)
  · exact ((isLine_chars _ rfl rfl).append (isLine_quoted enumName)).append hlast

theorem isLine_structFieldLines {f : StructField} (hident : IsLine f.ident)
    (htype : IsLine f.type.text) : ∀ line ∈ Item.structFieldLines f, IsLine line := by
  rw [Item.structFieldLines, List.forall_mem_append, List.forall_mem_singleton]
  refine ⟨?_, ((((isLine_chars _ rfl rfl).append hident).append (isLine_chars _ rfl rfl)).append
    htype).append (isLine_chars _ rfl rfl)⟩
  split
  next start stop _ =>
    refine List.forall_mem_singleton.mpr ?_
    exact ((((((isLine_chars _ rfl rfl).append (isLine_repr f.number.toNat)).append
      (isLine_chars _ rfl rfl)).append (isLine_repr start)).append (isLine_chars _ rfl rfl)).append
      (isLine_repr stop)).append (isLine_chars _ rfl rfl)
  next => exact List.forall_mem_nil _

theorem isLine_struct {name : String} (h : IsName name) (totalBits : Nat)
    {fields : List StructField}
    (hfields : ∀ f ∈ fields, IsLine f.ident ∧ IsLine f.type.text) :
    ∀ line ∈ (Item.struct name totalBits fields).lines, IsLine line := by
  have hbits : IsLine s!"`: {totalBits} bits." :=
    ((isLine_chars _ rfl rfl).append (isLine_repr totalBits)).append (isLine_chars _ rfl rfl)
  rw [Item.lines, List.forall_mem_append, List.forall_mem_cons, List.forall_mem_singleton]
  refine ⟨⟨((isLine_chars _ rfl rfl).append h.isLine).append hbits, isLine_chars _ rfl rfl⟩,
    isLine_braced ((isLine_chars _ rfl rfl).append h.isLine) fun line hline => ?_⟩
  obtain ⟨f, hf, hline⟩ := List.mem_flatMap.mp hline
  exact isLine_structFieldLines (hfields f hf).1 (hfields f hf).2 line hline

theorem isLine_structDefault {name : String} (h : IsName name) {fields : List (String × ZeroExpr)}
    (hfields : ∀ f ∈ fields, IsLine f.1 ∧ IsLine f.2.text) :
    ∀ line ∈ (Item.structDefault name fields).lines, IsLine line := by
  rw [Item.lines]
  refine isLine_braced ((isLine_chars _ rfl rfl).append h.isLine)
    (isLine_braced (isLine_chars _ rfl rfl) (isLine_braced (isLine_chars _ rfl rfl) ?_))
  intro line hline
  obtain ⟨f, hf, rfl⟩ := List.mem_map.mp hline
  exact (((hfields f hf).1.append (isLine_chars _ rfl rfl)).append (hfields f hf).2).append
    (isLine_chars _ rfl rfl)

theorem isLine_codec {name sizeIdent : String} {fields : List FieldExpr} (hname : IsName name)
    (hsize : IsName sizeIdent) (hfields : ∀ f ∈ fields, f.format.Named) :
    ∀ line ∈ (Item.codec name sizeIdent fields).lines, IsLine line := by
  have hentries : ∀ line ∈ fields.map entryText, IsLine line := by
    intro line hline
    obtain ⟨f, hf, rfl⟩ := List.mem_map.mp hline
    exact ((((((((isLine_chars _ rfl rfl).append (isLine_repr f.number.toNat)).append
      (isLine_chars _ rfl rfl)).append (isLine_quoted f.name)).append (isLine_chars _ rfl rfl)).append
      (isLine_repr f.offset)).append (isLine_chars _ rfl rfl)).append
      (isLine_formatExpr (hfields f hf))).append (isLine_chars _ rfl rfl)
  have hconst : IsLine s!"const BYTES_LENGTH: usize = {sizeIdent};" :=
    ((isLine_chars _ rfl rfl).append hsize.isLine).append (isLine_chars _ rfl rfl)
  have htitle : IsLine (Text.quoted name ++ ",") :=
    (isLine_quoted name).append (isLine_chars _ rfl rfl)
  rw [Item.lines, Item.codecLines]
  have hnew : ∀ line ∈ [Text.quoted name ++ ",", "vec!["] ++ Lines.indent (fields.map entryText) ++
      ["],"], IsLine line := by
    rw [List.forall_mem_append, List.forall_mem_append, List.forall_mem_cons,
      List.forall_mem_singleton, List.forall_mem_singleton]
    exact ⟨⟨⟨htitle, isLine_chars _ rfl rfl⟩, isLine_indent hentries⟩, isLine_chars _ rfl rfl⟩
  have hcell : ∀ line ∈ ["Arc::new(MessageProcessor::new("] ++
      Lines.indent ([Text.quoted name ++ ",", "vec!["] ++ Lines.indent (fields.map entryText) ++
        ["],"]) ++ ["))"], IsLine line := by
    rw [List.forall_mem_append, List.forall_mem_append, List.forall_mem_singleton,
      List.forall_mem_singleton]
    exact ⟨⟨isLine_chars _ rfl rfl, isLine_indent hnew⟩, isLine_chars _ rfl rfl⟩
  refine isLine_braced ((isLine_chars _ rfl rfl).append hname.isLine) ?_
  rw [List.forall_mem_append, List.forall_mem_cons, List.forall_mem_singleton]
  refine ⟨⟨hconst, isLine_chars _ rfl rfl⟩, isLine_braced (isLine_chars _ rfl rfl) ?_⟩
  rw [List.forall_mem_append, List.forall_mem_append, List.forall_mem_singleton,
    List.forall_mem_cons, List.forall_mem_singleton]
  exact ⟨⟨isLine_chars _ rfl rfl, isLine_indent hcell⟩, isLine_chars _ rfl rfl,
    isLine_chars _ rfl rfl⟩

-- An arm holds what its place and its type hold.
theorem isLine_setText {arm : Arm} (hplace : IsLine arm.place) (htype : IsLine arm.kind.typeText) :
    IsLine arm.setText := by
  have hnumber := isLine_repr arm.number.toNat
  rw [Arm.setText]
  revert htype
  cases arm.kind with
  | bool =>
    exact fun _ => (((hnumber.append (isLine_chars _ rfl rfl)).append hplace).append
      (isLine_chars _ rfl rfl))
  | unsigned type =>
    exact fun htype => (((((hnumber.append (isLine_chars _ rfl rfl)).append hplace).append
      (isLine_chars _ rfl rfl)).append hplace).append (isLine_chars _ rfl rfl)).append htype |>.append
      (isLine_chars _ rfl rfl)
  | signed bits type =>
    exact fun htype => (((((((hnumber.append (isLine_chars _ rfl rfl)).append hplace).append
      (isLine_chars _ rfl rfl)).append hplace).append (isLine_chars _ rfl rfl)).append
      (isLine_repr bits)).append (isLine_chars _ rfl rfl)).append htype |>.append
      (isLine_chars _ rfl rfl)
  | message => exact fun _ => isLine_chars _ rfl rfl

theorem isLine_matchLines {arms : List Arm} (text : Arm → String) {fallback : String}
    (harms : ∀ arm ∈ arms, IsLine (text arm)) (hfallback : IsLine fallback) :
    ∀ line ∈ Arm.matchLines (arms.map text) fallback, IsLine line := by
  refine isLine_braced (isLine_chars _ rfl rfl) ?_
  rw [List.forall_mem_append, List.forall_mem_singleton]
  refine ⟨fun line hline => ?_,
    ((isLine_chars _ rfl rfl).append hfallback).append (isLine_chars _ rfl rfl)⟩
  obtain ⟨arm, harm, rfl⟩ := List.mem_map.mp hline
  exact harms arm harm

theorem isLine_accessor {name : String} (h : IsName name) {arms : List Arm}
    (harms : ∀ arm ∈ arms, IsLine arm.place ∧ IsLine arm.kind.typeText) :
    ∀ line ∈ (Item.accessor name arms).lines, IsLine line := by
  have hnumber := fun arm : Arm => isLine_repr arm.number.toNat
  have hget : ∀ arm ∈ arms, IsLine arm.getText := fun arm harm =>
    (((hnumber arm).append (isLine_chars _ rfl rfl)).append (harms arm harm).1).append
      (isLine_chars _ rfl rfl)
  have hset : ∀ arm ∈ arms, IsLine arm.setText := fun arm harm =>
    isLine_setText (harms arm harm).1 (harms arm harm).2
  have hmessage : ∀ arm ∈ arms, IsLine arm.messageText := fun arm harm =>
    (((hnumber arm).append (isLine_chars _ rfl rfl)).append (harms arm harm).1).append
      (isLine_chars _ rfl rfl)
  have hmessageMut : ∀ arm ∈ arms, IsLine arm.messageMutText := fun arm harm =>
    (((hnumber arm).append (isLine_chars _ rfl rfl)).append (harms arm harm).1).append
      (isLine_chars _ rfl rfl)
  have hblank : ∀ line ∈ [""], IsLine line :=
    List.forall_mem_singleton.mpr (isLine_chars _ rfl rfl)
  rw [Item.lines, Item.accessorLines, List.forall_mem_cons]
  refine ⟨isLine_chars _ rfl rfl, isLine_braced ((isLine_chars _ rfl rfl).append h.isLine) ?_⟩
  rw [List.forall_mem_append]
  refine ⟨?_, ?_⟩
  · split
    next =>
      rw [List.forall_mem_append, List.forall_mem_cons, List.forall_mem_singleton]
      exact ⟨isLine_braced (isLine_chars _ rfl rfl)
        (List.forall_mem_singleton.mpr (isLine_chars _ rfl rfl)), isLine_chars _ rfl rfl,
        (isLine_chars _ rfl rfl).append (isLine_chars _ rfl rfl)⟩
    next =>
      rw [List.forall_mem_append, List.forall_mem_append]
      exact ⟨⟨isLine_braced (isLine_chars _ rfl rfl) (isLine_matchLines _
        (fun arm harm => hget arm (List.mem_of_mem_filter harm)) (isLine_chars _ rfl rfl)), hblank⟩,
        isLine_braced (isLine_chars _ rfl rfl) (isLine_matchLines _
          (fun arm harm => hset arm (List.mem_of_mem_filter harm)) (isLine_chars _ rfl rfl))⟩
  · split
    next => exact List.forall_mem_nil _
    next =>
      rw [List.forall_mem_append, List.forall_mem_append, List.forall_mem_append]
      exact ⟨⟨⟨hblank, isLine_braced (isLine_chars _ rfl rfl) (isLine_matchLines _
        (fun arm harm => hmessage arm (List.mem_of_mem_filter harm)) (isLine_chars _ rfl rfl))⟩,
        hblank⟩, isLine_braced (isLine_chars _ rfl rfl) (isLine_matchLines _
          (fun arm harm => hmessageMut arm (List.mem_of_mem_filter harm))
          (isLine_chars _ rfl rfl))⟩

/-- No line of an item holds a line break. -/
theorem Legible.isLine {item : Item} (h : Legible item) : ∀ line ∈ item.lines, IsLine line := by
  cases item with
  | constant ident value =>
    exact List.forall_mem_singleton.mpr (isLine_constantLine h value)
  | typeAlias name type =>
    exact List.forall_mem_singleton.mpr (((((isLine_chars _ rfl rfl).append h.1.isLine).append
      (isLine_chars _ rfl rfl)).append h.2).append (isLine_chars _ rfl rfl))
  | enumValue ident enumName value =>
    exact List.forall_mem_singleton.mpr (((((((isLine_chars _ rfl rfl).append h.1.isLine).append
      (isLine_chars _ rfl rfl)).append h.2.isLine).append (isLine_chars _ rfl rfl)).append
      (isLine_repr value.toNat)).append (isLine_chars _ rfl rfl))
  | enumNames function enumName arms => exact isLine_enumNames h.1 h.2.1 h.2.2
  | enumFormat function enumName bits extensible values =>
    exact isLine_enumFormat h enumName bits extensible values
  | byteCount ident count =>
    exact List.forall_mem_singleton.mpr (((((isLine_chars _ rfl rfl).append (IsName.isLine h)).append
      (isLine_chars _ rfl rfl)).append (isLine_repr count)).append (isLine_chars _ rfl rfl))
  | struct name totalBits fields => exact isLine_struct h.1 totalBits h.2
  | structDefault name fields => exact isLine_structDefault h.1 h.2
  | accessor name arms => exact isLine_accessor h.1 h.2
  | codec name sizeIdent fields => exact isLine_codec h.1 h.2.1 h.2.2

/-! ## 4. Modules -/

theorem isLine_headerLines {out : SourceModule} (hname : IsLine out.schemaName)
    (himports : ∀ path ∈ out.imports?, IsLine path) : ∀ line ∈ out.headerLines, IsLine line := by
  rw [SourceModule.headerLines, List.forall_mem_append, List.forall_mem_append,
    List.forall_mem_append, List.forall_mem_singleton, List.forall_mem_singleton]
  refine ⟨⟨⟨isLine_chars _ rfl rfl, ?_⟩, isLine_chars _ rfl rfl⟩, ?_⟩
  · split
    next => exact List.forall_mem_nil _
    next => exact List.forall_mem_singleton.mpr ((isLine_chars _ rfl rfl).append hname)
  · split
    next => exact List.forall_mem_nil _
    next path hpath =>
      have huse : IsLine ("use " ++ path ++ "::\x7b") :=
        ((isLine_chars _ rfl rfl).append (himports path hpath)).append (isLine_chars _ rfl rfl)
      simp only [List.forall_mem_cons]
      exact ⟨isLine_chars _ rfl rfl, isLine_chars _ rfl rfl, isLine_chars _ rfl rfl,
        isLine_chars _ rfl rfl, huse, isLine_chars _ rfl rfl, isLine_chars _ rfl rfl,
        isLine_chars _ rfl rfl, isLine_chars _ rfl rfl, List.forall_mem_nil _⟩

/-- What a module says is what its items say. -/
theorem read_text {out : SourceModule} (hname : IsLine out.schemaName)
    (himports : ∀ path ∈ out.imports?, IsLine path) (h : ∀ item ∈ out.items, Legible item) :
    read out.text = out.items.flatMap said :=
  read_text_of_lines h (isLine_headerLines hname himports) fun item hitem => (h item hitem).isLine

end SourceReader

end Bitwire
