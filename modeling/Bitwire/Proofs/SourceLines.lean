import Bitwire.Proofs.SourceUnits

/-!
# The lines of written source

The size of a message, the function of an enum and the codec of a message are read from the lines
that they are written in.
-/

namespace Bitwire

namespace SourceReader

/-! ## 1. Indentation -/

/-- A line one level further in; an empty line stays empty. -/
def deeper : List Char → List Char
  | [] => []
  | c :: cs => indented 1 (c :: cs)

theorem toList_indent (lines : List String) :
    (Lines.indent lines).map String.toList = (lines.map String.toList).map deeper := by
  rw [Lines.indent, List.map_map, List.map_map]
  refine List.map_congr_left fun line _ => ?_
  rw [Function.comp_apply, Function.comp_apply]
  by_cases hempty : line.isEmpty = true
  · rw [if_pos hempty, String.isEmpty_iff.mp hempty]
    rfl
  · rw [if_neg hempty, String.toList_append]
    cases hline : line.toList with
    | nil =>
      rw [String.isEmpty_iff, ← String.toList_inj, hline] at hempty
      exact absurd rfl hempty
    | cons c cs => rfl

theorem deeper_of_ne_nil {line : List Char} (h : line ≠ []) : deeper line = indented 1 line := by
  cases line with
  | nil => exact absurd rfl h
  | cons c cs => rfl

theorem deeper_indented (levels : Nat) (line : List Char) :
    deeper (indented (levels + 1) line) = indented (levels + 2) line :=
  rfl

-- Lines between braces.
theorem toList_braced (head : String) (body : List String) :
    (Lines.braced head body).map String.toList =
      (head ++ " \x7b").toList :: ((body.map String.toList).map deeper ++ [['\x7d']]) := by
  have hclose : "\x7d".toList = ['\x7d'] := by decide
  rw [Lines.braced, List.cons_append, List.map_cons, List.map_append, toList_indent,
    List.map_singleton, hclose]

/-- The text of an entry of a codec. -/
def entryText (f : FieldExpr) : String :=
  s!"FieldProcessor::new({f.number}, {Text.quoted f.name}, {f.offset}, {f.format.text}),"

theorem toList_entryText (f : FieldExpr) : (entryText f).toList =
    "FieldProcessor::new(".toList ++ (f.number.toNat.repr.toList ++ (", ".toList ++
      ((Text.quoted f.name).toList ++ (", ".toList ++ (f.offset.repr.toList ++ (", ".toList ++
        (f.format.text.toList ++ "),".toList))))))) := by
  have htext : entryText f = "FieldProcessor::new(" ++ f.number.toNat.repr ++ ", " ++
    Text.quoted f.name ++ ", " ++ f.offset.repr ++ ", " ++ f.format.text ++ ")," := rfl
  rw [htext]
  simp only [String.toList_append, List.append_assoc]

/-- The lines of a codec behind its first line. -/
def codecRest (name sizeIdent : String) (fields : List FieldExpr) : List (List Char) :=
  indented 1 s!"const BYTES_LENGTH: usize = {sizeIdent};".toList ::
    (codecOpening ++ indented 4 (Text.quoted name ++ ",").toList ::
      indented 4 "vec![".toList :: (fields.map (fun f => indented 5 (entryText f).toList) ++
        indented 4 "],".toList :: codecClosing))

theorem toList_codecLines (name sizeIdent : String) (fields : List FieldExpr) :
    (Item.codecLines name sizeIdent fields).map String.toList =
      (s!"impl BitMessage for {name}" ++ " \x7b").toList :: codecRest name sizeIdent fields := by
  have hsize : s!"const BYTES_LENGTH: usize = {sizeIdent};".toList ≠ [] := by
    rw [String.toList_append]
    exact List.append_ne_nil_of_right_ne_nil _ (by decide)
  have htitle : (Text.quoted name ++ ",").toList ≠ [] := by
    rw [String.toList_append]
    exact List.append_ne_nil_of_right_ne_nil _ (by decide)
  have hentry : ∀ f, deeper (entryText f).toList = indented 1 (entryText f).toList := by
    intro f
    refine deeper_of_ne_nil ?_
    rw [toList_entryText]
    exact List.append_ne_nil_of_left_ne_nil (by decide) _
  have hprocessor : "fn processor() -> &'static Arc<MessageProcessor>" ++ " \x7b" =
    "fn processor() -> &'static Arc<MessageProcessor> \x7b" := rfl
  have hentryText : (fun f : FieldExpr =>
    s!"FieldProcessor::new({f.number}, {Text.quoted f.name}, {f.offset}, {f.format.text}),") =
      entryText := rfl
  rw [Item.codecLines]
  simp only [hentryText]
  simp (disch := decide) only [List.map_append, toList_braced, toList_indent, List.map_cons,
    List.map_nil, String.toList_empty, deeper_of_ne_nil, deeper_of_ne_nil hsize,
    deeper_of_ne_nil htitle, deeper_indented, hprocessor, List.map_map, Function.comp_def, hentry]
  simp only [codecRest, codecOpening, codecClosing, List.cons_append, List.nil_append,
    List.append_assoc]
  rfl

/-! ## 2. What is read -/

theorem inner?_indented (levels : Nat) (line : List Char) :
    inner? levels (indented levels line) = some line := by
  induction levels with
  | zero => rfl
  | succ levels ih => rw [indented, inner?, literal?_append, Option.bind_some, ih]

theorem byteCount?_line {ident : String} (h : IsName ident) (count : Nat) :
    byteCount? s!"pub const {ident}: usize = {count};".toList = some (.byteCount ident count) := by
  have htext : s!"pub const {ident}: usize = {count};" =
    "pub const " ++ ident ++ ": usize = " ++ count.repr ++ ";" := rfl
  rw [htext]
  simp (disch := decide) only [String.toList_append, List.append_assoc, byteCount?,
    literal?_append, nameBefore?_append h, numberBefore?_end, Option.bind_eq_bind,
    Option.bind_some]
  rfl

theorem nameBetween?_line {start stop name : String} (h : IsName name)
    (hstop : stop.toList.head?.any endsName = true) :
    nameBetween? start stop (start ++ name ++ stop).toList = some name := by
  simp only [String.toList_append, List.append_assoc, nameBetween?, literal?_append,
    nameBefore?_end h hstop, Option.bind_eq_bind, Option.bind_some, guard_true, Option.pure_def]

/-- The text of the values of an enum. -/
abbrev listed (values : List UInt64) : String :=
  String.intercalate ", " (values.map toString)

theorem enumFormat?_line (function enumName : String) (bits : Nat) (extensible : Bool)
    (values : List UInt64) :
    enumFormat? function (indented 1 ("Processor::Enum(Arc::new(EnumProcessor::new(" ++
      Text.quoted enumName ++ s!", {bits}, {extensible}, vec![{listed values}])))").toList) =
      some (.enumFormat function enumName bits extensible values) := by
  have htail : s!", {bits}, {extensible}, vec![{listed values}])))" =
      ", " ++ bits.repr ++ ", " ++ toString extensible ++ ", vec![" ++
        String.intercalate ", " ((values.map UInt64.toNat).map Nat.repr) ++ "])))" := by
    rw [List.map_map]
    rfl
  have hclose : "])))".toList = ']' :: ")))".toList := by decide
  have hsize : ∀ v ∈ values.map UInt64.toNat, v < UInt64.size := by
    intro v hv
    obtain ⟨value, -, rfl⟩ := List.mem_map.mp hv
    exact value.toNat_lt
  have hvalues : (values.map UInt64.toNat).map UInt64.ofNat = values := by
    rw [List.map_map]
    exact List.map_id'' (fun v => UInt64.ofNat_toNat) values
  rw [htail]
  simp (disch := decide) only [String.toList_append, List.append_assoc, enumFormat?,
    inner?_indented, literal?_append, numberBefore?_append, quoted?_append, Option.bind_eq_bind,
    Option.bind_some, bool?_append, hclose, numbers?_append]
  rw [guard, if_pos ⟨trivial, hsize⟩, hvalues]
  rfl

theorem fieldExpr?_line {f : FieldExpr} (h : f.format.Named) :
    fieldExpr? (indented 5 (entryText f).toList) = some f := by
  have hsize : f.number.toNat < UInt16.size := f.number.toNat_lt
  rw [toList_entryText]
  simp (disch := decide) only [fieldExpr?, inner?_indented, literal?_append, numberBefore?_append,
    quoted?_append, Option.bind_eq_bind, Option.bind_some, formatExpr?_self h, hsize, and_self,
    guard_true, Option.pure_def, UInt16.ofNat_toNat]

theorem fieldExprs?_lines {fields : List FieldExpr} (h : ∀ f ∈ fields, f.format.Named)
    (rest : List (List Char)) :
    fieldExprs? (fields.map (fun f => indented 5 (entryText f).toList) ++
      indented 4 "],".toList :: rest) = some (fields, rest) := by
  induction fields with
  | nil => rw [List.map_nil, List.nil_append, fieldExprs?, if_pos rfl]
  | cons f fields ih =>
    obtain ⟨hf, hfields⟩ := List.forall_mem_cons.mp h
    have hne : indented 5 (entryText f).toList ≠ indented 4 "],".toList := by
      intro heq
      have hhead := congrArg (fun line => (line.drop 16).head?) heq
      cases hhead
    rw [List.map_cons, List.cons_append, fieldExprs?, if_neg hne, fieldExpr?_line hf, ih hfields]
    rfl

theorem formatName?_line (name : String) :
    formatName? (indented 4 (Text.quoted name ++ ",").toList) = some name := by
  simp only [formatName?, String.toList_append, inner?_indented, quoted?_append,
    Option.bind_eq_bind, Option.bind_some, guard_true, Option.pure_def]

theorem codec?_lines (name : String) {sizeIdent : String} {fields : List FieldExpr}
    (hsize : IsName sizeIdent) (hfields : ∀ f ∈ fields, f.format.Named)
    (rest : List (List Char)) :
    codec? name (codecRest name sizeIdent fields ++ rest) =
      some (.codec name sizeIdent fields) := by
  have hconst : s!"const BYTES_LENGTH: usize = {sizeIdent};" =
    "const BYTES_LENGTH: usize = " ++ sizeIdent ++ ";" := rfl
  have hlines : ∀ front after : List (List Char),
      (front ++ after).dropPrefix? front = some after :=
    fun front after => List.dropPrefix?_append_of_beq after (beq_self_eq_true _)
  have hline : ∀ (line : List Char) (after : List (List Char)),
      (line :: after).dropPrefix? [line] = some after :=
    fun line after => hlines [line] after
  rw [codecRest, hconst]
  simp (disch := decide) only [codec?, List.append_assoc, List.cons_append, line?,
    inner?_indented, nameBetween?_line hsize, Option.bind_eq_bind, Option.bind_some, hlines,
    hline, formatName?_line, guard_true, fieldExprs?_lines hfields, Option.pure_def]

end SourceReader

end Bitwire
