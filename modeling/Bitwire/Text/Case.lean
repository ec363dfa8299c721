import Bitwire.Bisect
import Bitwire.Text.CaseTables

/-!
# Letter case

Capital and small letters of all scripts, and the full mappings between them, which may turn one
character into several.  ASCII letters are decided directly; everything else by table.
-/

namespace Bitwire

namespace Text

namespace CodeRun

/-- Whether a code point belongs to a run. -/
def has (run : CodeRun) (c : Nat) : Bool :=
  decide (run.first ≤ c) && decide (c ≤ run.last) && (c - run.first) % run.stride == 0

end CodeRun

/-- The entry of a table sorted by `first` that alone can hold `c`: the last one that starts at or
before `c`. -/
def candidate? {α : Type} (table : Array α) (first : α → Nat) (c : Nat) : Option α :=
  match Bisect.partitionPoint table (fun a => decide (first a ≤ c)) with
  | 0 => none
  | i + 1 => table[i]?

/-- Whether a code point is in one of the runs of a table. -/
def inRuns (table : Array CodeRun) (c : Nat) : Bool :=
  (candidate? table CodeRun.first c).any (·.has c)

/-- What a table of mapped runs and a table of expansions make of a character; a character that is
in neither stays as it is. -/
def mapChar (runs : Array MappedRun) (expansions : Array (Nat × List Nat)) (c : Char) :
    List Char :=
  match Bisect.find? expansions Prod.fst c.toNat with
  | some (_, targets) => targets.map Char.ofNat
  | none =>
    match candidate? runs (·.run.first) c.toNat with
    | some m => if m.run.has c.toNat then [Char.ofNat (m.target + (c.toNat - m.run.first))] else [c]
    | none => [c]

/-- Whether a character is a capital letter. -/
def isUpper (c : Char) : Bool :=
  if c.toNat < 0x80 then c.isUpper else inRuns uppercaseRuns c.toNat

/-- Whether a character is a small letter. -/
def isLower (c : Char) : Bool :=
  if c.toNat < 0x80 then c.isLower else inRuns lowercaseRuns c.toNat

/-- The small form of a character. -/
def toLower (c : Char) : List Char :=
  if c.toNat < 0x80 then [c.toLower] else mapChar toLowerRuns toLowerExpansions c

/-- The capital form of a character. -/
def toUpper (c : Char) : List Char :=
  if c.toNat < 0x80 then [c.toUpper] else mapChar toUpperRuns toUpperExpansions c

end Text

end Bitwire
