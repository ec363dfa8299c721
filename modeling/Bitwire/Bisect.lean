/-!
# Bisection

`partitionPoint` finds where a test changes from true to false in a range of indices on which it
is true first and false afterwards.  Searching a table sorted by a key is the special case whose
test is "the key is at most the one sought".
-/

namespace Bitwire

namespace Bisect

/-- The first index of `[lo, hi)` at which `test` fails, found by halving the range.  The test is
expected to hold up to some index and to fail from there on. -/
@[specialize]
def search (test : Nat → Bool) (lo hi : Nat) : Nat :=
  if lo < hi then
    let mid := lo + (hi - lo) / 2
    if test mid then search test (mid + 1) hi else search test lo mid
  else lo
termination_by hi - lo

/-- How many entries at the front of a table pass `test`. -/
@[specialize]
def partitionPoint {α : Type} (table : Array α) (test : α → Bool) : Nat :=
  search (fun i => (table[i]?).any test) 0 table.size

/-- The index of an entry whose key is `target` in a table sorted by `key`: the last entry whose
key is at most `target`, if its key is `target`. -/
@[specialize]
def indexOf? {α κ : Type} [LE κ] [DecidableLE κ] [DecidableEq κ] (table : Array α) (key : α → κ)
    (target : κ) : Option Nat :=
  match partitionPoint table (fun a => decide (key a ≤ target)) with
  | 0 => none
  | i + 1 =>
    match table[i]? with
    | some a => if key a = target then some i else none
    | none => none

/-- The entry whose key is `target` in a table sorted by `key`. -/
@[specialize]
def find? {α κ : Type} [LE κ] [DecidableLE κ] [DecidableEq κ] (table : Array α) (key : α → κ)
    (target : κ) : Option α :=
  (indexOf? table key target).bind (table[·]?)

end Bisect

end Bitwire
