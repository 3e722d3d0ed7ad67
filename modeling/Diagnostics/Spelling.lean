import Diagnostics.Text

/-! # Edit distance, and the nearest candidates to a misspelled name

The distance from one text to another is the least number of single-character insertions, deletions and substitutions
that lead from the first to the second.  It is computed row by row.

* **Cells.**  Cell `x` of row `y` is the distance from the first `y` characters of the source to the first `x`
  characters of the target; only one row is held.
* **Rows.**  `Row.start` is row zero and `Row.next` makes a row from the one above it.  A cell is reached from the cell
  above it by a deletion, from its left neighbour by an insertion, and from the cell above that one by a substitution,
  which is free when the two characters agree.
* **Bound.**  A bound other than zero cuts the computation short: no later row has a cell below the least cell of a
  row, so once that cell exceeds the bound the distance does too.  Whatever exceeds the bound counts as the count after
  it.
* **Candidates.**  Among the names in scope those at the least distance from a misspelled one are offered, in the order
  in which they are given, and only if that distance is small. -/

namespace Diagnostics

/-! ### Edit distance -/

namespace Spelling

/-- A row of the table: its leftmost cell and the cells to the right of it. -/
structure Row where
  leftmost : Nat
  others : List Nat
deriving DecidableEq, Repr

namespace Row

/-- The cells of a row from left to right. -/
def cells (row : Row) : List Nat := row.leftmost :: row.others

/-- The least cell of a row. -/
def least (row : Row) : Nat := row.others.foldl min row.leftmost

/-- The rightmost cell of a row. -/
def rightmost (row : Row) : Nat := row.others.getLastD row.leftmost

/-- The cost of replacing one character by another. -/
def substitution (c d : Char) : Nat := if c = d then 0 else 1

/-- The distances from the empty text. -/
def start (target : List Char) : Row := ⟨0, List.range' 1 target.length⟩

/-- The cells of the row of `c` to the right of the cell `left`, which stands under `corner`. -/
def extend (c : Char) : (corner left : Nat) → (above : List Nat) → (target : List Char) → List Nat
  | corner, left, up :: above, d :: target =>
    let cell := min (min (corner + substitution c d) (left + 1)) (up + 1)
    cell :: extend c up cell above target
  | _, _, _, _ => []

/-- The row under `row` when the source goes on with `c`. -/
def next (target : List Char) (row : Row) (c : Char) : Row :=
  ⟨row.leftmost + 1, extend c row.leftmost (row.leftmost + 1) row.others target⟩

/-- The row reached from `row` along the rest of the source, or `none` once the least cell of a row exceeds the
bound. -/
def advance? (target : List Char) (bound : Nat) : Row → (source : List Char) → Option Row
  | row, [] => some row
  | row, c :: source =>
    let below := row.next target c
    if bound ≠ 0 ∧ bound < below.least then none else advance? target bound below source

end Row

/-- The edit distance from `source` to `target`.  A `bound` of zero sets no bound; of another one the distance is
reported up to it, and a greater distance as the count after it. -/
def distance (source target : String) (bound : Nat) : Nat :=
  match (Row.start target.toList).advance? target.toList bound source.toList with
  | none => Count.next bound
  | some row => if bound ≠ 0 ∧ bound < row.rightmost then Count.next bound else row.rightmost

/-! ### The nearest candidates to a misspelled name -/

/-- The candidates kept so far, all at one distance from the query. -/
structure Tier where
  distance : Nat
  names : List String
deriving DecidableEq, Repr

namespace Tier

/-- The tier after one more candidate: a nearer one starts a new tier, one at the same distance joins it. -/
def consider (query : String) (tier : Tier) (candidate : String) : Tier :=
  let d := Spelling.distance query candidate (Count.next tier.distance)
  if d < tier.distance then ⟨d, [candidate]⟩
  else if d = tier.distance then ⟨tier.distance, tier.names ++ [candidate]⟩
  else tier

end Tier

/-- The greatest distance at which a name is offered unless another one is asked for. -/
def defaultDelta : Nat := 2

/-- The candidates at the least distance from the query, if that is at most `delta`. -/
def nearestWithin (delta : Nat) (query : String) (candidates : List String) : List String :=
  (candidates.foldl (Tier.consider query) ⟨delta, []⟩).names

/-- The candidates at the least distance from the query, if that is small enough to offer them. -/
def nearest (query : String) (candidates : List String) : List String := nearestWithin defaultDelta query candidates

/-- A name between quotation marks. -/
def quoted (name : String) : String := "\"" ++ name ++ "\""

/-- The question that offers names to the user; there is none without a name. -/
def question? : List String → Option String
  | [] => none
  | [name] => some ("Did you mean " ++ quoted name ++ "?")
  | names => some ("Did you mean one of " ++ String.intercalate ", " (names.map quoted) ++ "?")

end Spelling

end Diagnostics
