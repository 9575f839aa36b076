/-
A queue of fixed capacity in a ring of cells, and a reader that looks a
bounded number of items ahead in a list by parking them in such a queue.
Pushing onto a full queue is impossible and answers `none`; so does looking
further ahead than the queue has room. The parser's two-token window is an
instance of the reader's rule.
-/

namespace MiniC

/-- A ring of `n` cells, `size` of them in use from the cell `start` on. -/
structure Ring (α : Type) (n : Nat) where
  cells : Vector (Option α) n
  start : Nat
  size : Nat

namespace Ring

variable {α : Type} {n : Nat}

/-- A ring with no item in it. -/
def empty : Ring α n := ⟨Vector.replicate n none, 0, 0⟩

/-- The item `i` places behind the front. -/
def get? (r : Ring α n) (i : Nat) : Option α :=
  if i < r.size then r.cells[(r.start + i) % n]?.join else none

/-- Puts an item at the back, unless every cell is in use. -/
def push? (r : Ring α n) (a : α) : Option (Ring α n) :=
  if r.size < n then
    some { r with
      cells := r.cells.setIfInBounds ((r.start + r.size) % n) (some a)
      size := r.size + 1 }
  else none

/-- Takes the item at the front. -/
def pop (r : Ring α n) : Option α × Ring α n :=
  if 0 < r.size then
    (r.cells[r.start]?.join,
      { cells := r.cells.setIfInBounds r.start none
        start := (r.start + 1) % n
        size := r.size - 1 })
  else (none, r)

/-- The items from front to back. -/
def toList (r : Ring α n) : List α := (List.range r.size).filterMap r.get?

end Ring

/-- A list read from the front with up to `n` items parked ahead. -/
structure Lookahead (α : Type) (n : Nat) where
  parked : Ring α n
  source : List α

namespace Lookahead

variable {α : Type} {n : Nat}

/-- Reads a list from its start. -/
def ofList (items : List α) : Lookahead α n := ⟨.empty, items⟩

/-- The items not yet taken. -/
def toList (l : Lookahead α n) : List α := l.parked.toList ++ l.source

/-- Parks items until there is one `i` places ahead or the list is at its
end. -/
def fill? (i : Nat) (parked : Ring α n) : List α → Option (Lookahead α n)
  | [] => some ⟨parked, []⟩
  | a :: rest =>
    if parked.size ≤ i then
      match parked.push? a with
      | some parked => fill? i parked rest
      | none => none
    else some ⟨parked, a :: rest⟩

/-- The item `i` places ahead, which stays where it is. -/
def peek? (l : Lookahead α n) (i : Nat) : Option (Option α × Lookahead α n) :=
  (fill? i l.parked l.source).map fun l => (l.parked.get? i, l)

/-- Takes the next item. -/
def next (l : Lookahead α n) : Option α × Lookahead α n :=
  if 0 < l.parked.size then
    let (a, parked) := l.parked.pop
    (a, { l with parked })
  else
    match l.source with
    | [] => (none, l)
    | a :: rest => (some a, { l with source := rest })

end Lookahead

end MiniC
