/-
The ring is a queue, and the reader over it is the list it reads.

# Rings

A ring `Holds` items when they stand in its cells from the start on; pushing
onto one that is not full puts an item at their end, popping takes the first
away, and cell numbers that have wrapped around do not meet as long as there are
no more items than cells (`place_inj`). Cells from which an item was taken are
never looked at.

# Readers

A reader `Reads` what it has parked followed by its source, and looking less far
ahead than the ring has room changes nothing about that: items go from the
source to the ring, behind those that are there. So a request within the window
never has it push onto a full ring, and is answered as by the list
(`peek?_reads`, `next_reads`).
Consumed by the account of whole runs of requests.
-/
import MiniC.Lookahead
import Mathlib.Data.Nat.ModEq

namespace MiniC

variable {α : Type} {n : Nat}

-- ================================================================= rings

namespace Ring

/-- Whether a ring has exactly these items in it, from front to back. -/
structure Holds (r : Ring α n) (items : List α) : Prop where
  start : r.start < n
  size : r.size = items.length
  room : items.length ≤ n
  cells : ∀ i (h : i < items.length), r.cells[(r.start + i) % n]? = some (some items[i])

variable {r : Ring α n} {items : List α} {a : α}

/-- Two places of a ring that are less than a turn apart are different
cells. -/
theorem place_inj {i j : Nat} (hi : i < n) (hj : j < n) (hne : i ≠ j) (start : Nat) :
    (start + i) % n ≠ (start + j) % n := by
  intro h
  have hmod : i % n = j % n := Nat.ModEq.add_left_cancel' start h
  rw [Nat.mod_eq_of_lt hi, Nat.mod_eq_of_lt hj] at hmod
  exact hne hmod

/-- An empty ring holds nothing. -/
theorem empty_holds (h : 0 < n) : (empty : Ring α n).Holds [] :=
  ⟨h, rfl, Nat.zero_le n, nofun⟩

/-- The items of a ring are found in their order. -/
theorem get?_holds (h : r.Holds items) (i : Nat) : r.get? i = items[i]? := by
  unfold get?
  rw [h.size]
  by_cases hi : i < items.length
  · rw [if_pos hi, h.cells i hi, List.getElem?_eq_getElem hi]
    rfl
  · rw [if_neg hi, List.getElem?_eq_none (Nat.le_of_not_lt hi)]

/-- A ring that is not full takes one more item. -/
theorem push?_holds (h : r.Holds items) (hroom : items.length < n) (a : α) :
    ∃ r', r.push? a = some r' ∧ r'.Holds (items ++ [a]) := by
  have hfree : r.size < n := by rwa [h.size]
  refine ⟨_, if_pos hfree, ⟨h.start, ?_, ?_, fun i hi => ?_⟩⟩
  · rw [List.length_append]
    exact congrArg (· + 1) h.size
  · rw [List.length_append]
    exact hroom
  · rw [h.size]
    have hlast : (r.start + items.length) % n < n := Nat.mod_lt _ (by omega)
    by_cases hold : i < items.length
    · have hapart := place_inj (by omega) hroom (Nat.ne_of_lt hold) r.start
      rw [Vector.getElem?_setIfInBounds_ne (Ne.symm hapart), h.cells i hold,
        List.getElem_append_left hold]
    · obtain rfl : i = items.length := by
        rw [List.length_append, List.length_singleton] at hi
        omega
      rw [Vector.getElem?_setIfInBounds_self_of_lt hlast, List.getElem_concat_length rfl]

/-- What is popped is the first item. -/
theorem pop_holds (h : r.Holds (a :: items)) : r.pop.1 = some a ∧ r.pop.2.Holds items := by
  have hsize : r.size = items.length + 1 := h.size
  have hlength : items.length + 1 ≤ n := h.room
  have hsome : 0 < r.size := by omega
  have hfront : r.cells[r.start]? = some (some a) := by
    have hcell := h.cells 0 (Nat.zero_lt_succ _)
    rwa [Nat.add_zero, Nat.mod_eq_of_lt h.start] at hcell
  unfold pop
  rw [if_pos hsome]
  refine ⟨by rw [hfront]; rfl, ⟨Nat.mod_lt _ (by omega), by simp [hsize], by omega, fun i hi => ?_⟩⟩
  have hcell := h.cells (i + 1) (by simpa using hi)
  have hplace : ((r.start + 1) % n + i) % n = (r.start + (i + 1)) % n := by
    rw [Nat.mod_add_mod]
    congr 1
    omega
  have hapart : r.start ≠ (r.start + (i + 1)) % n := by
    have h0 := place_inj (n := n) (i := 0) (j := i + 1) (by omega) (by omega) (by omega) r.start
    rwa [Nat.add_zero, Nat.mod_eq_of_lt h.start] at h0
  dsimp only
  rw [hplace, Vector.getElem?_setIfInBounds_ne hapart, hcell]
  rfl

end Ring

-- =============================================================== readers

namespace Lookahead

/-- Whether the items not yet taken are these, with the first of them parked
in the ring. -/
def Reads (l : Lookahead α n) (items : List α) : Prop :=
  ∃ parked, l.parked.Holds parked ∧ items = parked ++ l.source

variable {l : Lookahead α n} {items : List α}

/-- A reader starts with nothing parked. -/
theorem ofList_reads (h : 0 < n) (items : List α) : (ofList items : Lookahead α n).Reads items :=
  ⟨[], Ring.empty_holds h, rfl⟩

/-- Parking up to a place within the ring's room never meets a full ring, and
parking no more items than there is room for does not either. -/
theorem fill?_reads {i : Nat} {source : List α} :
    ∀ {ring : Ring α n} {parked : List α}, ring.Holds parked →
      i < n ∨ (parked ++ source).length ≤ n →
      ∃ l, fill? i ring source = some l ∧ ∃ parked', l.parked.Holds parked'
        ∧ parked ++ source = parked' ++ l.source ∧ (i < parked'.length ∨ l.source = []) := by
  induction source with
  | nil =>
      intro ring parked h _
      exact ⟨⟨ring, []⟩, rfl, parked, h, rfl, Or.inr rfl⟩
  | cons a source ih =>
      intro ring parked h hi
      unfold fill?
      by_cases hfill : ring.size ≤ i
      · rw [List.length_append, List.length_cons] at hi
        have hroom : parked.length < n := by
          have hsize := h.size
          omega
        obtain ⟨ring', hpush, hring'⟩ := Ring.push?_holds h hroom a
        obtain ⟨l, hl, parked', hparked', heq, henough⟩ := ih hring' (by
          rw [List.length_append, List.length_append, List.length_singleton]
          omega)
        refine ⟨l, ?_, parked', hparked', ?_, henough⟩
        · rw [if_pos hfill, hpush]
          exact hl
        · rw [← heq, List.append_assoc]
          rfl
      · refine ⟨⟨ring, a :: source⟩, if_neg hfill, parked, h, rfl, Or.inl ?_⟩
        have hsize := h.size
        omega

/-- Looking ahead answers with the list's item and takes nothing. -/
theorem peek?_reads (h : l.Reads items) {i : Nat} (hi : i < n ∨ items.length ≤ n) :
    ∃ l', l.peek? i = some (items[i]?, l') ∧ l'.Reads items := by
  obtain ⟨parked, hparked, rfl⟩ := h
  obtain ⟨l', hfill, parked', hparked', heq, henough⟩ := fill?_reads hparked hi
  refine ⟨l', ?_, parked', hparked', heq⟩
  unfold peek?
  rw [hfill, Option.map_some, Ring.get?_holds hparked', heq]
  rcases henough with hlt | hnil
  · rw [List.getElem?_append_left hlt]
  · rw [hnil, List.append_nil]

/-- Taking takes the list's first item. -/
theorem next_reads (h : l.Reads items) : l.next.1 = items.head? ∧ l.next.2.Reads items.tail := by
  obtain ⟨parked, hparked, rfl⟩ := h
  unfold next
  cases parked with
  | nil =>
      rw [if_neg (by rw [hparked.size]; exact Nat.lt_irrefl 0)]
      cases hsource : l.source with
      | nil => exact ⟨rfl, [], hparked, by rw [hsource]; rfl⟩
      | cons a rest => exact ⟨rfl, [], hparked, rfl⟩
  | cons a parked =>
      rw [if_pos (by rw [hparked.size]; exact Nat.zero_lt_succ _)]
      obtain ⟨hfirst, hrest⟩ := Ring.pop_holds hparked
      exact ⟨hfirst, parked, hrest, rfl⟩

end Lookahead

end MiniC
