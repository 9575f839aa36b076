/-
The ring and the reader over it, request by request, against lists
(`windows_mirrored`).

# Two references

A ring of `n` cells answers as a list does that may not get longer than `n`:
what cell an item stands in is never seen, and only a push can be refused. A
reader with a window of `n` items answers as the list of the items not yet
taken. What it has parked is never seen either, except that it cannot look at an
item behind `n` others that are there: before it could tell that there are
fewer, it would have to park them all.

# Runs

The two sides are run in step (`serve_alike`), each pair of requests once, so
both accounts hold of runs of any length. The first request that is refused ends
a run on both sides. A run that stays within the window is refused nothing
(`serve_within`).
Consumed by the proof that the parser always answers.
-/
import MiniC.Proofs.Lookahead

namespace MiniC

variable {α β ω σ τ : Type} {n : Nat}

-- ================================================================== runs

/-- The answers to requests in order, up to the first that is refused, and
what there is behind them if none is. -/
def serve (perform : σ → ω → Option (β × σ)) : σ → List ω → List β × Option σ
  | s, [] => ([], some s)
  | s, request :: rest =>
    match perform s request with
    | none => ([], none)
    | some (answer, s') => (answer :: (serve perform s' rest).1, (serve perform s' rest).2)

/-- Whether two runs give the same answers and end both refused or both in
related states. -/
def ServedAlike (R : σ → τ → Prop) (x : List β × Option σ) (y : List β × Option τ) : Prop :=
  x.1 = y.1 ∧ Option.Rel R x.2 y.2

/-- If every request is refused on both sides or answered alike, runs are. -/
theorem serve_alike {R : σ → τ → Prop} {left : σ → ω → Option (β × σ)}
    {right : τ → ω → Option (β × τ)}
    (hstep : ∀ {s t}, R s t → ∀ request,
      Option.Rel (fun x y => x.1 = y.1 ∧ R x.2 y.2) (left s request) (right t request))
    (requests : List ω) : ∀ {s t}, R s t →
      ServedAlike R (serve left s requests) (serve right t requests) := by
  induction requests with
  | nil => exact fun h => ⟨rfl, .some h⟩
  | cons request rest ih =>
      intro s t h
      have halike := hstep h request
      unfold serve
      generalize left s request = first at halike
      generalize right t request = second at halike
      cases halike with
      | none => exact ⟨rfl, .none⟩
      | some hanswered =>
          obtain ⟨hanswer, hbehind⟩ := hanswered
          obtain ⟨hanswers, hend⟩ := ih hbehind
          exact ⟨List.cons_eq_cons.2 ⟨hanswer, hanswers⟩, hend⟩

-- ================================================================ queues

/-- What is asked of a queue. -/
inductive QueueOp (α : Type) where
  | push (a : α)
  | pop
  | get (i : Nat)
  | size

/-- What it answers. -/
inductive QueueAnswer (α : Type) where
  | done
  | item (found : Option α)
  | count (size : Nat)
deriving DecidableEq, Repr

/-- An operation on a ring. -/
def Ring.perform (r : Ring α n) : QueueOp α → Option (QueueAnswer α × Ring α n)
  | .push a => (r.push? a).map fun r => (.done, r)
  | .pop => some (.item r.pop.1, r.pop.2)
  | .get i => some (.item (r.get? i), r)
  | .size => some (.count r.size, r)

/-- The operation on a list that has no more than `n` items. -/
def QueueOp.onList (n : Nat) (items : List α) : QueueOp α → Option (QueueAnswer α × List α)
  | .push a => if items.length < n then some (.done, items ++ [a]) else none
  | .pop => some (.item items.head?, items.tail)
  | .get i => some (.item items[i]?, items)
  | .size => some (.count items.length, items)

namespace Ring

variable {r : Ring α n} {items : List α}

/-- An empty ring is left as it is. -/
theorem pop_holds_nil (h : r.Holds []) : r.pop = (none, r) := by
  unfold pop
  rw [if_neg (by rw [h.size]; exact Nat.lt_irrefl 0)]

/-- A full ring takes no item. -/
theorem push?_refused (h : r.Holds items) (hfull : n ≤ items.length) (a : α) :
    r.push? a = none := by
  unfold push?
  rw [if_neg (by rw [h.size]; exact Nat.not_lt.2 hfull)]

/-- A ring answers as the list of its items. -/
theorem Holds.perform (h : r.Holds items) (op : QueueOp α) :
    Option.Rel (fun x y => x.1 = y.1 ∧ x.2.Holds y.2) (r.perform op) (op.onList n items) := by
  cases op with
  | push a =>
      unfold Ring.perform QueueOp.onList
      dsimp only
      by_cases hroom : items.length < n
      · obtain ⟨r', hpush, hr'⟩ := push?_holds h hroom a
        rw [hpush, if_pos hroom]
        exact .some ⟨rfl, hr'⟩
      · rw [push?_refused h (Nat.not_lt.1 hroom), if_neg hroom]
        exact .none
  | pop =>
      cases items with
      | nil =>
          unfold Ring.perform
          rw [pop_holds_nil h]
          exact .some ⟨rfl, h⟩
      | cons a items =>
          obtain ⟨hfirst, hrest⟩ := pop_holds h
          exact .some ⟨congrArg QueueAnswer.item hfirst, hrest⟩
  | get i => exact .some ⟨congrArg QueueAnswer.item (get?_holds h i), h⟩
  | size => exact .some ⟨congrArg QueueAnswer.count h.size, h⟩

end Ring

-- =============================================================== readers

namespace Lookahead

/-- An access to items that are read from the front. -/
inductive Access where
  | peek (i : Nat)
  | next
deriving DecidableEq, Repr

/-- Whether an access looks less than so many places ahead. -/
def Access.Within (n : Nat) : Access → Prop
  | .peek i => i < n
  | .next => True

variable {l : Lookahead α n} {items : List α}

/-- An access to a reader. -/
def access (l : Lookahead α n) : Access → Option (Option α × Lookahead α n)
  | .peek i => l.peek? i
  | .next => some l.next

/-- The access to the items not yet taken, by a reader with a window of `n`
items. -/
def Access.onList (n : Nat) (items : List α) : Access → Option (Option α × List α)
  | .peek i =>
    if i < n then some (items[i]?, items)
    else if items.length ≤ n then some (none, items)
    else none
  | .next => some (items.head?, items.tail)

/-- To find the place behind a full ring, one more item would have to be
parked. -/
theorem fill?_refused {i : Nat} (hi : n ≤ i) {source : List α} :
    ∀ {ring : Ring α n} {parked : List α}, ring.Holds parked →
      n < (parked ++ source).length → fill? i ring source = none := by
  induction source with
  | nil =>
      intro ring parked h hmore
      rw [List.append_nil] at hmore
      exact absurd h.room (Nat.not_le.2 hmore)
  | cons a source ih =>
      intro ring parked h hmore
      have hfill : ring.size ≤ i := by
        rw [h.size]
        exact Nat.le_trans h.room hi
      unfold fill?
      rw [if_pos hfill]
      by_cases hroom : parked.length < n
      · obtain ⟨ring', hpush, hring'⟩ := Ring.push?_holds h hroom a
        rw [hpush]
        refine ih hring' ?_
        rw [List.append_assoc]
        exact hmore
      · rw [Ring.push?_refused h (Nat.not_lt.1 hroom)]

/-- What is behind a full window is not looked at. -/
theorem peek?_refused (h : l.Reads items) {i : Nat} (hi : n ≤ i) (hmore : n < items.length) :
    l.peek? i = none := by
  obtain ⟨parked, hparked, rfl⟩ := h
  unfold peek?
  rw [fill?_refused hi hparked hmore]
  rfl

/-- A reader answers as the list of the items not yet taken. -/
theorem Reads.access (h : l.Reads items) (a : Access) :
    Option.Rel (fun x y => x.1 = y.1 ∧ x.2.Reads y.2) (l.access a) (a.onList n items) := by
  cases a with
  | peek i =>
      unfold Lookahead.access Access.onList
      dsimp only
      by_cases hi : i < n
      · obtain ⟨l', hpeek, hl'⟩ := peek?_reads h (Or.inl hi)
        rw [hpeek, if_pos hi]
        exact .some ⟨rfl, hl'⟩
      rw [if_neg hi]
      by_cases hfew : items.length ≤ n
      · obtain ⟨l', hpeek, hl'⟩ := peek?_reads h (Or.inr hfew)
        have hnone : items[i]? = none := List.getElem?_eq_none (by omega)
        rw [hpeek, hnone, if_pos hfew]
        exact .some ⟨rfl, hl'⟩
      · rw [peek?_refused h (Nat.not_lt.1 hi) (Nat.not_le.1 hfew), if_neg hfew]
        exact .none
  | next => exact .some (next_reads h)

/-- Within the window no access to the list is refused. -/
theorem Access.serve_within {accesses : List Access} (h : ∀ a ∈ accesses, a.Within n) :
    ∀ items : List α, (serve (Access.onList n) items accesses).2.isSome = true := by
  induction accesses with
  | nil => exact fun _ => rfl
  | cons a rest ih =>
      intro items
      obtain ⟨ha, hrest⟩ := List.forall_mem_cons.1 h
      cases a with
      | peek i =>
          have hpeek : (Access.peek i).onList n items = some (items[i]?, items) := if_pos ha
          unfold serve
          rw [hpeek]
          exact ih hrest items
      | next => exact ih hrest items.tail

end Lookahead

-- ============================================================= both sides

open Lookahead

/-- Accesses within the window are none of them refused, and are answered as by the
list. -/
theorem serve_within (hn : 0 < n) {accesses : List Access} (h : ∀ a ∈ accesses, a.Within n)
    (items : List α) :
    (serve access (ofList items : Lookahead α n) accesses).1
        = (serve (Access.onList n) items accesses).1
      ∧ (serve access (ofList items : Lookahead α n) accesses).2.isSome = true := by
  obtain ⟨hanswers, hend⟩ := serve_alike Reads.access accesses (ofList_reads hn items)
  have hsome := Access.serve_within h items
  refine ⟨hanswers, ?_⟩
  generalize (serve access (ofList items : Lookahead α n) accesses).2 = last at hend ⊢
  generalize (serve (Access.onList n) items accesses).2 = last' at hend hsome
  cases hend with
  | none => cases hsome
  | some _ => rfl

/-- A reader with a window of `n` items answers, or refuses, as the list of the
items not yet taken, and the ring that it is made of as a queue of `n` items. -/
theorem windows_mirrored (h : 0 < n) :
    (∀ (items : List α) (accesses : List Access),
      ServedAlike Reads (serve access (ofList items : Lookahead α n) accesses)
        (serve (Access.onList n) items accesses))
    ∧ ∀ ops : List (QueueOp α),
      ServedAlike Ring.Holds (serve Ring.perform (.empty : Ring α n) ops)
        (serve (QueueOp.onList n) [] ops) :=
  ⟨fun items accesses => serve_alike Reads.access accesses (ofList_reads h items),
    fun ops => serve_alike Ring.Holds.perform ops (Ring.empty_holds h)⟩

/-- With two items left it is known that there is no sixth, with three it is not;
and a ring of two cells is full with two items in whichever cells. -/
theorem twoAhead_mirrored :
    (serve access (ofList [1, 2, 3, 4] : Lookahead Nat 2)
        [.peek 1, .next, .next, .peek 5, .next, .peek 0]).1
      = [some 2, some 1, some 2, none, some 3, some 4]
    ∧ (serve access (ofList [1, 2, 3, 4] : Lookahead Nat 2) [.next, .peek 1, .peek 5, .next]).1
      = [some 1, some 3]
    ∧ (serve Ring.perform (.empty : Ring Nat 2)
        [.push 1, .push 2, .pop, .push 3, .get 1, .size, .push 4, .pop]).1
      = [.done, .done, .item (some 1), .done, .item (some 3), .count 2] := by
  obtain ⟨hreader, hring⟩ := @windows_mirrored Nat 2 (by decide)
  exact ⟨(hreader _ _).1.trans (by decide), (hreader _ _).1.trans (by decide),
    (hring _).1.trans (by decide)⟩

end MiniC
