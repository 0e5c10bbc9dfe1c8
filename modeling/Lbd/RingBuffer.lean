import Mathlib.Data.List.Basic
import Mathlib.Data.Nat.ModEq

/-!
# A ring buffer

A queue in an array of `n` slots with a head, a tail and a count. A push onto a full
ring drops the oldest element. `contents` is the queue as a list, oldest first.
-/

namespace Lbd

structure RingBuffer (α : Type*) (n : ℕ) where
  queue : ℕ → α
  head : ℕ
  tail : ℕ
  count : ℕ
  count_le : count ≤ n
  tail_eq : tail = (head + count) % n

namespace RingBuffer

variable {α : Type*} {n : ℕ}

/-- The length of a watcher's queue. -/
instance neZero_sixtyFour : NeZero 64 := ⟨by decide⟩

/-- The empty ring over zeroed slots. -/
def empty (a : α) : RingBuffer α n := ⟨fun _ => a, 0, 0, 0, Nat.zero_le n, (Nat.zero_mod n).symm⟩

def contents (r : RingBuffer α n) : List α :=
  (List.range r.count).map fun i => r.queue ((r.head + i) % n)

/-- The oldest element, left in its place. -/
def peek (r : RingBuffer α n) : Option α :=
  if 0 < r.count then some (r.queue (r.head % n)) else none

/-- Advance the head. -/
def pop (r : RingBuffer α n) : RingBuffer α n :=
  if h : 0 < r.count then
    { r with
      head := (r.head + 1) % n
      count := r.count - 1
      count_le := by have := r.count_le; omega
      tail_eq := by rw [r.tail_eq, Nat.mod_add_mod]; congr 1; omega }
  else r

/-- Store into the slot at the tail. -/
def append (r : RingBuffer α n) (a : α) (h : r.count < n) : RingBuffer α n :=
  { r with
    queue := Function.update r.queue r.tail a
    tail := (r.tail + 1) % n
    count := r.count + 1
    count_le := h
    tail_eq := by rw [r.tail_eq, Nat.mod_add_mod, Nat.add_assoc] }

theorem count_pop (r : RingBuffer α n) : r.pop.count = r.count - 1 := by
  unfold pop
  split_ifs with h
  · rfl
  · omega

/-- Drop the oldest element of a full ring, then store. -/
def push [NeZero n] (r : RingBuffer α n) (a : α) : RingBuffer α n :=
  if h : r.count = n then
    r.pop.append a (by have := NeZero.ne n; rw [count_pop]; omega)
  else r.append a (lt_of_le_of_ne r.count_le h)

@[simp] theorem contents_empty (a : α) : (empty a : RingBuffer α n).contents = [] := rfl

@[simp] theorem length_contents (r : RingBuffer α n) : r.contents.length = r.count := by
  simp [contents]

theorem peek_eq (r : RingBuffer α n) : r.peek = r.contents.head? := by
  unfold peek contents
  cases h : r.count with
  | zero => rfl
  | succ k =>
    rw [if_pos k.succ_pos, List.range_succ_eq_map]
    rfl

theorem contents_pop (r : RingBuffer α n) : r.pop.contents = r.contents.tail := by
  unfold pop
  split_ifs with h
  · obtain ⟨k, hk⟩ := Nat.exists_eq_add_one_of_ne_zero h.ne'
    simp only [contents, hk, List.range_succ_eq_map, List.map_cons, List.tail_cons, List.map_map,
      Nat.add_sub_cancel]
    apply List.map_congr_left
    intro i _
    simp only [Function.comp_apply, Nat.mod_add_mod]
    congr 2
    omega
  · have hzero : r.count = 0 := by omega
    simp [contents, hzero]

theorem slot_ne_tail (r : RingBuffer α n) {i : ℕ} (hi : i < r.count) (h : r.count < n) :
    (r.head + i) % n ≠ r.tail := by
  rw [r.tail_eq]
  intro heq
  have hmod : Nat.ModEq n i r.count := Nat.ModEq.add_left_cancel' r.head heq
  rw [Nat.ModEq, Nat.mod_eq_of_lt (hi.trans h), Nat.mod_eq_of_lt h] at hmod
  omega

theorem contents_append (r : RingBuffer α n) (a : α) (h : r.count < n) :
    (r.append a h).contents = r.contents ++ [a] := by
  simp only [contents, append, List.range_succ, List.map_append, List.map_singleton]
  congr 1
  · apply List.map_congr_left
    intro i hi
    rw [Function.update_of_ne (r.slot_ne_tail (List.mem_range.mp hi) h)]
  · rw [← r.tail_eq, Function.update_self]

theorem contents_push [NeZero n] (r : RingBuffer α n) (a : α) :
    (r.push a).contents = (if r.count = n then r.contents.tail else r.contents) ++ [a] := by
  unfold push
  split_ifs with h
  · rw [contents_append, contents_pop]
  · rw [contents_append]

theorem count_push [NeZero n] (r : RingBuffer α n) (a : α) :
    (r.push a).count = if r.count = n then n else r.count + 1 := by
  have hpos := NeZero.ne n
  rw [← length_contents, contents_push]
  split_ifs with h
  · simp only [List.length_append, List.length_tail, length_contents, List.length_singleton]
    omega
  · simp

end RingBuffer

end Lbd
