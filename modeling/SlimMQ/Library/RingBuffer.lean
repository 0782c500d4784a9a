import Mathlib.Data.List.Basic
import Mathlib.Data.Nat.ModEq
import Mathlib.Tactic.Common

/-!
# Ring buffers

A ring of `n` slots with a head, a tail and a count. Its content is the list read from the head
over `count` slots; the slots outside it hold whatever was there. Elements enter at the tail, leave
at the head, and may be taken out of the middle by moving the later ones down by one slot.

## Main definitions

* `RingBuffer.toList`: the content
* `RingBuffer.WellFormed`: head and tail are slots, the count fits, and the tail is where it must be
* `RingBuffer.put`, `RingBuffer.overwrite`, `RingBuffer.advance`, `RingBuffer.removeAt`: the
  operations
* `RingBuffer.placeAfterRemoval`: where a removal leaves the other elements

## Main results

* `RingBuffer.toList_put`, `RingBuffer.toList_overwrite`, `RingBuffer.toList_advance`,
  `RingBuffer.toList_removeAt`: what each operation does to the content
-/

/-- A ring of `n` slots. -/
@[ext] structure RingBuffer (n : ℕ) (α : Type) where
  buffer : ℕ → α
  head : ℕ
  tail : ℕ
  count : ℕ

namespace RingBuffer

variable {n : ℕ} {α : Type}

/-- The element `i` places after the head. -/
def get (q : RingBuffer n α) (i : ℕ) : α := q.buffer ((q.head + i) % n)

/-- The content, from the head on. -/
def toList (q : RingBuffer n α) : List α := (List.range q.count).map q.get

/-- Head and tail are slots, the count is at most their number, and the tail is `count` slots
after the head. -/
structure WellFormed (q : RingBuffer n α) : Prop where
  head_lt : q.head < n
  tail_lt : q.tail < n
  count_le : q.count ≤ n
  tail_eq : q.tail = (q.head + q.count) % n

/-- Write the slot at the tail without taking it in. -/
def overwrite (q : RingBuffer n α) (x : α) : RingBuffer n α :=
  { q with buffer := Function.update q.buffer q.tail x }

/-- Write the slot at the tail and take it in. -/
def put (q : RingBuffer n α) (x : α) : RingBuffer n α :=
  { q with buffer := Function.update q.buffer q.tail x, tail := (q.tail + 1) % n,
           count := q.count + 1 }

/-- Give up the slot at the head. -/
def advance (q : RingBuffer n α) : RingBuffer n α :=
  { q with head := (q.head + 1) % n, count := q.count - 1 }

/-- Copy each of the `k` slots after the place `j` to the slot before it, in order. -/
def shiftDown (n head : ℕ) : ℕ → ℕ → (ℕ → α) → ℕ → α
  | _, 0, buffer => buffer
  | j, k + 1, buffer => shiftDown n head (j + 1) k
      (Function.update buffer ((head + j) % n) (buffer ((head + j + 1) % n)))

/-- Take out the element at the place `i`: the later ones move down, and the tail steps back. -/
def removeAt (q : RingBuffer n α) (i : ℕ) : RingBuffer n α :=
  { q with buffer := shiftDown n q.head i (q.count - 1 - i) q.buffer,
           tail := (q.tail + n - 1) % n, count := q.count - 1 }

@[simp] theorem length_toList (q : RingBuffer n α) : q.toList.length = q.count := by
  simp [toList]

@[simp] theorem getElem_toList (q : RingBuffer n α) (i : ℕ) (h : i < q.toList.length) :
    q.toList[i] = q.get i := by
  simp [toList]

/-- Different places below the capacity are different slots. -/
theorem slot_injective {head i j : ℕ} (hi : i < n) (hj : j < n)
    (h : (head + i) % n = (head + j) % n) : i = j := by
  have h' : i ≡ j [MOD n] := Nat.ModEq.add_left_cancel' head h
  rwa [Nat.ModEq, Nat.mod_eq_of_lt hi, Nat.mod_eq_of_lt hj] at h'

namespace WellFormed

variable {q : RingBuffer n α}

theorem pos (h : q.WellFormed) : 0 < n := Nat.lt_of_le_of_lt (Nat.zero_le _) h.head_lt

theorem overwrite (h : q.WellFormed) (x : α) : (q.overwrite x).WellFormed :=
  ⟨h.head_lt, h.tail_lt, h.count_le, h.tail_eq⟩

theorem put (h : q.WellFormed) (hc : q.count < n) (x : α) : (q.put x).WellFormed := by
  refine ⟨h.head_lt, Nat.mod_lt _ h.pos, hc, ?_⟩
  simp only [RingBuffer.put]
  rw [h.tail_eq, Nat.mod_add_mod, Nat.add_assoc]

theorem advance (h : q.WellFormed) (hc : 0 < q.count) : q.advance.WellFormed := by
  have hle := h.count_le
  refine ⟨Nat.mod_lt _ h.pos, h.tail_lt, by simp only [RingBuffer.advance]; omega, ?_⟩
  simp only [RingBuffer.advance]
  rw [h.tail_eq, Nat.mod_add_mod, show q.head + 1 + (q.count - 1) = q.head + q.count by omega]

theorem removeAt (h : q.WellFormed) {i : ℕ} (hi : i < q.count) : (q.removeAt i).WellFormed := by
  have hpos := h.pos
  have hle := h.count_le
  refine ⟨h.head_lt, Nat.mod_lt _ hpos, by simp only [RingBuffer.removeAt]; omega, ?_⟩
  simp only [RingBuffer.removeAt]
  -- one slot back is `n - 1` slots on
  rw [h.tail_eq, Nat.add_sub_assoc hpos, Nat.mod_add_mod,
    show q.head + q.count + (n - 1) = q.head + (q.count - 1) + n by omega, Nat.add_mod_right]

end WellFormed

variable {q : RingBuffer n α}

/-- A write at the tail is not seen at the places that are taken. -/
theorem update_tail_get (h : q.WellFormed) (hc : q.count < n) (x : α) {i : ℕ}
    (hi : i < q.count) :
    Function.update q.buffer q.tail x ((q.head + i) % n) = q.get i := by
  refine Function.update_of_ne (fun he => ?_) x q.buffer
  -- the tail is at the place `count`, which is not taken
  rw [h.tail_eq] at he
  have := slot_injective (by omega) hc he
  omega

theorem toList_overwrite (h : q.WellFormed) (hc : q.count < n) (x : α) :
    (q.overwrite x).toList = q.toList := by
  refine List.ext_getElem (by simp [RingBuffer.overwrite]) fun i h₁ h₂ => ?_
  rw [getElem_toList, getElem_toList]
  exact update_tail_get h hc x (by simpa using h₂)

theorem toList_put (h : q.WellFormed) (hc : q.count < n) (x : α) :
    (q.put x).toList = q.toList ++ [x] := by
  refine List.ext_getElem (by simp [RingBuffer.put]) fun i h₁ h₂ => ?_
  have hi : i < q.count + 1 := by simpa [RingBuffer.put] using h₁
  rw [getElem_toList]
  rcases Nat.lt_succ_iff_lt_or_eq.mp hi with hi | rfl
  -- a place that was taken before
  · rw [List.getElem_append_left (by simpa using hi), getElem_toList]
    exact update_tail_get h hc x hi
  -- the place of the tail
  · rw [List.getElem_append_right (by simp)]
    simp [RingBuffer.get, RingBuffer.put, ← h.tail_eq]

theorem toList_advance (hc : 0 < q.count) : q.toList = q.get 0 :: q.advance.toList := by
  refine List.ext_getElem (by simp [RingBuffer.advance]; omega) fun i h₁ h₂ => ?_
  cases i with
  | zero => simp
  | succ i =>
    -- the place `i` after the new head is the place `i + 1` after the old one
    rw [getElem_toList, List.getElem_cons_succ, getElem_toList]
    simp only [RingBuffer.get, RingBuffer.advance, Nat.mod_add_mod]
    congr 2
    omega

/-- Moving down `k` slots from the place `j` on: the places from `j` to `j + k - 1` hold what was
one place later, the others are unchanged. -/
theorem shiftDown_get {head : ℕ} (k : ℕ) :
    ∀ (j : ℕ) (buffer : ℕ → α) (m : ℕ), j + k < n → m < n →
      shiftDown n head j k buffer ((head + m) % n) =
        if j ≤ m ∧ m < j + k then buffer ((head + m + 1) % n) else buffer ((head + m) % n) := by
  induction k with
  | zero =>
    intro j buffer m _ _
    rw [if_neg (by omega)]
    rfl
  | succ k ih =>
    -- the first copy, and then the rest by induction
    intro j buffer m hjk hm
    rw [shiftDown, ih (j + 1) _ m (by omega) hm]
    -- the slot written by the first copy is the place `j`, and only that one
    have hne : ∀ i < n, i ≠ j → (head + i) % n ≠ (head + j) % n := fun i hi hij he =>
      hij (slot_injective hi (by omega) he)
    by_cases hmj : m = j
    -- the rest does not touch what the first copy wrote
    · subst hmj
      rw [if_neg (by omega), if_pos (by omega), Function.update_self]
    · by_cases hin : j ≤ m ∧ m < j + (k + 1)
      -- the rest copies slots that the first copy has not written
      · have hne' := hne (m + 1) (by omega) (by omega)
        rw [← Nat.add_assoc] at hne'
        rw [if_pos (by omega), if_pos hin, Function.update_of_ne hne']
      · rw [if_neg (by omega), if_neg hin, Function.update_of_ne (hne m hm hmj)]

theorem toList_removeAt (h : q.WellFormed) {i : ℕ} (hi : i < q.count) :
    (q.removeAt i).toList = q.toList.eraseIdx i := by
  have hle := h.count_le
  refine List.ext_getElem ?_ fun m h₁ h₂ => ?_
  · simp [List.length_eraseIdx, RingBuffer.removeAt, hi]
  have hm : m < q.count - 1 := by simpa [RingBuffer.removeAt] using h₁
  rw [getElem_toList, List.getElem_eraseIdx]
  have hget : (q.removeAt i).get m = if i ≤ m ∧ m < i + (q.count - 1 - i)
      then q.buffer ((q.head + m + 1) % n) else q.buffer ((q.head + m) % n) :=
    shiftDown_get _ i q.buffer m (by omega) (by omega)
  -- before the place `i` nothing has moved; from it on each place holds the next one
  rw [hget]
  split_ifs with h₁ h₂
  · omega
  · rw [getElem_toList]
    rfl
  · rw [getElem_toList]
    rfl
  · omega

/-- **The first element that meets `f`**: the scan finds none, or the place of the first one, and
that one can be taken out. -/
theorem find?_range_cases (h : q.WellFormed) (f : α → Bool) :
    ((List.range q.count).find? (fun i => f (q.get i)) = none ∧ ∀ x ∈ q.toList, f x = false) ∨
      ∃ i l₁ l₂, (List.range q.count).find? (fun i => f (q.get i)) = some i ∧ f (q.get i) ∧
        q.toList = l₁ ++ q.get i :: l₂ ∧ (∀ x ∈ l₁, f x = false) ∧ (q.removeAt i).WellFormed ∧
        (q.removeAt i).toList = l₁ ++ l₂ := by
  cases hf : (List.range q.count).find? fun i => f (q.get i) with
  | none =>
    refine Or.inl ⟨rfl, fun x hx => ?_⟩
    obtain ⟨i, hi, rfl⟩ := List.mem_map.mp hx
    simpa using List.find?_eq_none.mp hf i hi
  | some i =>
    obtain ⟨hack, hi, hbefore⟩ := List.find?_range_eq_some.mp hf
    have hi : i < q.count := List.mem_range.mp hi
    -- the content around the place where the scan has stopped
    have hsplit : q.toList = q.toList.take i ++ q.get i :: q.toList.drop (i + 1) := by
      have hi' : i < q.toList.length := by simpa using hi
      conv_lhs => rw [← List.take_append_drop i q.toList, List.drop_eq_getElem_cons hi']
      simp
    refine Or.inr ⟨i, q.toList.take i, q.toList.drop (i + 1), rfl, hack, hsplit, fun x hx => ?_,
      h.removeAt hi, ?_⟩
    · obtain ⟨j, hj, rfl⟩ := List.mem_take_iff_getElem.mp hx
      simpa using hbefore j (by omega)
    · rw [toList_removeAt h hi, List.eraseIdx_eq_take_drop_succ]

/-! ## Places -/

/-- Where the element at the place `i` stands after the one at the place `k` has been taken out. -/
def placeAfterRemoval (k i : ℕ) : Option ℕ :=
  if i < k then some i else if i = k then none else some (i - 1)

/-- **An element that is not taken out is found at its new place.** -/
theorem getElem?_of_placeAfterRemoval {l : List α} {k i j : ℕ}
    (h : placeAfterRemoval k i = some j) : (l.eraseIdx k)[j]? = l[i]? := by
  unfold placeAfterRemoval at h
  rw [List.getElem?_eraseIdx]
  split_ifs at h with hlt heq
  -- it stands before the place
  · obtain rfl := Option.some.inj h
    rw [if_pos hlt]
  -- it stands after the place, and moves down
  · obtain rfl := Option.some.inj h
    rw [if_neg (by omega), Nat.sub_add_cancel (by omega)]

theorem placeAfterRemoval_eq_none_iff {k i : ℕ} : placeAfterRemoval k i = none ↔ i = k := by
  unfold placeAfterRemoval
  split_ifs with hlt heq
  · simp only [false_iff]
    omega
  · simp only [heq]
  · simp only [false_iff]
    exact heq

end RingBuffer
