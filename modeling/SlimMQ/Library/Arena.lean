import Mathlib.Algebra.Order.Group.Multiset
import Mathlib.Data.Finset.Card
import Mathlib.Data.Nat.Find
import SlimMQ.Library.Blocks

/-!
# An arena of blocks

Memory from which a program takes block after block. The allocator may return any address that is
not in use, one that was given back included, and may leave a block where it is or move it when it
grows.

What is in the arena is said by the multiset of its blocks. The blocks of a structure and those of
everything else are then the two parts of a sum, in any order: an operation on the structure changes
the one part and leaves the other, and at the end of a run the multiset says what has leaked.

## Main definitions

* `Blocks.Allocator`: an allocator, with its own state; `Blocks.firstFit` is one
* `Blocks.Arena`: a heap with the addresses in use; `alloc`, `store`, `free` and `realloc` on it
* `Blocks.Arena.Holds`: the arena holds these blocks and no others

## Main results

* `Blocks.Arena.Holds.alloc`, `store`, `free`, `realloc`: one block of the sum changes
* `Blocks.Arena.Holds.card_le`: a part of the sum has no more blocks than addresses are in use
-/

namespace Blocks

variable {β γ : Type}

/-- An allocator: the address of the next block, given those in use, and whether a block is grown
where it stands. -/
structure Allocator (γ : Type) where
  next : γ → Finset ℕ → ℕ × γ
  next_notMem : ∀ g live, (next g live).1 ∉ live
  growsInPlace : γ → Finset ℕ → ℕ → Bool

theorem exists_notMem (live : Finset ℕ) : ∃ p, p ∉ live := by
  obtain ⟨n, hn⟩ := live.exists_nat_subset_range
  exact ⟨n, fun h => Finset.notMem_range_self (hn h)⟩

/-- The allocator that takes the first free address. -/
def firstFit : Allocator Unit where
  next _ live := (Nat.find (exists_notMem live), ())
  next_notMem _ live := Nat.find_spec (exists_notMem live)
  growsInPlace _ _ _ := false

example : (firstFit.next () {0, 1, 3}).1 = 2 := (Nat.find_eq_iff _).mpr (by decide)

/-- A heap, the addresses in use and the state of the allocator. -/
structure Arena (β γ : Type) where
  heap : Heap β
  live : Finset ℕ
  state : γ
  mem_live : ∀ p, p ∈ live ↔ (heap p).isSome

namespace Arena

/-- An arena without blocks. -/
def empty (g : γ) : Arena β γ := ⟨fun _ => none, ∅, g, by simp⟩

/-- A new block, and its address. -/
def alloc (A : Allocator γ) (m : Arena β γ) (b : β) : ℕ × Arena β γ :=
  let r := A.next m.state m.live
  (r.1,
    { heap := Blocks.alloc m.heap r.1 b
      live := insert r.1 m.live
      state := r.2
      mem_live := fun p => by
        by_cases hp : p = r.1
        · simp [hp, Blocks.alloc]
        · simp [hp, Blocks.alloc, m.mem_live p] })

/-- Write a block; `none` for an address without one. -/
def store (m : Arena β γ) (p : ℕ) (b : β) : Option (Arena β γ) :=
  if hp : p ∈ m.live then
    some
      { m with
        heap := Blocks.alloc m.heap p b
        mem_live := fun q => by
          by_cases hq : q = p
          · simp [hq, Blocks.alloc, hp]
          · simp [hq, Blocks.alloc, m.mem_live q] }
  else none

/-- Give back a block; `none` for an address without one. -/
def free (m : Arena β γ) : Option ℕ → Option (Arena β γ)
  | none => some m
  | some p =>
    if p ∈ m.live then
      some
        { m with
          heap := Function.update m.heap p none
          live := m.live.erase p
          mem_live := fun q => by
            by_cases hq : q = p
            · simp [hq]
            · simp [hq, m.mem_live q] }
    else none

/-- Replace a block by a larger one, where it stands or at another address; the null pointer stands
for no block yet. -/
def realloc (A : Allocator γ) (m : Arena β γ) (p : Option ℕ) (b : β) : Option (ℕ × Arena β γ) :=
  match p with
  | none => some (m.alloc A b)
  | some p =>
    if A.growsInPlace m.state m.live p then (m.store p b).map fun m => (p, m)
    else
      let r := m.alloc A b
      (r.2.free (some p)).map fun m => (r.1, m)

/-- **The arena holds these blocks** and no others. -/
structure Holds (m : Arena β γ) (B : Multiset (ℕ × β)) : Prop where
  nodup : (B.map Prod.fst).Nodup
  mem_iff : ∀ p b, (p, b) ∈ B ↔ m.heap p = some b

theorem holds_empty (g : γ) : (empty g : Arena β γ).Holds 0 := ⟨by simp, by simp [empty]⟩

variable {A : Allocator γ} {m : Arena β γ} {B R : Multiset (ℕ × β)} {p : ℕ} {b : β}

theorem Holds.mem_live_iff (h : m.Holds B) (p : ℕ) : p ∈ m.live ↔ p ∈ B.map Prod.fst := by
  rw [m.mem_live, Option.isSome_iff_exists, Multiset.mem_map]
  constructor
  · rintro ⟨b, hb⟩
    exact ⟨(p, b), (h.mem_iff p b).mpr hb, rfl⟩
  · rintro ⟨⟨q, b⟩, hb, rfl⟩
    exact ⟨b, (h.mem_iff q b).mp hb⟩

theorem Holds.load (h : m.Holds ({(p, b)} + R)) : m.heap p = some b :=
  (h.mem_iff p b).mp (by simp)

theorem Holds.live (h : m.Holds ({(p, b)} + R)) : p ∈ m.live := by
  rw [m.mem_live, h.load]
  rfl

theorem Holds.notMem (h : m.Holds ({(p, b)} + R)) : p ∉ R.map Prod.fst := by
  have hnodup := h.nodup
  rw [Multiset.map_add, Multiset.map_singleton, Multiset.singleton_add,
    Multiset.nodup_cons] at hnodup
  exact hnodup.1

/-- A block at `p` and the others, when nothing else is at `p`. -/
theorem Holds.insert {m' : Arena β γ} (h : (R.map Prod.fst).Nodup) (hp : p ∉ R.map Prod.fst)
    (hheap : m'.heap p = some b) (hR : ∀ q c, q ≠ p → ((q, c) ∈ R ↔ m'.heap q = some c)) :
    m'.Holds ({(p, b)} + R) := by
  refine ⟨?_, fun q c => ?_⟩
  · rw [Multiset.map_add, Multiset.map_singleton, Multiset.singleton_add]
    exact Multiset.nodup_cons.mpr ⟨hp, h⟩
  rw [Multiset.singleton_add, Multiset.mem_cons]
  by_cases hq : q = p
  · subst hq
    have hc : (q, c) ∉ R := fun hmem => hp (Multiset.mem_map_of_mem Prod.fst hmem)
    rw [hheap, or_iff_left hc, Prod.mk.injEq, Option.some.injEq, eq_comm]
    simp [eq_comm]
  · rw [or_iff_right (fun he => hq (Prod.mk.inj he).1), hR q c hq]

/-- **Allocation** adds a block. -/
theorem Holds.alloc (h : m.Holds R) (A : Allocator γ) (b : β) :
    ∃ p m', m.alloc A b = (p, m') ∧ m'.Holds ({(p, b)} + R) := by
  refine ⟨_, _, rfl, ?_⟩
  refine Holds.insert h.nodup ?_ (Function.update_self _ _ _) fun q c hq => ?_
  · rw [← h.mem_live_iff]
    exact A.next_notMem _ _
  · rw [h.mem_iff]
    exact iff_of_eq (congrArg (· = some c) (Function.update_of_ne hq _ _).symm)

/-- **A write** replaces a block. -/
theorem Holds.store (h : m.Holds ({(p, b)} + R)) (b' : β) :
    ∃ m', m.store p b' = some m' ∧ m'.Holds ({(p, b')} + R) := by
  refine ⟨_, dif_pos h.live, ?_⟩
  refine Holds.insert ?_ h.notMem (Function.update_self _ _ _) fun q c hq => ?_
  · exact (Multiset.nodup_add.mp (by rw [← Multiset.map_add]; exact h.nodup)).2.1
  have hmem := h.mem_iff q c
  rw [Multiset.singleton_add, Multiset.mem_cons, or_iff_right fun he => hq (Prod.mk.inj he).1]
    at hmem
  rw [hmem]
  exact iff_of_eq (congrArg (· = some c) (Function.update_of_ne hq _ _).symm)

/-- **A block is given back**, and the others stay. -/
theorem Holds.free (h : m.Holds ({(p, b)} + R)) :
    ∃ m', m.free (some p) = some m' ∧ m'.Holds R := by
  refine ⟨_, if_pos h.live, ?_, fun q c => ?_⟩
  · exact (Multiset.nodup_add.mp (by rw [← Multiset.map_add]; exact h.nodup)).2.1
  by_cases hq : q = p
  · subst hq
    have hc : (q, c) ∉ R := fun hmem => h.notMem (Multiset.mem_map_of_mem Prod.fst hmem)
    simp [hc]
  · have hmem := h.mem_iff q c
    rw [Multiset.singleton_add, Multiset.mem_cons, or_iff_right fun he => hq (Prod.mk.inj he).1]
      at hmem
    rw [hmem]
    exact iff_of_eq (congrArg (· = some c) (Function.update_of_ne hq _ _).symm)

/-- The blocks at a pointer, which may be null. -/
def at? (p : Option ℕ) (b : β) : Multiset (ℕ × β) := p.elim 0 fun p => {(p, b)}

@[simp] theorem at?_none (b : β) : at? none b = 0 := rfl

@[simp] theorem at?_some (p : ℕ) (b : β) : at? (some p) b = {(p, b)} := rfl

theorem Holds.free_at? {q : Option ℕ} (h : m.Holds (at? q b + R)) :
    ∃ m', m.free q = some m' ∧ m'.Holds R := by
  cases q with
  | none => exact ⟨m, rfl, by simpa using h⟩
  | some p => exact h.free

/-- **A block that grows** is replaced, at the same address or at another. -/
theorem Holds.realloc {q : Option ℕ} (h : m.Holds (at? q b + R)) (A : Allocator γ) (b' : β) :
    ∃ p m', m.realloc A q b' = some (p, m') ∧ m'.Holds ({(p, b')} + R) := by
  cases q with
  | none =>
    obtain ⟨p, m', halloc, hm'⟩ := Holds.alloc (by simpa using h) A b'
    exact ⟨p, m', congrArg some halloc, hm'⟩
  | some p =>
    have h : m.Holds ({(p, b)} + R) := h
    unfold Arena.realloc
    by_cases hgrow : A.growsInPlace m.state m.live p
    · obtain ⟨m', hstore, hm'⟩ := h.store b'
      exact ⟨p, m', by simp [hgrow, hstore], hm'⟩
    -- the old block is given back after the new one is there
    · obtain ⟨q, m₁, halloc, h₁⟩ := h.alloc A b'
      rw [add_left_comm] at h₁
      obtain ⟨m', hfree, hm'⟩ := h₁.free
      exact ⟨q, m', by simp [hgrow, halloc, hfree], hm'⟩

/-- As many addresses are in use as there are blocks. -/
theorem Holds.card_live (h : m.Holds B) : m.live.card = B.card := by
  have hlive : m.live = (B.map Prod.fst).toFinset := by
    ext p
    rw [h.mem_live_iff, Multiset.mem_toFinset]
  rw [hlive, Multiset.toFinset_card_of_nodup h.nodup, Multiset.card_map]

theorem Holds.card_le (h : m.Holds (B + R)) : B.card ≤ m.live.card := by
  rw [h.card_live, Multiset.card_add]
  exact Nat.le_add_right _ _

/-- Without blocks every address is free. -/
theorem Holds.heap_eq_none (h : m.Holds 0) (p : ℕ) : m.heap p = none := by
  rw [Option.eq_none_iff_forall_not_mem]
  intro b hb
  exact Multiset.notMem_zero _ ((h.mem_iff p b).mpr hb)

end Arena

end Blocks
