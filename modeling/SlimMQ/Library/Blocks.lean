import Mathlib.Data.List.Perm.Basic
import Mathlib.Logic.Function.Basic
import Mathlib.Tactic.Common

/-!
# Blocks of memory and their owners

A heap of blocks at addresses. A block is allocated at an address that is free, and given back once;
to give back the null pointer does nothing, and to give back an address without a block is a fault.
A list of pointers owns a heap if each block of the heap is in the list exactly once, so that to give
back what the list holds is no fault and leaves nothing behind.

## Main definitions

* `Blocks.Heap`, `Blocks.alloc`, `Blocks.free`, `Blocks.freeAll`: the blocks and what is done to them
* `Blocks.Owns`: the pointers that own a heap

## Main results

* `Blocks.Owns.alloc`: a new block has an owner
* `Blocks.Owns.free`, `Blocks.Owns.freeAll`: the owner may give back its blocks
-/

namespace Blocks

variable {β : Type}

/-- The blocks, by their addresses. -/
abbrev Heap (β : Type) := ℕ → Option β

/-- A block at the address `p`. -/
def alloc (h : Heap β) (p : ℕ) (b : β) : Heap β := Function.update h p (some b)

/-- Give back a block; `none` for an address without one. -/
def free (h : Heap β) : Option ℕ → Option (Heap β)
  | none => some h
  | some p => if (h p).isSome then some (Function.update h p none) else none

/-- Give back some blocks, one after the other. -/
def freeAll (h : Heap β) (ps : List (Option ℕ)) : Option (Heap β) := ps.foldlM free h

/-- **The pointers own the heap**: each block is at exactly one of them. -/
structure Owns (h : Heap β) (ps : List ℕ) : Prop where
  nodup : ps.Nodup
  mem_iff : ∀ p, p ∈ ps ↔ (h p).isSome

variable {h : Heap β} {ps qs : List ℕ} {p : ℕ}

theorem owns_empty : Owns (fun _ => none : Heap β) [] := ⟨List.nodup_nil, by simp⟩

/-- Ownership does not depend on the order. -/
theorem Owns.perm (ho : Owns h ps) (hp : ps.Perm qs) : Owns h qs :=
  ⟨hp.nodup_iff.mp ho.nodup, fun p => hp.mem_iff.symm.trans (ho.mem_iff p)⟩

/-- A free address is none of the pointers. -/
theorem Owns.notMem (ho : Owns h ps) (hp : h p = none) : p ∉ ps := by
  intro hmem
  have := (ho.mem_iff p).mp hmem
  rw [hp] at this
  cases this

theorem Owns.alloc (ho : Owns h ps) (hp : h p = none) (b : β) : Owns (alloc h p b) (p :: ps) := by
  refine ⟨List.nodup_cons.mpr ⟨ho.notMem hp, ho.nodup⟩, fun q => ?_⟩
  by_cases hq : q = p
  · subst hq
    simp [Blocks.alloc]
  · rw [List.mem_cons, or_iff_right hq, ho.mem_iff q, Blocks.alloc, Function.update_of_ne hq]

/-- The other blocks are not touched by an allocation. -/
theorem Owns.alloc_of_mem (ho : Owns h ps) (hp : h p = none) (b : β) {q : ℕ} (hq : q ∈ ps) :
    Blocks.alloc h p b q = h q := by
  refine Function.update_of_ne (fun he => ?_) _ _
  exact ho.notMem hp (he ▸ hq)

/-- **The owner may give back a block**, and the rest keep theirs. -/
theorem Owns.free {q : Option ℕ} (ho : Owns h (q.toList ++ ps)) :
    ∃ h', free h q = some h' ∧ Owns h' ps ∧ ∀ p ∈ ps, h' p = h p := by
  cases q with
  | none => exact ⟨h, rfl, ho, fun _ _ => rfl⟩
  | some q =>
    have ho : Owns h (q :: ps) := ho
    obtain ⟨hq, hnodup⟩ := List.nodup_cons.mp ho.nodup
    have hlive : (h q).isSome := (ho.mem_iff q).mp List.mem_cons_self
    have hne : ∀ p ∈ ps, p ≠ q := fun p hp he => hq (he ▸ hp)
    refine ⟨_, if_pos hlive, ⟨hnodup, fun p => ?_⟩, fun p hp => Function.update_of_ne (hne p hp) _ _⟩
    by_cases hp : p = q
    · subst hp
      simp [hq]
    · rw [Function.update_of_ne hp, ← ho.mem_iff p]
      simp [hp]

/-- **The owner may give back some of its blocks**, and the rest keep theirs. -/
theorem Owns.freeAll {qs : List (Option ℕ)} (ho : Owns h (qs.flatMap Option.toList ++ ps)) :
    ∃ h', freeAll h qs = some h' ∧ Owns h' ps ∧ ∀ p ∈ ps, h' p = h p := by
  induction qs generalizing h with
  | nil => exact ⟨h, rfl, ho, fun _ _ => rfl⟩
  | cons q qs ih =>
    rw [List.flatMap_cons, List.append_assoc] at ho
    obtain ⟨h₁, hfree, ho₁, hsame₁⟩ := ho.free
    obtain ⟨h', hall, ho', hsame'⟩ := ih ho₁
    refine ⟨h', ?_, ho', fun p hp => ?_⟩
    · exact Option.bind_eq_some_iff.mpr ⟨h₁, hfree, hall⟩
    · rw [hsame' p hp, hsame₁ p (List.mem_append_right _ hp)]

end Blocks
