import Mathlib.Data.List.Basic
import Mathlib.Tactic.Common

/-!
# Topic filters with wildcards

A filter and a topic are lists of levels. One wildcard stands for exactly one level; the other
stands for one level inside a filter and for one or more at its end. A tree of filters is matched
by descending one level at a time, remembering only whether the last level was the wildcard for
many: `Descends` is that walk, and `descends_false_iff` says it computes `Matches`. The levels below
a parent are matched by the parent with that wildcard (`matches_append_many`), the parent itself is
not (`Matches.length_le`).
-/

namespace Wildcard

variable {σ : Type} (one many : σ)

/-- A level of a filter admits a level of a topic. -/
def Admits (f t : σ) : Prop := f = t ∨ f = one ∨ f = many

/-- **Matching, level by level**: a level admits a level, and `many` at the end of the filter
stands for all levels that remain, at least one. -/
def Matches : List σ → List σ → Prop
  | [], [] => True
  | [], _ :: _ => False
  | _ :: _, [] => False
  | f :: fs, t :: ts => (f = many ∧ fs = []) ∨ (Admits one many f t ∧ Matches fs ts)

/-- The walk down a tree along the filter `fs`, from a node that stands for `many` when `b`. -/
def Descends : Prop → List σ → List σ → Prop
  | b, [], ts => ts = [] ∨ b
  | _, _ :: _, [] => False
  | _, f :: fs, t :: ts => Admits one many f t ∧ Descends (f = many) fs ts

instance [DecidableEq σ] (f t : σ) : Decidable (Admits one many f t) :=
  inferInstanceAs (Decidable (_ ∨ _ ∨ _))

theorem descends_iff (b : Prop) (fs ts : List σ) :
    Descends one many b fs ts ↔ Matches one many fs ts ∨ (fs = [] ∧ b) := by
  induction fs generalizing b ts with
  | nil => cases ts <;> simp [Descends, Matches]
  | cons f fs ih =>
    cases ts with
    | nil => simp [Descends, Matches]
    | cons t ts =>
      simp only [Descends, Matches, ih, List.cons_ne_nil, false_and, or_false]
      constructor
      -- the walk goes on below, or this was the last level of the filter and `many`
      · rintro ⟨ha, hm | ⟨hn, hf⟩⟩
        · exact Or.inr ⟨ha, hm⟩
        · exact Or.inl ⟨hf, hn⟩
      · rintro (⟨hf, hn⟩ | ⟨ha, hm⟩)
        · exact ⟨Or.inr (Or.inr hf), Or.inr ⟨hn, hf⟩⟩
        · exact ⟨ha, Or.inl hm⟩

/-- **The walk from the root computes matching.** -/
theorem descends_false_iff (fs ts : List σ) :
    Descends one many False fs ts ↔ Matches one many fs ts := by
  simp [descends_iff]

/-- Every topic matches itself, read as a filter. -/
theorem Matches.refl (ts : List σ) : Matches one many ts ts := by
  induction ts with
  | nil => trivial
  | cons t ts ih => exact Or.inr ⟨Or.inl rfl, ih⟩

/-- A filter has no more levels than a topic that it matches. -/
theorem Matches.length_le {fs ts : List σ} (h : Matches one many fs ts) :
    fs.length ≤ ts.length := by
  induction fs generalizing ts with
  | nil => exact Nat.zero_le _
  | cons f fs ih =>
    cases ts with
    | nil => exact h.elim
    | cons t ts =>
      rw [List.length_cons, List.length_cons]
      apply Nat.succ_le_succ
      rcases h with ⟨-, rfl⟩ | ⟨-, hm⟩
      · exact Nat.zero_le _
      · exact ih hm

/-- **`many` stands for the levels below its parent**, at least one of them. -/
theorem matches_append_many {ts ts' : List σ} (h : ts' ≠ []) :
    Matches one many (ts ++ [many]) (ts ++ ts') := by
  induction ts with
  | nil =>
    obtain ⟨t, ts', rfl⟩ := List.exists_cons_of_ne_nil h
    exact Or.inl ⟨rfl, rfl⟩
  | cons t ts ih => exact Or.inr ⟨Or.inl rfl, ih⟩

end Wildcard
