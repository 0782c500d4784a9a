import Mathlib.Data.List.Nodup
import Mathlib.Logic.Function.Basic
import Mathlib.Tactic.Common

/-!
# Singly linked lists in memory

Nodes are allocated at addresses, each with a value and a pointer to the next node; a null pointer
is `none`. A list in memory is told by the addresses and values of its nodes in order. A memory
decides which list starts at a pointer, so that a list which ends in null passes no node twice, and
a write to one node leaves every part of a list without that node as it is.

The loops on a list walk along it, and unlink and free nodes with one pointer behind the other. A
loop may take `fuel` turns; it has no result where it would read a freed node. Each of them rebuilds
one list out of another: nodes that are taken out are freed, nodes that are put in were free, and no
other node is touched.

## Main definitions

* `Node`, `Heap`: a node, and the nodes of a memory
* `Heap.setNext`, `Heap.free`, `Heap.setValue`: the writes to it
* `Links h p l q`: the nodes `l` lead from the pointer `p` to the pointer `q`
* `Chain`, `Rebuilt`: a list with its head, and what an operation makes of it
* `findNode`, `unlinkFirst`, `unlinkAll`, `freeAll`: the loops

## Main results

* `links_append`: a list is cut at any place
* `Links.nodup`: a list that ends in null passes no node twice
* `Links.setNext`, `Links.free`: a list after a write to its last node, or outside of it
* `rebuilt_unlink`, `rebuilt_setValue`, `rebuilt_push`: a node is taken out, written or put in
* `findNode_spec`, `unlinkFirst_spec`, `unlinkAll_spec`, `freeAll_spec`: what the loops do
-/

namespace LinkedList

variable {α : Type}

/-- A node of a list. -/
structure Node (α : Type) where
  value : α
  next : Option ℕ

/-- The nodes of a memory, by their addresses; an address without a node is not allocated. -/
abbrev Heap (α : Type) := ℕ → Option (Node α)

/-- The memory after `p->next = q`. -/
def Heap.setNext (h : Heap α) (p : ℕ) (q : Option ℕ) : Heap α :=
  Function.update h p ((h p).map fun node => { node with next := q })

/-- The memory after `free(p)`. -/
def Heap.free (h : Heap α) (p : ℕ) : Heap α := Function.update h p none

/-- The nodes `l`, given by their addresses and values, lead from the pointer `p` to the pointer
`q`. -/
def Links (h : Heap α) : Option ℕ → List (ℕ × α) → Option ℕ → Prop
  | p, [], q => p = q
  | p, x :: l, q => p = some x.1 ∧ ∃ next, h x.1 = some ⟨x.2, next⟩ ∧ Links h next l q

variable {h h' : Heap α} {p q r : Option ℕ} {n : ℕ} {a : α} {l l₁ l₂ : List (ℕ × α)}

@[simp] theorem links_nil : Links h p [] q ↔ p = q := Iff.rfl

/-- **A list is cut at any place**, where some pointer leads to the rest of it. -/
theorem links_append : Links h p (l₁ ++ l₂) r ↔ ∃ q, Links h p l₁ q ∧ Links h q l₂ r := by
  induction l₁ generalizing p with
  | nil => simp
  | cons x l₁ ih =>
    constructor
    · rintro ⟨hp, next, hx, hl⟩
      obtain ⟨q, h₁, h₂⟩ := ih.mp hl
      exact ⟨q, ⟨hp, next, hx, h₁⟩, h₂⟩
    · rintro ⟨q, ⟨hp, next, hx, h₁⟩, h₂⟩
      exact ⟨hp, next, hx, ih.mpr ⟨q, h₁, h₂⟩⟩

/-- A list depends on its own nodes only. -/
theorem Links.congr (hl : Links h p l q) (heq : ∀ x ∈ l, h' x.1 = h x.1) : Links h' p l q := by
  induction l generalizing p with
  | nil => exact hl
  | cons x l ih =>
    obtain ⟨hp, next, hx, hl⟩ := hl
    refine ⟨hp, next, ?_, ih hl fun y hy => heq y (List.mem_cons_of_mem x hy)⟩
    rw [heq x List.mem_cons_self, hx]

/-- The memory decides which list leads from a pointer to null. -/
theorem Links.unique (h₁ : Links h p l₁ none) (h₂ : Links h p l₂ none) : l₁ = l₂ := by
  induction l₁ generalizing p l₂ with
  | nil =>
    obtain rfl := links_nil.mp h₁
    cases l₂ with
    | nil => rfl
    | cons y l₂ => cases h₂.1
  | cons x l₁ ih =>
    obtain ⟨rfl, next, hx, hl⟩ := h₁
    cases l₂ with
    | nil => cases links_nil.mp h₂
    | cons y l₂ =>
      obtain ⟨hp, next', hy, hl'⟩ := h₂
      have hxy : x.1 = y.1 := Option.some.inj hp
      rw [← hxy, hx] at hy
      obtain ⟨hv, rfl⟩ := Node.mk.inj (Option.some.inj hy)
      rw [Prod.ext hxy hv, ih hl hl']

/-- **A list that ends in null passes no node twice.** -/
theorem Links.nodup (hl : Links h p l none) : (l.map Prod.fst).Nodup := by
  induction l generalizing p with
  | nil => exact List.nodup_nil
  | cons x l ih =>
    obtain ⟨rfl, next, hx, hl⟩ := hl
    rw [List.map_cons, List.nodup_cons]
    refine ⟨fun hmem => ?_, ih hl⟩
    -- the list from a second passage of the node on would be the whole list again
    obtain ⟨y, hy, hxy⟩ := List.mem_map.mp hmem
    obtain ⟨l₁, l₂, rfl⟩ := List.append_of_mem hy
    obtain ⟨q, -, h₂⟩ := links_append.mp hl
    have heq : x :: (l₁ ++ y :: l₂) = y :: l₂ :=
      Links.unique ⟨rfl, next, hx, hl⟩ (show Links h (some x.1) (y :: l₂) none by
        obtain ⟨hq, hrest⟩ := h₂
        exact ⟨congrArg some hxy.symm, hrest⟩)
    have hlen := congrArg List.length heq
    simp only [List.length_cons, List.length_append] at hlen
    omega

/-- A node outside of a list may be freed. -/
theorem Links.free (hl : Links h p l q) (hn : ∀ x ∈ l, x.1 ≠ n) : Links (h.free n) p l q :=
  hl.congr fun x hx => Function.update_of_ne (hn x hx) _ _

/-- **The last node of a list may be made to point elsewhere.** -/
theorem Links.setNext (hl : Links h p (l ++ [(n, a)]) q) (hn : ∀ x ∈ l, x.1 ≠ n) (r : Option ℕ) :
    Links (h.setNext n r) p (l ++ [(n, a)]) r := by
  obtain ⟨m, h₁, rfl, next, hx, -⟩ := links_append.mp hl
  refine links_append.mpr ⟨some n, ?_, rfl, r, ?_, rfl⟩
  · exact h₁.congr fun x hx => Function.update_of_ne (hn x hx) _ _
  · rw [Heap.setNext, Function.update_self, hx]
    rfl

/-- A write to a node leaves a list without it. -/
theorem Links.setNext_of_ne (hl : Links h p l q) (hn : ∀ x ∈ l, x.1 ≠ n) (r : Option ℕ) :
    Links (h.setNext n r) p l q :=
  hl.congr fun x hx => Function.update_of_ne (hn x hx) _ _

/-! ## A list with its head -/

/-- A list in memory: its head and the nodes of the memory. -/
structure Chain (α : Type) where
  head : Option ℕ
  heap : Heap α

/-- The node `curr` is taken out of the list behind `prev`, or at its head, and freed. -/
def Chain.unlink (c : Chain α) (prev : Option ℕ) (curr : ℕ) (next : Option ℕ) : Chain α :=
  match prev with
  | some p => { c with heap := (c.heap.setNext p next).free curr }
  | none => { head := next, heap := c.heap.free curr }

/-- The memory after a write of the value of a node. -/
def Heap.setValue (h : Heap α) (p : ℕ) (f : α → α) : Heap α :=
  Function.update h p ((h p).map fun node => { node with value := f node.value })

/-- The list with a new node at its head. -/
def Chain.push (c : Chain α) (p : ℕ) (a : α) : Chain α :=
  { head := some p, heap := Function.update c.heap p (some ⟨a, c.head⟩) }

/-! ## The loops -/

/-- Walk along a list to the first node whose value meets `f`, or to its end. -/
def findNode (f : α → Bool) (heap : Heap α) : ℕ → Option ℕ → Option (Option ℕ)
  | 0, _ => none
  | _ + 1, none => some none
  | fuel + 1, some curr => do
    let node ← heap curr
    if f node.value then some (some curr) else findNode f heap fuel node.next

/-- Walk along a list, with `prev` one node behind, and unlink the first node whose value meets
`f`. -/
def unlinkFirst (f : α → Bool) : ℕ → Chain α → Option ℕ → Option ℕ → Option (Chain α)
  | 0, _, _, _ => none
  | _ + 1, c, _, none => some c
  | fuel + 1, c, prev, some curr => do
    let node ← c.heap curr
    if f node.value then some (c.unlink prev curr node.next)
    else unlinkFirst f fuel c (some curr) node.next

/-- Walk along a list, with `prev` one node behind, and unlink every node whose value meets `f`. -/
def unlinkAll (f : α → Bool) : ℕ → Chain α → Option ℕ → Option ℕ → Option (Chain α)
  | 0, _, _, _ => none
  | _ + 1, c, _, none => some c
  | fuel + 1, c, prev, some curr => do
    let node ← c.heap curr
    if f node.value then unlinkAll f fuel (c.unlink prev curr node.next) prev node.next
    else unlinkAll f fuel c (some curr) node.next

/-- Walk along a list and free its nodes. -/
def freeAll : ℕ → Heap α → Option ℕ → Option (Heap α)
  | 0, _, _ => none
  | _ + 1, heap, none => some heap
  | fuel + 1, heap, some curr => do
    let node ← heap curr
    freeAll fuel (heap.free curr) node.next

/-! ## Lists made of lists -/

/-- **What an operation makes of a list**: the nodes `l` become the nodes `l'`, those taken out are
freed, those put in were free, and no other node is touched. -/
structure Rebuilt (c c' : Chain α) (l l' : List (ℕ × α)) : Prop where
  links : Links c'.heap c'.head l' none
  untouched : ∀ q, q ∉ l.map Prod.fst → q ∉ l'.map Prod.fst → c'.heap q = c.heap q
  fresh : ∀ q ∈ l'.map Prod.fst, q ∈ l.map Prod.fst ∨ c.heap q = none
  freed : ∀ q ∈ l.map Prod.fst, q ∉ l'.map Prod.fst → c'.heap q = none

variable {c c' c'' : Chain α} {l' l'' kept rest : List (ℕ × α)} {next prev curr : Option ℕ}
  {f : α → Bool} {fuel : ℕ}

theorem Rebuilt.refl (h : Links c.heap c.head l none) : Rebuilt c c l l where
  links := h
  untouched _ _ _ := rfl
  fresh _ hq := Or.inl hq
  freed _ hq hq' := absurd hq hq'

theorem Rebuilt.trans (h : Rebuilt c c' l l') (h' : Rebuilt c' c'' l' l'') :
    Rebuilt c c'' l l'' where
  links := h'.links
  untouched q hq hq'' := by
    by_cases hq' : q ∈ l'.map Prod.fst
    -- a node that was put in and taken out again was free, and is
    · rw [h'.freed q hq' hq'', (h.fresh q hq').resolve_left hq]
    · rw [h'.untouched q hq' hq'', h.untouched q hq hq']
  fresh q hq'' := by
    by_cases hq : q ∈ l.map Prod.fst
    · exact Or.inl hq
    · rcases h'.fresh q hq'' with hq' | hnone
      · exact h.fresh q hq'
      · by_cases hq' : q ∈ l'.map Prod.fst
        · exact h.fresh q hq'
        · exact Or.inr ((h.untouched q hq hq').symm.trans hnone)
  freed q hq hq'' := by
    by_cases hq' : q ∈ l'.map Prod.fst
    · exact h'.freed q hq' hq''
    · rw [h'.untouched q hq' hq'', h.freed q hq hq']

/-- A list that ends in null starts at its first node. -/
theorem Links.head_eq (hl : Links h p l none) : p = l.head?.map Prod.fst := by
  cases l with
  | nil => exact hl
  | cons x l => exact hl.1

/-- The nodes of a list before and behind one of them are others. -/
theorem Links.ne_of_append (hl : Links h p (l₁ ++ (n, a) :: l₂) none) :
    (∀ x ∈ l₁, x.1 ≠ n) ∧ (∀ x ∈ l₂, x.1 ≠ n) ∧ ∀ x ∈ l₁, ∀ y ∈ l₂, x.1 ≠ y.1 := by
  have hnodup := hl.nodup
  rw [List.map_append, List.map_cons, List.nodup_append, List.nodup_cons] at hnodup
  obtain ⟨-, ⟨hn, -⟩, hdisj⟩ := hnodup
  refine ⟨fun x hx => ?_, fun x hx he => ?_, fun x hx y hy => ?_⟩
  · exact hdisj x.1 (List.mem_map_of_mem hx) n List.mem_cons_self
  · exact hn (List.mem_map.mpr ⟨x, hx, he⟩)
  · exact hdisj x.1 (List.mem_map_of_mem hx) y.1
      (List.mem_cons_of_mem _ (List.mem_map_of_mem hy))

/-- **A node may be unlinked**, with `prev` the node before it. -/
theorem rebuilt_unlink (hl : Links c.heap c.head (l₁ ++ (n, a) :: l₂) none)
    (hn : c.heap n = some ⟨a, next⟩) :
    Rebuilt c (c.unlink (l₁.getLast?.map Prod.fst) n next) (l₁ ++ (n, a) :: l₂) (l₁ ++ l₂) := by
  obtain ⟨h₁, h₂, h₁₂⟩ := hl.ne_of_append
  obtain ⟨q, hbefore, rfl, next', hx, hafter⟩ := links_append.mp hl
  rw [hn] at hx
  obtain ⟨-, rfl⟩ := Node.mk.inj (Option.some.inj hx)
  -- what is out of the list is neither `prev` nor `n`
  have hmem : ∀ q, q ∈ (l₁ ++ (n, a) :: l₂).map Prod.fst ↔ q = n ∨ q ∈ (l₁ ++ l₂).map Prod.fst := by
    intro q
    simp only [List.map_append, List.map_cons, List.mem_append, List.mem_cons]
    tauto
  have hfresh : ∀ q ∈ (l₁ ++ l₂).map Prod.fst,
      q ∈ (l₁ ++ (n, a) :: l₂).map Prod.fst ∨ c.heap q = none :=
    fun q hq => Or.inl ((hmem q).mpr (Or.inr hq))
  rcases List.eq_nil_or_concat' l₁ with rfl | ⟨l₀, y, rfl⟩
  -- at the head of the list
  · refine ⟨hafter.free h₂, fun q hq _ => ?_, hfresh, fun q hq hq' => ?_⟩
    · exact Function.update_of_ne (fun he => hq ((hmem q).mpr (Or.inl he))) _ _
    · obtain rfl := ((hmem q).mp hq).resolve_right hq'
      exact Function.update_self _ _ _
  -- behind another node
  · have hlast : (l₀ ++ [y]).getLast?.map Prod.fst = some y.1 := by simp
    have hy : ∀ z ∈ l₀, z.1 ≠ y.1 := by
      have hcut : Links c.heap c.head (l₀ ++ (y.1, y.2) :: (n, a) :: l₂) none := by simpa using hl
      exact hcut.ne_of_append.1
    rw [hlast]
    refine ⟨?_, fun q hq _ => ?_, hfresh, fun q hq hq' => ?_⟩
    · refine links_append.mpr ⟨next, ?_, ?_⟩
      · exact (hbefore.setNext hy next).free h₁
      · exact (hafter.setNext_of_ne (fun z hz => (h₁₂ y (by simp) z hz).symm) next).free h₂
    · have hqn : q ≠ n := fun he => hq ((hmem q).mpr (Or.inl he))
      have hqy : q ≠ y.1 := fun he => hq ((hmem q).mpr (Or.inr (by simp [he])))
      exact (Function.update_of_ne hqn _ _).trans (Function.update_of_ne hqy _ _)
    · obtain rfl := ((hmem q).mp hq).resolve_right hq'
      exact Function.update_self _ _ _

/-- **The value of a node may be written.** -/
theorem rebuilt_setValue (hl : Links c.heap c.head (l₁ ++ (n, a) :: l₂) none) (g : α → α) :
    Rebuilt c { c with heap := c.heap.setValue n g } (l₁ ++ (n, a) :: l₂)
      (l₁ ++ (n, g a) :: l₂) := by
  obtain ⟨h₁, h₂, -⟩ := hl.ne_of_append
  obtain ⟨q, hbefore, rfl, next, hx, hafter⟩ := links_append.mp hl
  have hmem : (l₁ ++ (n, a) :: l₂).map Prod.fst = (l₁ ++ (n, g a) :: l₂).map Prod.fst := by simp
  refine ⟨?_, fun q hq _ => ?_, fun q hq => Or.inl (hmem ▸ hq), fun q hq hq' => ?_⟩
  · refine links_append.mpr ⟨some n, ?_, rfl, next, ?_, ?_⟩
    · exact hbefore.congr fun x hx => Function.update_of_ne (h₁ x hx) _ _
    · change Function.update _ n _ n = _
      rw [Function.update_self, hx]
      rfl
    · exact hafter.congr fun x hx => Function.update_of_ne (h₂ x hx) _ _
  · have hqn : q ≠ n := fun he => hq (by simp [he])
    exact Function.update_of_ne hqn _ _
  · exact absurd (hmem ▸ hq) hq'

/-- **A new node may be put at the head.** -/
theorem rebuilt_push (hl : Links c.heap c.head l none) (hn : c.heap n = none) (a : α) :
    Rebuilt c (c.push n a) l ((n, a) :: l) := by
  -- a node of the list is not free
  have hne : ∀ x ∈ l, x.1 ≠ n := by
    intro x hx he
    obtain ⟨l₁, l₂, rfl⟩ := List.append_of_mem hx
    obtain ⟨q, -, -, next, hsome, -⟩ := links_append.mp hl
    rw [he, hn] at hsome
    cases hsome
  refine ⟨⟨rfl, c.head, Function.update_self _ _ _, ?_⟩, fun q _ hq => ?_, fun q hq => ?_,
    fun q hq hq' => absurd (List.mem_cons_of_mem _ hq) hq'⟩
  · exact hl.congr fun x hx => Function.update_of_ne (hne x hx) _ _
  · exact Function.update_of_ne (fun he => hq (by simp [he])) _ _
  · rcases List.mem_cons.mp hq with rfl | hq
    · exact Or.inr hn
    · exact Or.inl hq

/-! ## What the loops do -/

/-- The walk ends at the first node whose value meets the test. -/
theorem findNode_spec (hl : Links h p l none) (hf : l.length < fuel) :
    findNode f h fuel p = some ((l.find? fun x => f x.2).map Prod.fst) := by
  induction l generalizing p fuel with
  | nil =>
    obtain rfl := links_nil.mp hl
    obtain ⟨g, rfl⟩ := Nat.exists_eq_add_of_lt hf
    simp [findNode]
  | cons x l ih =>
    obtain ⟨rfl, next, hx, hl⟩ := hl
    cases fuel with
    | zero => cases hf
    | succ fuel =>
      simp only [findNode, hx, Option.bind_eq_bind, Option.bind_some]
      by_cases hfx : f x.2 = true
      · simp [hfx]
      · rw [if_neg hfx, ih hl (Nat.lt_of_succ_lt_succ hf), List.find?_cons_of_neg (by simpa using hfx)]

/-- The node that a walk is at, with its value and its successor. -/
theorem Links.at_cons {x : ℕ × α} (hl : Links h p (l₁ ++ x :: l₂) none) :
    ∃ next, h x.1 = some ⟨x.2, next⟩ ∧ next = l₂.head?.map Prod.fst := by
  obtain ⟨q, -, -, next, hx, hafter⟩ := links_append.mp hl
  exact ⟨next, hx, hafter.head_eq⟩

/-- The nodes of a list are allocated. -/
theorem Links.isSome (hl : Links h p l none) {q : ℕ} (hq : q ∈ l.map Prod.fst) :
    (h q).isSome := by
  obtain ⟨x, hx, rfl⟩ := List.mem_map.mp hq
  obtain ⟨l₁, l₂, rfl⟩ := List.append_of_mem hx
  obtain ⟨next, hnext, -⟩ := hl.at_cons
  rw [hnext]
  rfl

/-- **Which nodes are allocated after an operation on a list**: those of the new list, and those
that were, less the ones of the old list. -/
theorem Rebuilt.isSome_iff (hr : Rebuilt c c' l l') (q : ℕ) :
    (c'.heap q).isSome ↔
      q ∈ l'.map Prod.fst ∨ q ∉ l.map Prod.fst ∧ (c.heap q).isSome := by
  by_cases hq' : q ∈ l'.map Prod.fst
  · exact iff_of_true (hr.links.isSome hq') (Or.inl hq')
  · rw [or_iff_right hq']
    by_cases hq : q ∈ l.map Prod.fst
    · rw [hr.freed q hq hq']
      exact iff_of_false Bool.false_ne_true fun hold => hold.1 hq
    · rw [hr.untouched q hq hq', and_iff_right hq]

/-- **The loop that unlinks one node** unlinks the first one whose value meets the test. -/
theorem unlinkFirst_spec (hl : Links c.heap c.head (kept ++ rest) none)
    (hprev : prev = kept.getLast?.map Prod.fst) (hcurr : curr = rest.head?.map Prod.fst)
    (hf : rest.length < fuel) :
    ∃ c', unlinkFirst f fuel c prev curr = some c' ∧
      Rebuilt c c' (kept ++ rest) (kept ++ rest.eraseP fun x => f x.2) := by
  induction rest generalizing kept prev curr fuel with
  | nil =>
    subst hcurr
    obtain ⟨g, rfl⟩ := Nat.exists_eq_add_of_lt hf
    exact ⟨c, rfl, .refl hl⟩
  | cons x rest ih =>
    obtain rfl : curr = some x.1 := hcurr
    cases fuel with
    | zero => cases hf
    | succ fuel =>
      obtain ⟨next, hx, hnext⟩ := hl.at_cons
      simp only [unlinkFirst, hx, Option.bind_eq_bind, Option.bind_some]
      by_cases hfx : f x.2 = true
      · rw [if_pos hfx, List.eraseP_cons_of_pos (by simpa using hfx), hprev]
        exact ⟨_, rfl, rebuilt_unlink hl hx⟩
      -- the node is passed, and is the one behind the walk
      · rw [if_neg hfx, List.eraseP_cons_of_neg (by simpa using hfx)]
        have hl' : Links c.heap c.head ((kept ++ [x]) ++ rest) none := by simpa using hl
        have hprev' : some x.1 = (kept ++ [x]).getLast?.map Prod.fst := by simp
        obtain ⟨c', hc', hr⟩ := ih hl' hprev' hnext (Nat.lt_of_succ_lt_succ hf)
        exact ⟨c', hc', by simpa using hr⟩

/-- The loop from the head of a list on. -/
theorem unlinkFirst_head (f : α → Bool) (hl : Links c.heap c.head l none) (hf : l.length < fuel) :
    ∃ c', unlinkFirst f fuel c none c.head = some c' ∧
      Rebuilt c c' l (l.eraseP fun x => f x.2) :=
  unlinkFirst_spec (show Links c.heap c.head ([] ++ l) none from hl) rfl hl.head_eq hf

/-- **The loop that unlinks every node** whose value meets the test leaves the others. -/
theorem unlinkAll_spec (hl : Links c.heap c.head (kept ++ rest) none)
    (hprev : prev = kept.getLast?.map Prod.fst) (hcurr : curr = rest.head?.map Prod.fst)
    (hf : rest.length < fuel) :
    ∃ c', unlinkAll f fuel c prev curr = some c' ∧
      Rebuilt c c' (kept ++ rest) (kept ++ rest.filter fun x => !f x.2) := by
  induction rest generalizing c kept prev curr fuel with
  | nil =>
    subst hcurr
    obtain ⟨g, rfl⟩ := Nat.exists_eq_add_of_lt hf
    exact ⟨c, rfl, .refl hl⟩
  | cons x rest ih =>
    obtain rfl : curr = some x.1 := hcurr
    cases fuel with
    | zero => cases hf
    | succ fuel =>
      obtain ⟨next, hx, hnext⟩ := hl.at_cons
      simp only [unlinkAll, hx, Option.bind_eq_bind, Option.bind_some]
      by_cases hfx : f x.2 = true
      -- the node is unlinked, and the walk goes on behind the same one
      · have hun := rebuilt_unlink hl hx
        obtain ⟨c', hc', hr⟩ := ih hun.links rfl hnext (Nat.lt_of_succ_lt_succ hf)
        rw [if_pos hfx, List.filter_cons_of_neg (by simpa using hfx), hprev]
        exact ⟨c', hc', hun.trans hr⟩
      · have hl' : Links c.heap c.head ((kept ++ [x]) ++ rest) none := by simpa using hl
        have hprev' : some x.1 = (kept ++ [x]).getLast?.map Prod.fst := by simp
        obtain ⟨c', hc', hr⟩ := ih hl' hprev' hnext (Nat.lt_of_succ_lt_succ hf)
        rw [if_neg hfx, List.filter_cons_of_pos (by simpa using hfx)]
        exact ⟨c', hc', by simpa using hr⟩

theorem unlinkAll_head (f : α → Bool) (hl : Links c.heap c.head l none) (hf : l.length < fuel) :
    ∃ c', unlinkAll f fuel c none c.head = some c' ∧
      Rebuilt c c' l (l.filter fun x => !f x.2) :=
  unlinkAll_spec (show Links c.heap c.head ([] ++ l) none from hl) rfl hl.head_eq hf

/-- **The loop that frees a list** frees its nodes and no others. -/
theorem freeAll_spec (hl : Links h p l none) (hf : l.length < fuel) :
    ∃ h', freeAll fuel h p = some h' ∧
      ∀ q, h' q = if q ∈ l.map Prod.fst then none else h q := by
  induction l generalizing h p fuel with
  | nil =>
    obtain rfl := links_nil.mp hl
    obtain ⟨g, rfl⟩ := Nat.exists_eq_add_of_lt hf
    exact ⟨h, rfl, by simp⟩
  | cons x l ih =>
    have hnodup := hl.nodup
    rw [List.map_cons, List.nodup_cons] at hnodup
    obtain ⟨rfl, next, hx, hl⟩ := hl
    cases fuel with
    | zero => cases hf
    | succ fuel =>
      -- the rest of the list does without the first node
      have hrest : Links (h.free x.1) next l none :=
        hl.free fun y hy he => hnodup.1 (he ▸ List.mem_map_of_mem hy)
      obtain ⟨h', hh', hq⟩ := ih hrest (Nat.lt_of_succ_lt_succ hf)
      simp only [freeAll, hx, Option.bind_eq_bind, Option.bind_some]
      refine ⟨h', hh', fun q => ?_⟩
      rw [hq, List.map_cons]
      by_cases he : q = x.1
      · subst he
        simp [Heap.free]
      · simp only [Heap.free, Function.update_of_ne he, List.mem_cons, he, false_or]

end LinkedList
