import SlimMQ.Library.ChainTable
import SlimMQ.Library.LinkedList

/-!
# Hash tables with chains in memory

The chains of a table as singly linked lists, one from each head. A lookup walks along a list, a
removal and a cleanup unlink and free nodes, and a new entry gets a node of its own at the head. The
lists of a table stay apart, since an operation rebuilds one list and touches no other node; so a
table in memory does what the table of lists does. A node is allocated as long as its entry is in
the table, and longer only when the heads of the chains are overwritten.

## Main definitions

* `ChainMemory`, `MemoryCall`, `ChainMemory.step`: a table in memory, and the calls on it
* `ChainMemory.Owns`: which nodes stand in which chain, and which are lost
* `MemoryCall.onTable`: the calls on the table of lists, with the number of lost nodes

## Main results

* `ChainMemory.Owns.setChain`: a chain of a table may be rebuilt
* `ChainMemory.step_refines`: a call in memory is the call on the table of lists
* `ChainMemory.run_refines`: so is every sequence of calls
-/

/-! ## A table in memory -/

open LinkedList EventLoop

/-- A table in memory: the heads of its chains, and the nodes. -/
structure ChainMemory (n : ℕ) (κ σ : Type) where
  heads : Fin n → Option ℕ
  heap : Heap (ChainEntry κ σ)

/-- A call on a table in memory: the heads are set to null, the nodes are freed, or a call of one of
the other functions, with what `calloc` returns in it. -/
inductive MemoryCall (κ σ : Type)
  | init
  | destroy
  | call (c : TableCall κ σ) (calloc : Option ℕ)

/-- The call needs a new node. -/
def TableCall.allocates {n : ℕ} {κ σ : Type} [DecidableEq κ] (hash : κ → Fin n)
    (t : ChainTable n κ σ) : TableCall κ σ → Bool
  | .update k _ _ => (ChainTable.lookup hash t k).isNone
  | _ => false

/-- A call on the table of lists, with the number of lost nodes: overwritten heads lose the nodes of
all entries, and a call that gets no node for a new entry ends the process. -/
def MemoryCall.onTable {n : ℕ} {κ σ α : Type} [DecidableEq κ] (hash : κ → Fin n)
    (answer : Option σ → α) (t : ChainTable n κ σ × ℕ) : MemoryCall κ σ → Result (ChainTable n κ σ × ℕ) α
  | .init => .ok (fun _ => [], t.2 + (ChainTable.keys t.1).length) []
  | .destroy => .ok (fun _ => [], t.2) []
  | .call c calloc =>
    if TableCall.allocates hash t.1 c ∧ calloc = none then .fault t []
    else (ChainTable.step hash answer t.1 c).mapState (·, t.2)

namespace ChainMemory

variable {n : ℕ} {κ σ α : Type} [DecidableEq κ]

/-- The memory before the first call. -/
def empty : ChainMemory n κ σ := ⟨fun _ => none, fun _ => none⟩

/-- One of the chains. -/
def chain (m : ChainMemory n κ σ) (i : Fin n) : Chain (ChainEntry κ σ) := ⟨m.heads i, m.heap⟩

/-- The table after a change of one of its chains. -/
def setChain (m : ChainMemory n κ σ) (i : Fin n) (c : Chain (ChainEntry κ σ)) :
    ChainMemory n κ σ :=
  ⟨Function.update m.heads i c.head, c.heap⟩

/-- The heads of all chains are set to null. -/
def init (m : ChainMemory n κ σ) : ChainMemory n κ σ := { m with heads := fun _ => none }

/-- The nodes of all chains are freed, and their heads set to null. -/
def destroy (fuel : ℕ) (m : ChainMemory n κ σ) : Option (ChainMemory n κ σ) :=
  (List.finRange n).foldlM
    (fun m i => (freeAll fuel m.heap (m.heads i)).map fun heap => m.setChain i ⟨none, heap⟩) m

/-- The entry of a key is written, or a new one is put at the head of its chain. -/
def update (hash : κ → Fin n) (fuel : ℕ) (m : ChainMemory n κ σ) (k : κ) (s : σ) (now : Int)
    (calloc : Option ℕ) : Option (ChainMemory n κ σ) := do
  match ← findNode (·.key = k) m.heap fuel (m.heads (hash k)) with
  | some p =>
    some { m with heap := m.heap.setValue p fun e => { e with state := s, timestamp := now } }
  -- the fields of the new entry are written without a test of the pointer
  | none => calloc.map fun p => m.setChain (hash k) ((m.chain (hash k)).push p ⟨k, s, now⟩)

/-- The state of a key. -/
def get (hash : κ → Fin n) (fuel : ℕ) (m : ChainMemory n κ σ) (k : κ) : Option (Option σ) := do
  match ← findNode (·.key = k) m.heap fuel (m.heads (hash k)) with
  | some p => (m.heap p).map fun node => some node.value.state
  | none => some none

/-- The entry of a key is unlinked and freed. -/
def remove (hash : κ → Fin n) (fuel : ℕ) (m : ChainMemory n κ σ) (k : κ) :
    Option (ChainMemory n κ σ) :=
  (unlinkFirst (·.key = k) fuel (m.chain (hash k)) none (m.heads (hash k))).map
    (m.setChain (hash k))

/-- The expired entries of all chains are unlinked and freed. -/
def cleanup (fuel : ℕ) (m : ChainMemory n κ σ) (now expiration : Int) :
    Option (ChainMemory n κ σ) :=
  (List.finRange n).foldlM
    (fun m i =>
      (unlinkAll (fun e => expiration < now - e.timestamp) fuel (m.chain i) none (m.heads i)).map
        (m.setChain i)) m

/-- What a call leaves; nothing is left of one that reads or writes where it must not. -/
def result (m : ChainMemory n κ σ) (outs : List α) :
    Option (ChainMemory n κ σ) → Result (ChainMemory n κ σ) α
  | none => .fault m []
  | some m' => .ok m' outs

/-- A call on a table in memory. -/
def step (hash : κ → Fin n) (answer : Option σ → α) (fuel : ℕ) (m : ChainMemory n κ σ) :
    MemoryCall κ σ → Result (ChainMemory n κ σ) α
  | .init => .ok m.init []
  | .destroy => m.result [] (m.destroy fuel)
  | .call (.update k s now) calloc => m.result [] (update hash fuel m k s now calloc)
  | .call (.get k) _ =>
    match get hash fuel m k with
    | none => .fault m []
    | some state => .ok m [answer state]
  | .call (.remove k) _ => m.result [] (remove hash fuel m k)
  | .call (.cleanup now expiration) _ => m.result [] (m.cleanup fuel now expiration)

/-- What `calloc` returns is null or free. -/
def Fresh (m : ChainMemory n κ σ) : MemoryCall κ σ → Prop
  | .call _ (some p) => m.heap p = none
  | _ => True

instance decidableFresh (m : ChainMemory n κ σ) : (c : MemoryCall κ σ) → Decidable (m.Fresh c)
  | .call _ (some p) => decidable_of_iff ((m.heap p).isNone = true) Option.isNone_iff_eq_none
  | .call _ none => isTrue trivial
  | .init => isTrue trivial
  | .destroy => isTrue trivial

/-! ## Owned nodes -/

/-- **Which nodes are allocated**: those of the chains, no node in two of them, and those that are
lost, of which no chain has any. -/
structure Owns (m : ChainMemory n κ σ) (l : Fin n → List (ℕ × ChainEntry κ σ)) (lost : List ℕ) :
    Prop where
  chains : ∀ i, Links m.heap (m.heads i) (l i) none
  apart : ∀ i j, i ≠ j → ∀ p ∈ (l i).map Prod.fst, p ∉ (l j).map Prod.fst
  lost_apart : ∀ i, ∀ p ∈ (l i).map Prod.fst, p ∉ lost
  lost_nodup : lost.Nodup
  allocated : ∀ p, (m.heap p).isSome ↔ p ∈ lost ∨ ∃ i, p ∈ (l i).map Prod.fst

/-- The table of the entries of the nodes. -/
def entriesOf (l : Fin n → List (ℕ × ChainEntry κ σ)) : ChainTable n κ σ := fun i =>
  (l i).map Prod.snd

/-- The addresses of the nodes, chain by chain. -/
def addresses (l : Fin n → List (ℕ × ChainEntry κ σ)) : List ℕ :=
  (List.finRange n).flatMap fun i => (l i).map Prod.fst

variable {m : ChainMemory n κ σ} {l : Fin n → List (ℕ × ChainEntry κ σ)} {lost : List ℕ}
  {hash : κ → Fin n} {answer : Option σ → α} {fuel : ℕ}

omit [DecidableEq κ] in
theorem owns_empty : Owns (empty : ChainMemory n κ σ) (fun _ => []) [] where
  chains _ := rfl
  apart _ _ _ _ hp := by cases hp
  lost_apart _ _ hp := by cases hp
  lost_nodup := List.nodup_nil
  allocated p := by simp [empty]

omit [DecidableEq κ] in
theorem entriesOf_update (l : Fin n → List (ℕ × ChainEntry κ σ)) (i : Fin n)
    (l' : List (ℕ × ChainEntry κ σ)) :
    entriesOf (Function.update l i l') = Function.update (entriesOf l) i (l'.map Prod.snd) := by
  funext j
  by_cases hj : j = i
  · subst hj
    simp [entriesOf]
  · simp [entriesOf, hj]

namespace Owns

omit [DecidableEq κ] in
/-- Each allocated node is counted once. -/
theorem nodup (h : Owns m l lost) : (lost ++ addresses l).Nodup := by
  rw [List.nodup_append]
  refine ⟨h.lost_nodup, ?_, fun p hp q hq he => ?_⟩
  · refine List.nodup_flatMap.mpr ⟨fun i _ => (h.chains i).nodup, ?_⟩
    refine (List.nodup_finRange n).imp fun {i j} hij => ?_
    exact fun p hi hj => h.apart i j hij p hi hj
  · obtain ⟨i, -, hi⟩ := List.mem_flatMap.mp hq
    exact h.lost_apart i q hi (he ▸ hp)

omit [DecidableEq κ] in
theorem isSome_iff (h : Owns m l lost) (p : ℕ) : (m.heap p).isSome ↔ p ∈ lost ++ addresses l := by
  rw [h.allocated, List.mem_append]
  simp [addresses]

omit [DecidableEq κ] in
/-- The nodes of a chain that is rebuilt are not lost, and are in no other chain. -/
theorem apart_of_rebuilt (h : Owns m l lost) {i : Fin n} {c' : Chain (ChainEntry κ σ)}
    {l' : List (ℕ × ChainEntry κ σ)} (hr : Rebuilt (m.chain i) c' (l i) l') {p : ℕ}
    (hp : p ∈ l'.map Prod.fst) : p ∉ lost ∧ ∀ j, j ≠ i → p ∉ (l j).map Prod.fst := by
  rcases hr.fresh p hp with hold | hnone
  · exact ⟨h.lost_apart i p hold, fun j hj hp' => h.apart j i hj p hp' hold⟩
  -- a node that was free is neither lost nor in a chain
  · have hfree : ¬ (p ∈ lost ∨ ∃ j, p ∈ (l j).map Prod.fst) := by
      rw [← h.allocated, show m.heap p = none from hnone]
      exact Bool.false_ne_true
    exact ⟨fun hl => hfree (Or.inl hl), fun j _ hj => hfree (Or.inr ⟨j, hj⟩)⟩

omit [DecidableEq κ] in
/-- **A chain may be rebuilt.** -/
theorem setChain (h : Owns m l lost) {i : Fin n} {c' : Chain (ChainEntry κ σ)}
    {l' : List (ℕ × ChainEntry κ σ)} (hr : Rebuilt (m.chain i) c' (l i) l') :
    Owns (m.setChain i c') (Function.update l i l') lost := by
  have hother : ∀ j, j ≠ i → ∀ p ∈ (l j).map Prod.fst, p ∉ l'.map Prod.fst :=
    fun j hj p hp hp' => (h.apart_of_rebuilt hr hp').2 j hj hp
  constructor
  case chains =>
    intro j
    by_cases hj : j = i
    · subst hj
      simpa [ChainMemory.setChain] using hr.links
    · simp only [ChainMemory.setChain, Function.update_of_ne hj]
      refine (h.chains j).congr fun x hx => hr.untouched x.1 ?_ ?_
      · exact h.apart j i hj x.1 (List.mem_map_of_mem hx)
      · exact hother j hj x.1 (List.mem_map_of_mem hx)
  case apart =>
    intro j j' hjj p hp hp'
    by_cases hj : j = i
    · subst hj
      rw [Function.update_self] at hp
      rw [Function.update_of_ne (Ne.symm hjj)] at hp'
      exact hother j' (Ne.symm hjj) p hp' hp
    · rw [Function.update_of_ne hj] at hp
      by_cases hj' : j' = i
      · subst hj'
        rw [Function.update_self] at hp'
        exact hother j hj p hp hp'
      · rw [Function.update_of_ne hj'] at hp'
        exact h.apart j j' hjj p hp hp'
  case lost_apart =>
    intro j p hp
    by_cases hj : j = i
    · subst hj
      rw [Function.update_self] at hp
      exact (h.apart_of_rebuilt hr hp).1
    · rw [Function.update_of_ne hj] at hp
      exact h.lost_apart j p hp
  case lost_nodup => exact h.lost_nodup
  case allocated =>
    intro p
    have hold : ((m.chain i).heap p).isSome ↔ p ∈ lost ∨ ∃ j, p ∈ (l j).map Prod.fst :=
      h.allocated p
    change (c'.heap p).isSome ↔ _
    rw [hr.isSome_iff, hold]
    constructor
    · rintro (hp | ⟨hp, hl | ⟨j, hj⟩⟩)
      · exact Or.inr ⟨i, by rwa [Function.update_self]⟩
      · exact Or.inl hl
      · have hji : j ≠ i := fun he => hp (he ▸ hj)
        exact Or.inr ⟨j, by rwa [Function.update_of_ne hji]⟩
    · rintro (hl | ⟨j, hj⟩)
      · exact Or.inr ⟨fun hp => h.lost_apart i p hp hl, Or.inl hl⟩
      · by_cases hji : j = i
        · subst hji
          rw [Function.update_self] at hj
          exact Or.inl hj
        · rw [Function.update_of_ne hji] at hj
          exact Or.inr ⟨h.apart j i hji p hj, Or.inr ⟨j, hj⟩⟩

omit [DecidableEq κ] in
/-- **A loop over all chains** rebuilds each of them. -/
theorem foldlM_setChain {op : ChainMemory n κ σ → Fin n → Option (ChainMemory n κ σ)}
    {g : List (ℕ × ChainEntry κ σ) → List (ℕ × ChainEntry κ σ)}
    (hop : ∀ (m : ChainMemory n κ σ) (i : Fin n) (li : List (ℕ × ChainEntry κ σ)),
      Links m.heap (m.heads i) li none → li.length < fuel →
      ∃ c', op m i = some (m.setChain i c') ∧ Rebuilt (m.chain i) c' li (g li))
    {is : List (Fin n)} (his : is.Nodup) (h : Owns m l lost)
    (hf : ∀ i ∈ is, (l i).length < fuel) :
    ∃ m', is.foldlM op m = some m' ∧ Owns m' (fun i => if i ∈ is then g (l i) else l i) lost := by
  induction is generalizing m l with
  | nil => exact ⟨m, rfl, by simpa using h⟩
  | cons i is ih =>
    rw [List.nodup_cons] at his
    obtain ⟨c', hc', hr⟩ := hop m i (l i) (h.chains i) (hf i List.mem_cons_self)
    -- the chains still to come are as they were
    have hsame : ∀ j ∈ is, Function.update l i (g (l i)) j = l j := fun j hj =>
      Function.update_of_ne (fun he : j = i => his.1 (he ▸ hj)) _ _
    obtain ⟨m', hm', ho⟩ := ih his.2 (h.setChain hr) fun j hj => by
      rw [hsame j hj]
      exact hf j (List.mem_cons_of_mem i hj)
    refine ⟨m', ?_, ?_⟩
    · rw [List.foldlM_cons, hc']
      exact hm'
    · convert ho using 2 with j
      by_cases hji : j = i
      · subst hji
        simp [his.1]
      · simp [hji]

end Owns

/-! ## Each call -/

/-- The walk changes the first entry of the key. -/
theorem setInChain_append {es₁ es₂ : List (ChainEntry κ σ)} {e : ChainEntry κ σ} {k : κ} (s : σ)
    (now : Int) (h₁ : ∀ e' ∈ es₁, e'.key ≠ k) (he : e.key = k) :
    ChainTable.setInChain k s now (es₁ ++ e :: es₂) =
      some (es₁ ++ { e with state := s, timestamp := now } :: es₂) := by
  induction es₁ with
  | nil => simp [ChainTable.setInChain, he]
  | cons e' es₁ ih =>
    have ih := ih fun e'' he'' => h₁ e'' (List.mem_cons_of_mem e' he'')
    rw [List.cons_append, ChainTable.setInChain, if_neg (h₁ e' List.mem_cons_self), ih]
    rfl

/-- The walk changes nothing in a chain without the key. -/
theorem setInChain_eq_none {es : List (ChainEntry κ σ)} {k : κ} (s : σ) (now : Int)
    (h : ∀ e ∈ es, e.key ≠ k) : ChainTable.setInChain k s now es = none := by
  cases hs : ChainTable.setInChain k s now es with
  | none => rfl
  | some es' =>
    -- a walk that succeeds finds its entry
    have hfind := ChainTable.find?_setInChain hs k
    rw [if_pos rfl] at hfind
    have hkeys := ChainTable.map_key_setInChain hs
    have hk : k ∈ es.map (·.key) := by
      rw [← hkeys]
      exact List.mem_map.mpr ⟨_, List.mem_of_find?_eq_some hfind, rfl⟩
    obtain ⟨e, he, hek⟩ := List.mem_map.mp hk
    exact absurd hek (h e he)

/-- What is found for a key in a chain of nodes is found in its entries. -/
theorem lookup_entriesOf (l : Fin n → List (ℕ × ChainEntry κ σ)) (k : κ) :
    ChainTable.lookup hash (entriesOf l) k =
      ((l (hash k)).find? fun x => decide (x.2.key = k)).map Prod.snd := by
  rw [ChainTable.lookup, entriesOf, List.find?_map]
  rfl

omit [DecidableEq κ] in
theorem length_keys_entriesOf (l : Fin n → List (ℕ × ChainEntry κ σ)) :
    (ChainTable.keys (entriesOf l)).length = (addresses l).length := by
  simp [ChainTable.keys, entriesOf, addresses, List.length_flatMap]

/-- **A write** changes the node of the key, or puts a new one in; it fails when it gets none. -/
theorem update_spec (h : Owns m l lost) (k : κ) (s : σ) (now : Int)
    (hf : (l (hash k)).length < fuel) {calloc : Option ℕ}
    (hfresh : ∀ p, calloc = some p → m.heap p = none) :
    if (ChainTable.lookup hash (entriesOf l) k).isNone ∧ calloc = none then
      update hash fuel m k s now calloc = none
    else ∃ m' l', update hash fuel m k s now calloc = some m' ∧ Owns m' l' lost ∧
      entriesOf l' = ChainTable.update hash (entriesOf l) k s now := by
  have hwalk : findNode (·.key = k) m.heap fuel (m.heads (hash k)) =
      some (((l (hash k)).find? fun x => decide (x.2.key = k)).map Prod.fst) :=
    findNode_spec (h.chains _) hf
  rw [lookup_entriesOf]
  cases hfind : (l (hash k)).find? (fun x => decide (x.2.key = k)) with
  | some x =>
    obtain ⟨hk, l₁, l₂, hl, hl₁⟩ := List.find?_eq_some_iff_append.mp hfind
    have hr := rebuilt_setValue (hl ▸ h.chains (hash k) : Links (m.chain (hash k)).heap
      (m.chain (hash k)).head (l₁ ++ (x.1, x.2) :: l₂) none)
      fun e => { e with state := s, timestamp := now }
    rw [if_neg (by simp)]
    refine ⟨_, _, ?_, h.setChain (hl ▸ hr), ?_⟩
    · simp [update, hwalk, hfind, ChainMemory.setChain, chain]
    · rw [entriesOf_update, ChainTable.update]
      congr 1
      have hne : ∀ e ∈ l₁.map Prod.snd, e.key ≠ k := by
        intro e he
        obtain ⟨y, hy, rfl⟩ := List.mem_map.mp he
        simpa using hl₁ y hy
      have hset : ChainTable.setInChain k s now (l₁.map Prod.snd ++ x.2 :: l₂.map Prod.snd) = _ :=
        setInChain_append s now hne (by simpa using hk)
      have hent : entriesOf l (hash k) = l₁.map Prod.snd ++ x.2 :: l₂.map Prod.snd := by
        simp [entriesOf, hl]
      rw [hent, hset]
      simp
  | none =>
    have hnone : ∀ e ∈ entriesOf l (hash k), e.key ≠ k := by
      intro e he
      obtain ⟨x, hx, rfl⟩ := List.mem_map.mp he
      simpa using List.find?_eq_none.mp hfind x hx
    cases calloc with
    | none =>
      rw [if_pos (by simp)]
      simp [update, hwalk, hfind]
    | some p =>
      rw [if_neg (by simp)]
      have hr : Rebuilt (m.chain (hash k)) ((m.chain (hash k)).push p ⟨k, s, now⟩) (l (hash k)) _ :=
        rebuilt_push (h.chains (hash k)) (hfresh p rfl) _
      refine ⟨_, _, ?_, h.setChain hr, ?_⟩
      · simp [update, hwalk, hfind]
      · rw [entriesOf_update, ChainTable.update, setInChain_eq_none s now hnone]
        rfl

theorem get_spec (h : Owns m l lost) (k : κ) (hf : (l (hash k)).length < fuel) :
    get hash fuel m k = some (ChainTable.get hash (entriesOf l) k) := by
  have hwalk : findNode (·.key = k) m.heap fuel (m.heads (hash k)) =
      some (((l (hash k)).find? fun x => decide (x.2.key = k)).map Prod.fst) :=
    findNode_spec (h.chains _) hf
  have hlookup : ChainTable.get hash (entriesOf l) k =
      (ChainTable.lookup hash (entriesOf l) k).map (·.state) := rfl
  rw [hlookup, lookup_entriesOf]
  cases hfind : (l (hash k)).find? (fun x => decide (x.2.key = k)) with
  | none => simp [get, hwalk, hfind]
  | some x =>
    -- the node that was found is read
    obtain ⟨l₁, l₂, hl⟩ := List.append_of_mem (List.mem_of_find?_eq_some hfind)
    obtain ⟨next, hx, -⟩ := (hl ▸ h.chains (hash k)).at_cons
    simp [get, hwalk, hfind, hx]

theorem remove_spec (h : Owns m l lost) (k : κ) (hf : (l (hash k)).length < fuel) :
    ∃ m' l', remove hash fuel m k = some m' ∧ Owns m' l' lost ∧
      entriesOf l' = ChainTable.remove hash (entriesOf l) k := by
  obtain ⟨c', hc', hr⟩ := unlinkFirst_head (fun e => decide (e.key = k))
    (show Links (m.chain (hash k)).heap (m.chain (hash k)).head _ none from h.chains (hash k)) hf
  have hrun : remove hash fuel m k = some (m.setChain (hash k) c') := congrArg (Option.map _) hc'
  refine ⟨_, _, hrun, h.setChain hr, ?_⟩
  rw [entriesOf_update, ChainTable.remove, entriesOf, List.eraseP_map]
  rfl

omit [DecidableEq κ] in
theorem cleanup_spec (h : Owns m l lost) (now expiration : Int)
    (hf : ∀ i, (l i).length < fuel) :
    ∃ m' l', m.cleanup fuel now expiration = some m' ∧ Owns m' l' lost ∧
      entriesOf l' = ChainTable.cleanup (entriesOf l) now expiration := by
  have hop : ∀ (m : ChainMemory n κ σ) (i : Fin n) (li : List (ℕ × ChainEntry κ σ)),
      Links m.heap (m.heads i) li none → li.length < fuel →
      ∃ c', (unlinkAll (fun e => expiration < now - e.timestamp) fuel (m.chain i) none
          (m.heads i)).map (m.setChain i) = some (m.setChain i c') ∧
        Rebuilt (m.chain i) c' li
          (li.filter fun x => !decide (expiration < now - x.2.timestamp)) := by
    intro m i li hl hf
    obtain ⟨c', hc', hr⟩ := unlinkAll_head (fun e => decide (expiration < now - e.timestamp))
      (show Links (m.chain i).heap (m.chain i).head li none from hl) hf
    exact ⟨c', congrArg (Option.map _) hc', hr⟩
  obtain ⟨m', hm', ho⟩ := h.foldlM_setChain hop (List.nodup_finRange n) fun i _ => hf i
  refine ⟨m', _, hm', ho, funext fun i => ?_⟩
  simp only [entriesOf, List.mem_finRange, if_true, ChainTable.cleanup, List.filter_map]
  congr 2
  funext x
  exact decide_not.symm

omit [DecidableEq κ] in
theorem destroy_spec (h : Owns m l lost) (hf : ∀ i, (l i).length < fuel) :
    ∃ m', m.destroy fuel = some m' ∧ Owns m' (fun _ => []) lost := by
  have hop : ∀ (m : ChainMemory n κ σ) (i : Fin n) (li : List (ℕ × ChainEntry κ σ)),
      Links m.heap (m.heads i) li none → li.length < fuel →
      ∃ c', (freeAll fuel m.heap (m.heads i)).map (fun heap => m.setChain i ⟨none, heap⟩) =
          some (m.setChain i c') ∧ Rebuilt (m.chain i) c' li [] := by
    intro m i li hl hf
    obtain ⟨heap, hheap, hq⟩ := freeAll_spec hl hf
    refine ⟨⟨none, heap⟩, by rw [hheap, Option.map_some], rfl, fun q hq' _ => ?_, by simp, ?_⟩
    · simp [chain, hq, hq']
    · intro q hq' _
      simp [hq, hq']
  obtain ⟨m', hm', ho⟩ := h.foldlM_setChain hop (List.nodup_finRange n) fun i _ => hf i
  exact ⟨m', hm', by simpa using ho⟩

omit [DecidableEq κ] in
/-- Overwritten heads lose the nodes of all chains. -/
theorem Owns.init (h : Owns m l lost) : Owns m.init (fun _ => []) (lost ++ addresses l) where
  chains _ := rfl
  apart _ _ _ _ hp := by cases hp
  lost_apart _ _ hp := by cases hp
  lost_nodup := h.nodup
  allocated p := by
    rw [show m.init.heap = m.heap from rfl, h.isSome_iff]
    simp

/-! ## Sequences of calls -/

/-- A table in memory stands for the table of the entries of its nodes, with so many nodes lost. -/
def Stands (m : ChainMemory n κ σ) (t : ChainTable n κ σ × ℕ) : Prop :=
  ∃ l lost, Owns m l lost ∧ t = (entriesOf l, lost.length)

omit [DecidableEq κ] in
theorem stands_empty : Stands (empty : ChainMemory n κ σ) (fun _ => [], 0) :=
  ⟨fun _ => [], [], owns_empty, rfl⟩

omit [DecidableEq κ] in
/-- **One node for each entry, and the lost ones.** -/
theorem Stands.exists_nodes {t : ChainTable n κ σ × ℕ} (h : Stands m t) :
    ∃ nodes : List ℕ, nodes.Nodup ∧ (∀ p, (m.heap p).isSome ↔ p ∈ nodes) ∧
      nodes.length = t.2 + (ChainTable.keys t.1).length := by
  obtain ⟨l, lost, ho, rfl⟩ := h
  refine ⟨lost ++ addresses l, ho.nodup, ho.isSome_iff, ?_⟩
  rw [List.length_append, length_keys_entriesOf]

/-- A call adds at most one entry to a chain. -/
theorem length_onTable (hash : κ → Fin n) (answer : Option σ → α) (t : ChainTable n κ σ × ℕ)
    (c : MemoryCall κ σ) (i : Fin n) :
    ((MemoryCall.onTable hash answer t c).state.1 i).length ≤ (t.1 i).length + 1 := by
  cases c with
  | init => exact Nat.zero_le _
  | destroy => exact Nat.zero_le _
  | call c calloc =>
    simp only [MemoryCall.onTable]
    split_ifs
    · exact Nat.le_succ _
    · cases c with
      | get k => exact Nat.le_succ _
      | update k s now =>
        change (Function.update t.1 (hash k) _ i).length ≤ _
        by_cases hi : i = hash k
        · subst hi
          rw [Function.update_self]
          cases hset : ChainTable.setInChain k s now (t.1 (hash k)) with
          | none => exact le_rfl
          | some es =>
            have hlen := congrArg List.length (ChainTable.map_key_setInChain hset)
            simp only [List.length_map] at hlen
            rw [Option.getD_some, hlen]
            exact Nat.le_succ _
        · rw [Function.update_of_ne hi]
          exact Nat.le_succ _
      | remove k =>
        change (Function.update t.1 (hash k) _ i).length ≤ _
        by_cases hi : i = hash k
        · subst hi
          rw [Function.update_self]
          exact (List.length_eraseP_le).trans (Nat.le_succ _)
        · rw [Function.update_of_ne hi]
          exact Nat.le_succ _
      | cleanup now expiration => exact (List.length_filter_le _ _).trans (Nat.le_succ _)

/-- **A call in memory is the call on the table of lists.** -/
theorem step_refines (hash : κ → Fin n) (answer : Option σ → α) {t : ChainTable n κ σ × ℕ}
    (h : Stands m t) (hf : ∀ i, (t.1 i).length < fuel) {c : MemoryCall κ σ} (hc : Fresh m c) :
    Stands (step hash answer fuel m c).state (MemoryCall.onTable hash answer t c).state ∧
      (step hash answer fuel m c).outputs = (MemoryCall.onTable hash answer t c).outputs ∧
      (step hash answer fuel m c).running = (MemoryCall.onTable hash answer t c).running := by
  obtain ⟨l, lost, ho, rfl⟩ := h
  have hlen : ∀ i, (l i).length < fuel := by simpa [entriesOf] using hf
  have hsame : Stands m (entriesOf l, lost.length) := ⟨l, lost, ho, rfl⟩
  cases c with
  | init =>
    refine ⟨⟨_, _, ho.init, ?_⟩, rfl, rfl⟩
    rw [List.length_append, ← length_keys_entriesOf]
    rfl
  | destroy =>
    obtain ⟨m', hm', ho'⟩ := destroy_spec ho hlen
    simp only [step, hm']
    exact ⟨⟨_, _, ho', rfl⟩, rfl, rfl⟩
  | call c calloc =>
    have hfresh : ∀ p, calloc = some p → m.heap p = none := by
      rintro p rfl
      exact hc
    cases c with
    | update k s now =>
      have hup := update_spec ho k s now (hlen (hash k)) hfresh
      have hiff : TableCall.allocates hash (entriesOf l) (.update k s now) =
        (ChainTable.lookup hash (entriesOf l) k).isNone := rfl
      split_ifs at hup with hnone
      -- no node for the new entry
      · simp only [step, hup, MemoryCall.onTable, hiff, if_pos hnone]
        exact ⟨hsame, rfl, rfl⟩
      · obtain ⟨m', l', hm', ho', hl'⟩ := hup
        simp only [step, hm', MemoryCall.onTable, hiff, if_neg hnone]
        exact ⟨⟨l', lost, ho', by rw [hl']; rfl⟩, rfl, rfl⟩
    | get k =>
      simp only [step, get_spec ho k (hlen (hash k)), MemoryCall.onTable, TableCall.allocates]
      exact ⟨hsame, rfl, rfl⟩
    | remove k =>
      obtain ⟨m', l', hm', ho', hl'⟩ := remove_spec ho k (hlen (hash k))
      simp only [step, hm', MemoryCall.onTable, TableCall.allocates]
      exact ⟨⟨l', lost, ho', by rw [hl']; rfl⟩, rfl, rfl⟩
    | cleanup now expiration =>
      obtain ⟨m', l', hm', ho', hl'⟩ := cleanup_spec ho now expiration hlen
      simp only [step, hm', MemoryCall.onTable, TableCall.allocates]
      exact ⟨⟨l', lost, ho', by rw [hl']; rfl⟩, rfl, rfl⟩

/-- **A sequence of calls in memory is one on the table of lists**, when each `calloc` in it returns
null or a free address. -/
theorem run_refines {t : ChainTable n κ σ × ℕ} {calls : List (MemoryCall κ σ)} (h : Stands m t)
    (hf : ∀ i, (t.1 i).length + calls.length < fuel)
    (hc : Along (step hash answer fuel) Fresh m calls) :
    Stands (run (step hash answer fuel) m calls).state
        (run (MemoryCall.onTable hash answer) t calls).state ∧
      (run (step hash answer fuel) m calls).outputs =
        (run (MemoryCall.onTable hash answer) t calls).outputs ∧
      (run (step hash answer fuel) m calls).running =
        (run (MemoryCall.onTable hash answer) t calls).running := by
  induction calls generalizing m t with
  | nil => exact ⟨h, rfl, rfl⟩
  | cons c calls ih =>
    obtain ⟨hfresh, hrest⟩ := along_cons.mp hc
    obtain ⟨h₁, ho, hr⟩ := step_refines hash answer h
      (fun i => lt_of_le_of_lt (Nat.le_add_right _ _) (hf i)) hfresh
    by_cases hrun : (step hash answer fuel m c).running
    · -- a chain has grown by one entry at most, and there is one call less to come
      have hf' : ∀ i, ((MemoryCall.onTable hash answer t c).state.1 i).length + calls.length <
          fuel := by
        intro i
        have hlen := length_onTable hash answer t c i
        have hi := hf i
        rw [List.length_cons] at hi
        omega
      obtain ⟨h₂, ho', hr'⟩ := ih h₁ hf' (hrest hrun)
      simp only [run, hrun, ← hr, if_true]
      exact ⟨h₂, by rw [ho, ho'], hr'⟩
    · simp only [run, hrun, ← hr]
      exact ⟨h₁, ho, hr⟩

/-! ## Lost nodes -/

omit [DecidableEq κ] in
theorem keys_eq_nil_iff (t : ChainTable n κ σ) : ChainTable.keys t = [] ↔ t = fun _ => [] := by
  simp [ChainTable.keys, funext_iff]

/-- The heads are overwritten of a table without entries only. -/
def LosesNone (t : ChainTable n κ σ × ℕ) : MemoryCall κ σ → Prop
  | .init => t.1 = fun _ => []
  | _ => True

/-- A call loses nodes exactly when it overwrites the heads of a table with entries. -/
theorem snd_onTable (hash : κ → Fin n) (answer : Option σ → α) (t : ChainTable n κ σ × ℕ)
    (c : MemoryCall κ σ) :
    (MemoryCall.onTable hash answer t c).state.2 = 0 ↔ t.2 = 0 ∧ LosesNone t c := by
  cases c with
  | init =>
    change t.2 + (ChainTable.keys t.1).length = 0 ↔ t.2 = 0 ∧ t.1 = _
    rw [Nat.add_eq_zero_iff, List.length_eq_zero_iff, keys_eq_nil_iff]
  | destroy => exact (and_iff_left trivial).symm
  | call c calloc =>
    have hsnd : (MemoryCall.onTable hash answer t (.call c calloc)).state.2 = t.2 := by
      simp only [MemoryCall.onTable]
      split_ifs <;> rfl
    rw [hsnd]
    exact (and_iff_left trivial).symm

/-- **No node is lost exactly when the heads are overwritten of tables without entries only.** -/
theorem lost_eq_zero_iff (hash : κ → Fin n) (answer : Option σ → α) (calls : List (MemoryCall κ σ)) :
    (run (MemoryCall.onTable hash answer) (fun _ => [], 0) calls).state.2 = 0 ↔
      Along (MemoryCall.onTable hash answer) LosesNone (fun _ => [], 0) calls := by
  induction calls using List.reverseRecOn with
  | nil =>
    refine iff_of_true rfl fun xs x hp => ?_
    cases List.append_ne_nil_of_right_ne_nil xs (List.cons_ne_nil x []) (List.prefix_nil.mp hp)
  | append_singleton calls c ih =>
    by_cases hr : (run (MemoryCall.onTable hash answer) (fun _ => [], 0) calls).running
    · rw [run_snoc _ _ _ hr, snd_onTable, ih]
      constructor
      · rintro ⟨hall, hlast⟩ xs x hp hrun
        rcases List.prefix_concat_iff.mp hp with he | hp
        · obtain ⟨rfl, rfl⟩ := List.append_singleton_inj.mp he
          exact hlast
        · exact hall xs x hp hrun
      · intro h
        exact ⟨h.of_prefix (List.prefix_append calls [c]), h calls c (List.prefix_refl _) hr⟩
    -- the process has ended before
    · rw [run_append_of_not_running _ _ _ hr, ih]
      refine ⟨fun h xs x hp hrun => ?_, fun h => h.of_prefix (List.prefix_append calls [c])⟩
      rcases List.prefix_concat_iff.mp hp with he | hp
      · obtain ⟨rfl, rfl⟩ := List.append_singleton_inj.mp he
        exact absurd hrun hr
      · exact h xs x hp hrun

end ChainMemory
