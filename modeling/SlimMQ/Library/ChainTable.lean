import SlimMQ.Library.EventLoop
import Mathlib.Data.List.Nodup
import Mathlib.Data.List.FinRange
import Mathlib.Logic.Function.Basic
import Mathlib.Tactic.Common

/-!
# Hash tables with chains

A table of `n` buckets, each a chain of entries. A key is looked for in the bucket of its hash; an
entry is changed where it is found, put at the head of its chain when it is not, and unlinked when
it is removed or its last update is too long ago. Every table that the operations build is valid:
an entry stands in the bucket of its key, and no key has two. A valid table is a map from keys to
states with the times of their last updates, and each operation is that of the map. The clock is an
unbounded integer, so that the age of an entry never overflows.

## Main definitions

* `ChainTable`, `ChainEntry`: a table and its entries
* `ChainTable.update`, `ChainTable.get`, `ChainTable.remove`, `ChainTable.cleanup`: the operations
* `ChainTable.Valid`: every entry is in its bucket, and no key has two
* `TimedMap`, `TimedMap.step`: a map of states and times, and the calls on it
* `ChainTable.RefinesMap`: a sequence of calls on a table is one on a map

## Main results

* `ChainTable.get_update`: a lookup after an update, whatever the hash
* `ChainTable.mem_of_mem_update`, `ChainTable.mem_of_mem_remove`: where the entries come from
* `ChainTable.lookup_remove`, `ChainTable.lookup_cleanup`: the other operations on a valid table
* `TimedMap.run_eq_some_iff`: the map holds what was last written and not removed or expired since
* `ChainTable.refinesMap`: every sequence of calls on a table is one on a map
-/

/-- An entry of a chain: its key, and the state and time of its last update. -/
structure ChainEntry (κ σ : Type) where
  key : κ
  state : σ
  timestamp : Int

/-- A table of `n` chains. -/
abbrev ChainTable (n : ℕ) (κ σ : Type) := Fin n → List (ChainEntry κ σ)

namespace ChainTable

variable {n : ℕ} {κ σ : Type} [DecidableEq κ]

/-- The walk of an update along a chain: the entry of the key, if there is one, is changed in
place. -/
def setInChain (k : κ) (s : σ) (now : Int) : List (ChainEntry κ σ) → Option (List (ChainEntry κ σ))
  | [] => none
  | e :: es =>
    if e.key = k then some ({ e with state := s, timestamp := now } :: es)
    else (setInChain k s now es).map (e :: ·)

/-- Update the entry of a key, or put a new one at the head of its chain. -/
def update (hash : κ → Fin n) (t : ChainTable n κ σ) (k : κ) (s : σ) (now : Int) :
    ChainTable n κ σ :=
  Function.update t (hash k) ((setInChain k s now (t (hash k))).getD (⟨k, s, now⟩ :: t (hash k)))

/-- The state of a key. -/
def get (hash : κ → Fin n) (t : ChainTable n κ σ) (k : κ) : Option σ :=
  ((t (hash k)).find? (·.key = k)).map (·.state)

/-- Unlink the first entry of a key. -/
def remove (hash : κ → Fin n) (t : ChainTable n κ σ) (k : κ) : ChainTable n κ σ :=
  Function.update t (hash k) ((t (hash k)).eraseP (·.key = k))

/-- Unlink the entries whose last update is more than `expiration` before `now`. -/
def cleanup (t : ChainTable n κ σ) (now expiration : Int) : ChainTable n κ σ := fun i =>
  (t i).filter fun e => ¬ expiration < now - e.timestamp

/-- An entry of some chain. -/
def Mem (e : ChainEntry κ σ) (t : ChainTable n κ σ) : Prop := ∃ i, e ∈ t i

variable {hash : κ → Fin n} {t : ChainTable n κ σ} {k k' : κ} {s : σ} {now : Int}

/-- The walk changes what is found under its key, and nothing else. -/
theorem find?_setInChain {es es' : List (ChainEntry κ σ)} (h : setInChain k s now es = some es')
    (k' : κ) :
    es'.find? (·.key = k') = if k' = k then some ⟨k, s, now⟩ else es.find? (·.key = k') := by
  induction es generalizing es' with
  | nil => cases h
  | cons e es ih =>
    rw [setInChain] at h
    split at h
    · rename_i he
      -- the walk ends at this entry
      obtain rfl := Option.some.inj h
      by_cases hk : k' = k
      · simp [he, hk]
      · have he' : e.key ≠ k' := fun h' => hk (h'.symm.trans he)
        simp [he', hk]
    · rename_i he
      -- it goes on behind it
      obtain ⟨es₁, h₁, rfl⟩ := Option.map_eq_some_iff.mp h
      by_cases hk : e.key = k'
      · have hk' : k' ≠ k := fun h' => he (hk.trans h')
        simp [hk, hk']
      · simpa [List.find?_cons, hk] using ih h₁

/-- The entry that is found for a key. -/
def lookup (hash : κ → Fin n) (t : ChainTable n κ σ) (k : κ) : Option (ChainEntry κ σ) :=
  (t (hash k)).find? (·.key = k)

theorem lookup_update (hash : κ → Fin n) (t : ChainTable n κ σ) (k k' : κ) (s : σ) (now : Int) :
    lookup hash (update hash t k s now) k' =
      if k' = k then some ⟨k, s, now⟩ else lookup hash t k' := by
  unfold lookup update
  by_cases hb : hash k' = hash k
  -- the bucket of the update
  · rw [hb, Function.update_self]
    cases hset : setInChain k s now (t (hash k)) with
    | some es => exact find?_setInChain hset k'
    | none =>
      -- the key was not there: its entry is the new head
      by_cases hk : k' = k
      · simp [hk]
      · have hk' : k ≠ k' := fun h => hk h.symm
        simp [hk, hk']
  -- another bucket, and so another key
  · have hk : k' ≠ k := fun h => hb (congrArg hash h)
    rw [Function.update_of_ne hb, if_neg hk]

/-- **The table is a map**: a lookup after an update. -/
theorem get_update (hash : κ → Fin n) (t : ChainTable n κ σ) (k k' : κ) (s : σ) (now : Int) :
    get hash (update hash t k s now) k' = if k' = k then some s else get hash t k' := by
  have h := congrArg (Option.map (·.state)) (lookup_update hash t k k' s now)
  rw [apply_ite (Option.map _)] at h
  exact h

@[simp] theorem get_update_self : get hash (update hash t k s now) k = some s := by
  rw [get_update, if_pos rfl]

/-- A state that is found is the state of an entry. -/
theorem exists_mem_of_get (h : get hash t k = some s) :
    ∃ e : ChainEntry κ σ, Mem e t ∧ e.key = k ∧ e.state = s := by
  obtain ⟨e, he, rfl⟩ := Option.map_eq_some_iff.mp h
  exact ⟨e, ⟨hash k, List.mem_of_find?_eq_some he⟩, by simpa using List.find?_some he, rfl⟩

theorem mem_setInChain {es es' : List (ChainEntry κ σ)} (h : setInChain k s now es = some es')
    {e : ChainEntry κ σ} (he : e ∈ es') : e ∈ es ∨ (e.key = k ∧ e.state = s) := by
  induction es generalizing es' with
  | nil => cases h
  | cons e₀ es ih =>
    rw [setInChain] at h
    split at h
    · rename_i hk
      obtain rfl := Option.some.inj h
      rcases List.mem_cons.mp he with rfl | he
      · exact Or.inr ⟨hk, rfl⟩
      · exact Or.inl (List.mem_cons_of_mem _ he)
    · obtain ⟨es₁, h₁, rfl⟩ := Option.map_eq_some_iff.mp h
      rcases List.mem_cons.mp he with rfl | he
      · exact Or.inl List.mem_cons_self
      · exact (ih h₁ he).imp_left (List.mem_cons_of_mem _)

/-- An entry after an update was there before, or is the updated one. -/
theorem mem_of_mem_update {e : ChainEntry κ σ} (h : Mem e (update hash t k s now)) :
    Mem e t ∨ (e.key = k ∧ e.state = s) := by
  obtain ⟨i, hi⟩ := h
  unfold update at hi
  by_cases hb : i = hash k
  · subst hb
    rw [Function.update_self] at hi
    cases hset : setInChain k s now (t (hash k)) with
    | some es =>
      -- an entry changed in place
      rw [hset] at hi
      exact (mem_setInChain hset hi).imp_left fun h => ⟨_, h⟩
    | none =>
      -- a new entry at the head of the chain
      rw [hset] at hi
      rcases List.mem_cons.mp hi with rfl | hi
      · exact Or.inr ⟨rfl, rfl⟩
      · exact Or.inl ⟨_, hi⟩
  · rw [Function.update_of_ne hb] at hi
    exact Or.inl ⟨i, hi⟩

/-- An entry after a removal was there before. -/
theorem mem_of_mem_remove {e : ChainEntry κ σ} (h : Mem e (remove hash t k)) : Mem e t := by
  obtain ⟨i, hi⟩ := h
  unfold remove at hi
  by_cases hb : i = hash k
  · subst hb
    rw [Function.update_self] at hi
    exact ⟨_, List.mem_of_mem_eraseP hi⟩
  · rw [Function.update_of_ne hb] at hi
    exact ⟨i, hi⟩

/-! ## Valid tables -/

/-- Every entry stands in the bucket of its key, and no chain has two entries of a key. -/
structure Valid (hash : κ → Fin n) (t : ChainTable n κ σ) : Prop where
  placed : ∀ i, ∀ e ∈ t i, hash e.key = i
  nodup : ∀ i, ((t i).map (·.key)).Nodup

/-- The keys of all entries, bucket by bucket. -/
def keys (t : ChainTable n κ σ) : List κ := (List.finRange n).flatMap fun i => (t i).map (·.key)

omit [DecidableEq κ] in
theorem valid_empty (hash : κ → Fin n) : Valid hash (fun _ => [] : ChainTable n κ σ) := by
  refine ⟨?_, fun _ => List.nodup_nil⟩
  intro i e he
  cases he

namespace Valid

omit [DecidableEq κ] in
/-- No key has two entries in the whole table. -/
theorem nodup_keys (h : Valid hash t) : (keys t).Nodup := by
  refine List.nodup_flatMap.mpr ⟨fun i _ => h.nodup i, ?_⟩
  refine (List.nodup_finRange n).imp fun {i j} hij => ?_
  -- a key in two buckets would have two hashes
  intro k hi hj
  obtain ⟨e, he, rfl⟩ := List.mem_map.mp hi
  obtain ⟨e', he', hk⟩ := List.mem_map.mp hj
  apply hij
  rw [← h.placed i e he, ← h.placed j e' he', hk]

/-- The entries of a valid table are those that are found. -/
theorem mem_iff (h : Valid hash t) {e : ChainEntry κ σ} :
    Mem e t ↔ lookup hash t e.key = some e := by
  constructor
  · rintro ⟨i, he⟩
    obtain rfl := h.placed i e he
    -- an entry found for the key before `e` would be a second one
    obtain ⟨e', he'⟩ : ∃ e', lookup hash t e.key = some e' := by
      rw [← Option.isSome_iff_exists, lookup, List.find?_isSome]
      exact ⟨e, he, by simp⟩
    have hk : e'.key = e.key := by simpa using List.find?_some he'
    obtain rfl := List.inj_on_of_nodup_map (h.nodup _) (List.mem_of_find?_eq_some he') he hk
    exact he'
  · intro he
    exact ⟨_, List.mem_of_find?_eq_some he⟩

omit [DecidableEq κ] in
/-- A chain may be replaced by another one of the bucket whose keys are all different. -/
theorem set (h : Valid hash t) {i : Fin n} {es : List (ChainEntry κ σ)}
    (hp : ∀ e ∈ es, hash e.key = i) (hn : (es.map (·.key)).Nodup) :
    Valid hash (Function.update t i es) := by
  constructor
  · intro j
    by_cases hj : j = i
    · subst hj
      rw [Function.update_self]
      exact hp
    · rw [Function.update_of_ne hj]
      exact h.placed j
  · intro j
    by_cases hj : j = i
    · subst hj
      rw [Function.update_self]
      exact hn
    · rw [Function.update_of_ne hj]
      exact h.nodup j

end Valid

/-- The walk changes no key. -/
theorem map_key_setInChain {es es' : List (ChainEntry κ σ)} (h : setInChain k s now es = some es') :
    es'.map (·.key) = es.map (·.key) := by
  induction es generalizing es' with
  | nil => cases h
  | cons e es ih =>
    rw [setInChain] at h
    split at h
    · obtain rfl := Option.some.inj h
      rfl
    · obtain ⟨es₁, h₁, rfl⟩ := Option.map_eq_some_iff.mp h
      rw [List.map_cons, List.map_cons, ih h₁]

/-- A walk that finds no entry has passed every key. -/
theorem ne_key_of_setInChain_none {es : List (ChainEntry κ σ)}
    (h : setInChain k s now es = none) : k ∉ es.map (·.key) := by
  induction es with
  | nil => exact List.not_mem_nil
  | cons e es ih =>
    rw [setInChain] at h
    split at h
    · cases h
    · rename_i he
      rw [List.map_cons, List.mem_cons, not_or]
      exact ⟨fun hk => he hk.symm, ih (Option.map_eq_none_iff.mp h)⟩

theorem Valid.update (h : Valid hash t) (k : κ) (s : σ) (now : Int) :
    Valid hash (update hash t k s now) := by
  have hmem : ∀ e : ChainEntry κ σ, e ∈ t (hash k) → hash e.key = hash k := h.placed (hash k)
  cases hset : setInChain k s now (t (hash k)) with
  | some es =>
    -- the entry is changed in place, and the keys of the chain stay
    have hkeys := map_key_setInChain hset
    rw [ChainTable.update, hset]
    refine h.set (fun e he => ?_) (by rw [Option.getD_some, hkeys]; exact h.nodup _)
    have hk : e.key ∈ (t (hash k)).map (·.key) := by
      rw [← hkeys]
      exact List.mem_map_of_mem he
    obtain ⟨e', he', hk'⟩ := List.mem_map.mp hk
    rw [← hk']
    exact hmem e' he'
  | none =>
    -- the new head has a key that no entry behind it has
    rw [ChainTable.update, hset]
    refine h.set (fun e he => ?_) (List.nodup_cons.mpr ⟨ne_key_of_setInChain_none hset, h.nodup _⟩)
    rcases List.mem_cons.mp he with rfl | he
    · rfl
    · exact hmem e he

theorem Valid.remove (h : Valid hash t) (k : κ) : Valid hash (remove hash t k) := by
  refine h.set (fun e he => h.placed _ e (List.mem_of_mem_eraseP he)) ?_
  exact (h.nodup _).sublist ((List.eraseP_sublist).map _)

omit [DecidableEq κ] in
theorem Valid.cleanup (h : Valid hash t) (now expiration : Int) :
    Valid hash (cleanup t now expiration) := by
  refine ⟨fun i e he => h.placed i e (List.mem_of_mem_filter he), fun i => ?_⟩
  exact (h.nodup i).sublist (List.filter_sublist.map _)

/-- In a chain whose keys are all different, unlinking the first entry of a key unlinks all. -/
theorem find?_eraseP {es : List (ChainEntry κ σ)} (h : (es.map (·.key)).Nodup) (k k' : κ) :
    (es.eraseP (·.key = k)).find? (·.key = k') =
      if k' = k then none else es.find? (·.key = k') := by
  induction es with
  | nil => simp
  | cons e es ih =>
    rw [List.map_cons, List.nodup_cons] at h
    by_cases he : e.key = k
    -- the entry is unlinked, and no other one has its key
    · rw [List.eraseP_cons_of_pos (by simpa using he)]
      by_cases hk : k' = k
      · rw [if_pos hk, List.find?_eq_none]
        intro e' he' hk'
        apply h.1
        rw [he, ← hk]
        exact List.mem_map.mpr ⟨e', he', by simpa using hk'⟩
      · have hk' : e.key ≠ k' := fun h' => hk (h'.symm.trans he)
        simp [hk, hk']
    · rw [List.eraseP_cons_of_neg (by simpa using he), List.find?_cons, List.find?_cons, ih h.2]
      by_cases hk : e.key = k'
      · have hk' : k' ≠ k := fun h' => he (hk.trans h')
        simp [hk, hk']
      · simp [hk]

theorem lookup_remove (h : Valid hash t) (k k' : κ) :
    lookup hash (remove hash t k) k' = if k' = k then none else lookup hash t k' := by
  unfold lookup remove
  by_cases hb : hash k' = hash k
  · rw [hb, Function.update_self]
    exact find?_eraseP (h.nodup _) k k'
  · have hk : k' ≠ k := fun h => hb (congrArg hash h)
    rw [Function.update_of_ne hb, if_neg hk]

theorem get_remove (h : Valid hash t) (k k' : κ) :
    get hash (remove hash t k) k' = if k' = k then none else get hash t k' := by
  have h' := congrArg (Option.map (·.state)) (lookup_remove h k k')
  rw [apply_ite (Option.map _)] at h'
  exact h'

/-- What is kept of a chain whose keys are all different is found as before. -/
theorem find?_filter {es : List (ChainEntry κ σ)} (h : (es.map (·.key)).Nodup)
    (p : ChainEntry κ σ → Bool) (k : κ) :
    (es.filter p).find? (·.key = k) = (es.find? (·.key = k)).filter p := by
  induction es with
  | nil => rfl
  | cons e es ih =>
    rw [List.map_cons, List.nodup_cons] at h
    by_cases hk : e.key = k
    · cases hp : p e with
      | true => simp [hp, hk, Option.filter_some]
      | false =>
        -- behind the entry that is dropped there is no other one of its key
        rw [List.filter_cons_of_neg (by simp [hp]), List.find?_cons_of_pos (by simpa using hk),
          Option.filter_some_neg (by simp [hp]), List.find?_eq_none]
        intro e' he' hk'
        apply h.1
        rw [hk]
        exact List.mem_map.mpr ⟨e', List.mem_of_mem_filter he', by simpa using hk'⟩
    · rw [List.find?_cons_of_neg (by simpa using hk), ← ih h.2]
      cases hp : p e with
      | true => rw [List.filter_cons_of_pos hp, List.find?_cons_of_neg (by simpa using hk)]
      | false => rw [List.filter_cons_of_neg (by simp [hp])]

theorem lookup_cleanup (h : Valid hash t) (now expiration : Int) (k : κ) :
    lookup hash (cleanup t now expiration) k =
      (lookup hash t k).filter fun e => ¬ expiration < now - e.timestamp :=
  find?_filter (h.nodup _) _ k

end ChainTable

/-! ## The map -/

/-- A map from keys to states, each with the time of its last update. -/
abbrev TimedMap (κ σ : Type) := κ → Option (σ × Int)

/-- A call: write a state at a time, look a key up, remove a key, or drop what was last written
more than `expiration` before `now`. -/
inductive TableCall (κ σ : Type)
  | update (k : κ) (s : σ) (now : Int)
  | get (k : κ)
  | remove (k : κ)
  | cleanup (now expiration : Int)

/-- The call leaves what was written for the key at `time`. -/
def TableCall.Keeps {κ σ : Type} (k : κ) (time : Int) : TableCall κ σ → Prop
  | .update k' _ _ => k' ≠ k
  | .get _ => True
  | .remove k' => k' ≠ k
  | .cleanup now expiration => now - time ≤ expiration

/-- The state was written for the key at `time`, and no call since has overwritten, removed or
expired it. -/
def LastWritten {κ σ : Type} (calls : List (TableCall κ σ)) (k : κ) (s : σ) (time : Int) : Prop :=
  ∃ xs ys, calls = xs ++ .update k s time :: ys ∧ ∀ c ∈ ys, c.Keeps k time

namespace TimedMap

open EventLoop

variable {κ σ α : Type} [DecidableEq κ] {k : κ} {s : σ} {time : Int}

/-- A call on a map. A lookup answers what `answer` makes of the state. -/
def step (answer : Option σ → α) (m : TimedMap κ σ) : TableCall κ σ → Result (TimedMap κ σ) α
  | .update k s now => .ok (Function.update m k (some (s, now))) []
  | .get k => .ok m [answer ((m k).map Prod.fst)]
  | .remove k => .ok (Function.update m k none) []
  | .cleanup now expiration =>
    .ok (fun k => (m k).filter fun v => ¬ expiration < now - v.2) []

/-- The map that every sequence of calls starts from. -/
def empty : TimedMap κ σ := fun _ => none

theorem running_step (answer : Option σ → α) (m : TimedMap κ σ) (c : TableCall κ σ) :
    (step answer m c).running := by
  cases c <;> rfl

/-- What a map holds after a call: what the call writes, or what it keeps. -/
theorem step_eq_some_iff (answer : Option σ → α) (m : TimedMap κ σ) (c : TableCall κ σ) :
    (step answer m c).state k = some (s, time) ↔
      c = .update k s time ∨ (c.Keeps k time ∧ m k = some (s, time)) := by
  cases c with
  | update k' s' now =>
    by_cases hk : k = k'
    · subst hk
      simp [step, Result.ok, TableCall.Keeps]
    · simp [step, Result.ok, TableCall.Keeps, hk, Ne.symm hk]
  | get k' => simp [step, Result.ok, TableCall.Keeps]
  | remove k' =>
    by_cases hk : k = k'
    · subst hk
      simp [step, Result.ok, TableCall.Keeps]
    · simp [step, Result.ok, TableCall.Keeps, hk, Ne.symm hk]
  | cleanup now expiration =>
    simp only [step, Result.ok, TableCall.Keeps, Option.filter_eq_some_iff, reduceCtorEq, false_or,
      decide_eq_true_eq, not_lt]
    exact and_comm

omit [DecidableEq κ] in
theorem lastWritten_snoc (calls : List (TableCall κ σ)) (c : TableCall κ σ) :
    LastWritten (calls ++ [c]) k s time ↔
      c = .update k s time ∨ (c.Keeps k time ∧ LastWritten calls k s time) := by
  constructor
  · rintro ⟨xs, ys, he, hys⟩
    rcases List.eq_nil_or_concat ys with rfl | ⟨ys, y, rfl⟩
    -- the write is the last call
    · exact Or.inl (List.append_singleton_inj.mp he).2
    · rw [List.concat_eq_append, ← List.cons_append, ← List.append_assoc] at he
      obtain ⟨rfl, rfl⟩ := List.append_singleton_inj.mp he
      rw [List.concat_eq_append] at hys
      exact Or.inr ⟨hys c (by simp), xs, ys, rfl, fun y hy => hys y (by simp [hy])⟩
  · rintro (rfl | ⟨hc, xs, ys, rfl, hys⟩)
    · exact ⟨calls, [], rfl, fun c hc => by cases hc⟩
    · refine ⟨xs, ys ++ [c], by simp, fun y hy => ?_⟩
      rcases List.mem_append.mp hy with hy | hy
      · exact hys y hy
      · exact List.mem_singleton.mp hy ▸ hc

/-- **The map holds what was last written** and not removed or expired since. -/
theorem run_eq_some_iff (answer : Option σ → α) (calls : List (TableCall κ σ)) :
    (run (step answer) empty calls).state k = some (s, time) ↔ LastWritten calls k s time := by
  induction calls using List.reverseRecOn with
  | nil => simp [LastWritten, empty, Result.ok]
  | append_singleton calls c ih =>
    rw [run_snoc _ _ _ (running_run (running_step answer) _ _), step_eq_some_iff, ih,
      lastWritten_snoc]

end TimedMap

/-! ## The table as a map -/

namespace ChainTable

open EventLoop

variable {n : ℕ} {κ σ α : Type} [DecidableEq κ] {hash : κ → Fin n} {t : ChainTable n κ σ}

/-- The map that a table stands for. -/
def toMap (hash : κ → Fin n) (t : ChainTable n κ σ) : TimedMap κ σ := fun k =>
  (lookup hash t k).map fun e => (e.state, e.timestamp)

/-- A call on a table. -/
def step (hash : κ → Fin n) (answer : Option σ → α) (t : ChainTable n κ σ) :
    TableCall κ σ → Result (ChainTable n κ σ) α
  | .update k s now => .ok (update hash t k s now) []
  | .get k => .ok t [answer (get hash t k)]
  | .remove k => .ok (remove hash t k) []
  | .cleanup now expiration => .ok (cleanup t now expiration) []

/-- **A sequence of calls on a table is one on a map**: every entry is in the bucket of its key and
no key has two; the answers are those of the map, which holds what was last written; an update and
a removal leave the entries of other keys, and a cleanup removes the expired ones. -/
structure RefinesMap (hash : κ → Fin n) (answer : Option σ → α)
    (step : ChainTable n κ σ → TableCall κ σ → Result (ChainTable n κ σ) α)
    (init : ChainTable n κ σ) (calls : List (TableCall κ σ)) : Prop where
  placed : ∀ i, ∀ e ∈ (run step init calls).state i, hash e.key = i
  unique : (keys (run step init calls).state).Nodup
  answers : (run step init calls).outputs =
    (run (TimedMap.step answer) TimedMap.empty calls).outputs
  entries : toMap hash (run step init calls).state =
    (run (TimedMap.step answer) TimedMap.empty calls).state
  last : ∀ k s time, toMap hash (run step init calls).state k = some (s, time) ↔
    LastWritten calls k s time
  update_other : ∀ k s now e, e.key ≠ k →
    (Mem e (step (run step init calls).state (.update k s now)).state ↔
      Mem e (run step init calls).state)
  remove_other : ∀ k e, e.key ≠ k → (Mem e (step (run step init calls).state (.remove k)).state ↔
    Mem e (run step init calls).state)
  cleaned : ∀ now expiration e,
    Mem e (step (run step init calls).state (.cleanup now expiration)).state ↔
      Mem e (run step init calls).state ∧ ¬ now - e.timestamp > expiration

theorem Valid.step (h : Valid hash t) (answer : Option σ → α) (c : TableCall κ σ) :
    Valid hash (step hash answer t c).state := by
  cases c with
  | update k s now => exact h.update k s now
  | get k => exact h
  | remove k => exact h.remove k
  | cleanup now expiration => exact h.cleanup now expiration

/-- Each call on a valid table is the call on its map. -/
theorem toMap_step (h : Valid hash t) (answer : Option σ → α) (c : TableCall κ σ) :
    toMap hash (step hash answer t c).state = (TimedMap.step answer (toMap hash t) c).state ∧
      (step hash answer t c).outputs = (TimedMap.step answer (toMap hash t) c).outputs := by
  cases c with
  | update k s now =>
    refine ⟨funext fun k' => ?_, rfl⟩
    simp only [toMap, ChainTable.step, TimedMap.step, Result.ok, lookup_update,
      Function.update_apply]
    split_ifs <;> rfl
  | get k =>
    refine ⟨rfl, ?_⟩
    simp only [ChainTable.step, TimedMap.step, Result.ok, toMap, Option.map_map]
    rfl
  | remove k =>
    refine ⟨funext fun k' => ?_, rfl⟩
    simp only [toMap, ChainTable.step, TimedMap.step, Result.ok, lookup_remove h,
      Function.update_apply]
    split_ifs <;> rfl
  | cleanup now expiration =>
    refine ⟨funext fun k => ?_, rfl⟩
    simp only [toMap, ChainTable.step, TimedMap.step, Result.ok, lookup_cleanup h]
    cases lookup hash t k with
    | none => rfl
    | some e =>
      simp only [Option.map_some, Option.filter_some]
      split_ifs <;> rfl

/-- **Every sequence of calls on a table is one on a map.** -/
theorem refinesMap (hash : κ → Fin n) (answer : Option σ → α) (calls : List (TableCall κ σ)) :
    RefinesMap hash answer (step hash answer) (fun _ => []) calls := by
  have hstep : ∀ (t : ChainTable n κ σ) (m : TimedMap κ σ) (c : TableCall κ σ), True →
      (Valid hash t ∧ toMap hash t = m) →
      (Valid hash (step hash answer t c).state ∧
        toMap hash (step hash answer t c).state = (TimedMap.step answer m c).state) ∧
      (step hash answer t c).outputs = (TimedMap.step answer m c).outputs ∧
      (step hash answer t c).running = (TimedMap.step answer m c).running := by
    rintro t m c - ⟨hv, rfl⟩
    obtain ⟨hm, ho⟩ := toMap_step hv answer c
    exact ⟨⟨hv.step answer c, hm⟩, ho, by cases c <;> rfl⟩
  obtain ⟨⟨hv, hm⟩, ho, -⟩ := run_simulation (R := fun t m => Valid hash t ∧ toMap hash t = m)
    hstep (fun _ (_ : _ ∈ calls) => trivial) ⟨valid_empty hash, (rfl : _ = TimedMap.empty)⟩
  constructor
  case placed => exact hv.placed
  case unique => exact hv.nodup_keys
  case answers => exact ho
  case entries => exact hm
  case last =>
    intro k s time
    rw [hm]
    exact TimedMap.run_eq_some_iff answer calls
  case update_other =>
    intro k s now e he
    rw [(hv.step answer _).mem_iff, hv.mem_iff]
    simp only [ChainTable.step, Result.ok, lookup_update, if_neg he]
  case remove_other =>
    intro k e he
    rw [(hv.step answer _).mem_iff, hv.mem_iff]
    simp only [ChainTable.step, Result.ok, lookup_remove hv, if_neg he]
  case cleaned =>
    intro now expiration e
    rw [(hv.step answer _).mem_iff, hv.mem_iff]
    simp [ChainTable.step, Result.ok, lookup_cleanup hv, Option.filter_eq_some_iff]

end ChainTable
