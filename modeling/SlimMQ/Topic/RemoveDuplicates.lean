import SlimMQ.Library.EventLoop
import SlimMQ.Library.LinkedList
import SlimMQ.Topic.Matching

/-!
# Removing duplicates in place

The loop of `remove_duplicates` on the nodes in memory: `curr` walks along the list with `prev` one
node behind, a runner looks from the head for the address of `curr`, and a duplicate is unlinked and
freed while the walk goes on behind it. The nodes up to `prev` are those that stay, and the nodes
from `curr` on are as they were: with that, the loop does what `removeDuplicates` does to the list
of addresses, and leaves the first node of each address.

## Main definitions

* `SubscriberStore`: a `SubscriberList` in memory
* `runnerFinds`, `removeDuplicatesLoop`: the two loops, which may take `fuel` turns
* `firstNodes`: the first node of each address

## Main results

* `removeDuplicates_eq`: the first occurrence of each address, and their number
* `removeDuplicatesLoop_spec`: the loop ends, and leaves the first node of each address
* `removeDuplicatesInPlace_of_nodup`: it leaves a list without duplicates as it is
* `valid_of_matchRecursive`: the matcher builds such lists only
* `removeDuplicatesInPlace_keeps_first`: what the function does to every list
-/

namespace SlimMQ

open Buffer LinkedList

/-! ## The function in memory -/

/-- A `SubscriberList` in memory: the nodes, and the fields of the list. -/
structure SubscriberStore where
  heap : Heap SockaddrIn
  head : Option ℕ
  count : ℕ

/-- The inner loop of `remove_duplicates`: the runner looks for the address up to the node `curr`.
There is no result where it would leave the list. -/
def runnerFinds (heap : Heap SockaddrIn) (curr : ℕ) (addr : SockaddrIn) :
    ℕ → Option ℕ → Option Bool
  | 0, _ => none
  | fuel + 1, runner =>
    if runner = some curr then some false
    else do
      let node ← heap (← runner)
      if node.value = addr then some true else runnerFinds heap curr addr fuel node.next

/-- A duplicate `curr` is taken out of the list behind `prev`, or at its head, and freed. -/
def SubscriberStore.unlink (s : SubscriberStore) (prev : Option ℕ) (curr : ℕ)
    (next : Option ℕ) : SubscriberStore :=
  match prev with
  | some p => { s with heap := (s.heap.setNext p next).free curr, count := s.count - 1 }
  | none => { heap := s.heap.free curr, head := next, count := s.count - 1 }

/-- The loop of `remove_duplicates` from `prev` and `curr` on. -/
def removeDuplicatesLoop : ℕ → SubscriberStore → Option ℕ → Option ℕ → Option SubscriberStore
  | 0, _, _, _ => none
  | _ + 1, s, _, none => some s
  | fuel + 1, s, prev, some curr => do
    let node ← s.heap curr
    if ← runnerFinds s.heap curr node.value fuel s.head then
      removeDuplicatesLoop fuel (s.unlink prev curr node.next) prev node.next
    else removeDuplicatesLoop fuel s (some curr) node.next

/-- `remove_duplicates`, on the nodes in memory. -/
def removeDuplicatesInPlace (fuel : ℕ) (s : SubscriberStore) : Option SubscriberStore :=
  removeDuplicatesLoop fuel s none s.head

/-! ## First occurrences -/

/-- **The first node of each address**, in order. -/
def firstNodes (l : List (ℕ × SockaddrIn)) : List (ℕ × SockaddrIn) :=
  l.eraseDupsBy fun x y => x.2 == y.2

theorem firstNodes_cons (x : ℕ × SockaddrIn) (l : List (ℕ × SockaddrIn)) :
    firstNodes (x :: l) = x :: firstNodes (l.filter fun y => y.2 ≠ x.2) := by
  rw [firstNodes, List.eraseDupsBy_cons, firstNodes]
  congr 3
  funext y
  simp

/-- The addresses of the first nodes are the first occurrences of the addresses. -/
theorem map_snd_firstNodes (l : List (ℕ × SockaddrIn)) :
    (firstNodes l).map Prod.snd = (l.map Prod.snd).eraseDups := by
  match l with
  | [] => rfl
  | x :: l =>
    have hfilter : (l.map Prod.snd).filter (fun b => !b == x.2) =
        (l.filter fun y => y.2 ≠ x.2).map Prod.snd := by
      rw [List.filter_map]
      congr 2
      funext y
      rw [Bool.eq_iff_iff]
      simp
    rw [firstNodes_cons, List.map_cons, List.map_cons, List.eraseDups_cons, hfilter,
      map_snd_firstNodes]
termination_by l.length
decreasing_by exact Nat.lt_succ_of_le (List.length_filter_le _ _)

theorem firstNodes_sublist (l : List (ℕ × SockaddrIn)) : (firstNodes l).Sublist l := by
  match l with
  | [] => exact List.Sublist.refl _
  | x :: l =>
    rw [firstNodes_cons]
    apply List.Sublist.cons_cons
    exact (firstNodes_sublist _).trans List.filter_sublist
termination_by l.length
decreasing_by exact Nat.lt_succ_of_le (List.length_filter_le _ _)

/-- One more node is kept when its address is new among those that are. -/
theorem firstNodes_filter_cons {kept : List (ℕ × SockaddrIn)} {x : ℕ × SockaddrIn}
    (l : List (ℕ × SockaddrIn)) (hx : x.2 ∉ kept.map Prod.snd) :
    kept ++ firstNodes ((x :: l).filter fun y => y.2 ∉ kept.map Prod.snd) =
      (kept ++ [x]) ++ firstNodes (l.filter fun y => y.2 ∉ (kept ++ [x]).map Prod.snd) := by
  rw [List.filter_cons_of_pos (by simpa using hx), firstNodes_cons, List.filter_filter]
  have hp : ∀ y : ℕ × SockaddrIn, (decide (y.2 ≠ x.2) && decide (y.2 ∉ kept.map Prod.snd)) =
      decide (y.2 ∉ (kept ++ [x]).map Prod.snd) := by
    intro y
    rw [Bool.eq_iff_iff]
    simp only [List.map_append, List.mem_append, List.map_cons, List.map_nil, List.mem_singleton,
      Bool.and_eq_true, decide_eq_true_eq]
    tauto
  simp only [hp, List.append_assoc, List.singleton_append]

/-- The loop on the list of addresses keeps those that are new, in order. -/
theorem entries_removeDuplicatesFrom (kept next : List SockaddrIn) (count : ℕ) :
    (removeDuplicatesFrom kept next count).entries =
      kept ++ (next.filter (· ∉ kept)).eraseDups := by
  induction next generalizing kept count with
  | nil => simp [removeDuplicatesFrom]
  | cons a next ih =>
    by_cases ha : a ∈ kept
    -- a duplicate is passed over
    · rw [removeDuplicatesFrom, if_pos ha, ih, List.filter_cons_of_neg (by simpa using ha)]
    -- another address is kept, and then looked for in its turn
    · rw [removeDuplicatesFrom, if_neg ha, ih, List.filter_cons_of_pos (by simpa using ha),
        List.eraseDups_cons, List.filter_filter, List.append_assoc, List.singleton_append]
      congr 4
      funext b
      rw [Bool.eq_iff_iff]
      simp only [List.mem_append, List.mem_singleton, Bool.and_eq_true, Bool.not_eq_true',
        beq_eq_false_iff_ne, decide_eq_true_eq]
      tauto

theorem count_removeDuplicatesFrom (kept next : List SockaddrIn) :
    (removeDuplicatesFrom kept next (kept.length + next.length)).count =
      (removeDuplicatesFrom kept next (kept.length + next.length)).entries.length := by
  induction next generalizing kept with
  | nil => rfl
  | cons a next ih =>
    rw [removeDuplicatesFrom, List.length_cons]
    split
    · exact ih kept
    · have hlen : kept.length + (next.length + 1) = (kept ++ [a]).length + next.length := by
        rw [List.length_append, List.length_singleton]
        omega
      rw [hlen]
      exact ih (kept ++ [a])

theorem nodup_removeDuplicatesFrom {kept : List SockaddrIn} (h : kept.Nodup)
    (next : List SockaddrIn) (count : ℕ) :
    (removeDuplicatesFrom kept next count).entries.Nodup := by
  induction next generalizing kept count with
  | nil => exact h
  | cons a next ih =>
    rw [removeDuplicatesFrom]
    split
    · exact ih h _
    · rename_i ha
      exact ih (List.nodup_append.mpr ⟨h, List.nodup_singleton a, by grind⟩) _

/-- **The list of addresses after `remove_duplicates`**: the first occurrence of each, and their
number. -/
theorem removeDuplicates_eq (entries : List SockaddrIn) :
    removeDuplicates ⟨entries, entries.length⟩ =
      ⟨entries.eraseDups, entries.eraseDups.length⟩ := by
  have hentries : (removeDuplicatesFrom [] entries entries.length).entries = entries.eraseDups := by
    simpa using entries_removeDuplicatesFrom [] entries entries.length
  have hcount := count_removeDuplicatesFrom [] entries
  rw [List.length_nil, Nat.zero_add, hentries] at hcount
  exact SubscriberList.ext hentries hcount

theorem nodup_eraseDups (entries : List SockaddrIn) : entries.eraseDups.Nodup := by
  have h := nodup_removeDuplicatesFrom List.nodup_nil entries entries.length
  have heq : removeDuplicatesFrom [] entries entries.length = _ := removeDuplicates_eq entries
  rwa [heq] at h

/-! ## The loop -/

/-- The runner finds the address exactly when a node before `curr` has it. -/
theorem runnerFinds_eq {heap : Heap SockaddrIn} {curr : ℕ} {p : Option ℕ}
    {kept : List (ℕ × SockaddrIn)} {fuel : ℕ} (hl : Links heap p kept (some curr))
    (hne : ∀ x ∈ kept, x.1 ≠ curr) (hf : kept.length < fuel) (addr : SockaddrIn) :
    runnerFinds heap curr addr fuel p = some (decide (addr ∈ kept.map Prod.snd)) := by
  induction kept generalizing p fuel with
  | nil =>
    obtain rfl := links_nil.mp hl
    obtain ⟨f, rfl⟩ := Nat.exists_eq_add_of_lt hf
    simp [runnerFinds]
  | cons x kept ih =>
    obtain ⟨rfl, next, hx, hl⟩ := hl
    cases fuel with
    | zero => cases hf
    | succ fuel =>
      have hcurr : some x.1 ≠ some curr := fun h => hne x List.mem_cons_self (Option.some.inj h)
      have ih := ih hl (fun y hy => hne y (List.mem_cons_of_mem x hy)) (Nat.lt_of_succ_lt_succ hf)
      rw [runnerFinds, if_neg hcurr]
      simp only [Option.bind_eq_bind, Option.bind_some, hx, ih, List.map_cons, List.mem_cons]
      by_cases ha : x.2 = addr
      · simp [ha]
      · rw [if_neg ha]
        simp [Ne.symm ha]

/-- **The invariant of the loop**: the nodes `kept` lead from the head to `curr`, with `prev` the
last of them, the nodes `rest` lead from `curr` to the end, and the count is that of both. -/
structure Scanning (s : SubscriberStore) (prev curr : Option ℕ)
    (kept rest : List (ℕ × SockaddrIn)) : Prop where
  before : Links s.heap s.head kept curr
  after : Links s.heap curr rest none
  prev_eq : prev = kept.getLast?.map Prod.fst
  count_eq : s.count = kept.length + rest.length

namespace Scanning

variable {s : SubscriberStore} {prev curr next : Option ℕ} {kept rest : List (ℕ × SockaddrIn)}
  {x : ℕ × SockaddrIn}

/-- No node stands at two places of the list. -/
theorem nodup (h : Scanning s prev curr kept rest) : ((kept ++ rest).map Prod.fst).Nodup :=
  (links_append.mpr ⟨curr, h.before, h.after⟩).nodup

/-- The nodes before the first one of the rest are others. -/
theorem ne_of_mem_kept (h : Scanning s prev curr kept (x :: rest)) : ∀ y ∈ kept, y.1 ≠ x.1 := by
  intro y hy heq
  have hnodup := h.nodup
  rw [List.map_append, List.map_cons] at hnodup
  apply List.disjoint_of_nodup_append hnodup (List.mem_map_of_mem hy)
  rw [heq]
  exact List.mem_cons_self

/-- A node that is no duplicate is kept. -/
theorem keep (h : Scanning s prev curr kept (x :: rest)) (hx : s.heap x.1 = some ⟨x.2, next⟩) :
    Scanning s (some x.1) next (kept ++ [x]) rest := by
  obtain ⟨rfl, next', hx', hrest⟩ := h.after
  rw [hx] at hx'
  obtain ⟨-, rfl⟩ := Node.mk.inj (Option.some.inj hx')
  refine ⟨?_, hrest, by simp, ?_⟩
  · exact links_append.mpr ⟨some x.1, h.before, rfl, next, hx, rfl⟩
  · rw [h.count_eq, List.length_append, List.length_cons, List.length_singleton]
    omega

/-- A duplicate is unlinked, and the other nodes stay. -/
theorem unlink (h : Scanning s prev curr kept (x :: rest)) (hx : s.heap x.1 = some ⟨x.2, next⟩) :
    Scanning (s.unlink prev x.1 next) prev next kept rest := by
  have hne := h.ne_of_mem_kept
  have hnodup := h.nodup
  obtain ⟨rfl, next', hx', hrest⟩ := h.after
  rw [hx] at hx'
  obtain ⟨-, rfl⟩ := Node.mk.inj (Option.some.inj hx')
  have hcount : s.count - 1 = kept.length + rest.length := by
    rw [h.count_eq, List.length_cons]
    omega
  -- neither `curr` nor a node that is kept stands in the rest
  have hdisj : ∀ y ∈ rest, y.1 ≠ x.1 ∧ ∀ z ∈ kept, y.1 ≠ z.1 := by
    intro y hy
    rw [List.map_append, List.map_cons, List.nodup_append, List.nodup_cons] at hnodup
    obtain ⟨-, ⟨hxrest, -⟩, hkept⟩ := hnodup
    constructor
    · intro heq
      apply hxrest
      rw [← heq]
      exact List.mem_map_of_mem hy
    · intro z hz heq
      apply hkept z.1 (List.mem_map_of_mem hz) y.1 _ heq.symm
      exact List.mem_cons_of_mem _ (List.mem_map_of_mem hy)
  rcases List.eq_nil_or_concat' kept with rfl | ⟨kept', y, rfl⟩
  -- at the head of the list
  · obtain rfl : prev = none := h.prev_eq
    exact ⟨rfl, hrest.free fun y hy => (hdisj y hy).1, rfl, hcount⟩
  -- behind the last node that is kept
  · obtain rfl : prev = some y.1 := by simpa using h.prev_eq
    have hlast : ∀ z ∈ kept', z.1 ≠ y.1 := by
      intro z hz heq
      have hkept := (links_append.mpr ⟨_, h.before, h.after⟩).nodup
      simp only [List.map_append, List.map_cons, List.map_nil, List.append_assoc] at hkept
      apply List.disjoint_of_nodup_append hkept (List.mem_map_of_mem hz)
      rw [heq]
      exact List.mem_cons_self
    refine ⟨?_, ?_, by simp, hcount⟩
    · exact (h.before.setNext hlast next).free hne
    · apply Links.free _ fun z hz => (hdisj z hz).1
      exact hrest.setNext_of_ne (fun z hz => (hdisj z hz).2 y (by simp)) next

end Scanning

/-- **The loop ends, and leaves the first node of each address** that is not among those kept
before. -/
theorem removeDuplicatesLoop_spec {s : SubscriberStore} {prev curr : Option ℕ}
    {kept rest : List (ℕ × SockaddrIn)} {fuel : ℕ} (h : Scanning s prev curr kept rest)
    (hf : kept.length + 2 * rest.length < fuel) :
    ∃ s', removeDuplicatesLoop fuel s prev curr = some s' ∧
      Links s'.heap s'.head
        (kept ++ firstNodes (rest.filter fun x => x.2 ∉ kept.map Prod.snd)) none ∧
      s'.count = (kept ++ firstNodes (rest.filter fun x => x.2 ∉ kept.map Prod.snd)).length := by
  induction rest generalizing s prev curr kept fuel with
  | nil =>
    obtain rfl := links_nil.mp h.after
    obtain ⟨f, rfl⟩ := Nat.exists_eq_add_of_lt hf
    refine ⟨s, rfl, ?_, ?_⟩
    · simpa [firstNodes] using h.before
    · simpa [firstNodes] using h.count_eq
  | cons x rest ih =>
    obtain ⟨rfl, next, hx, -⟩ := h.after
    cases fuel with
    | zero => cases hf
    | succ fuel =>
      rw [List.length_cons] at hf
      have hrun := runnerFinds_eq h.before h.ne_of_mem_kept (show kept.length < fuel by omega) x.2
      simp only [removeDuplicatesLoop, hx, Option.bind_eq_bind, Option.bind_some, hrun]
      by_cases hmem : x.2 ∈ kept.map Prod.snd
      -- a duplicate is unlinked, and is not among the first nodes
      · rw [List.filter_cons_of_neg (by simpa using hmem), if_pos (by simpa using hmem)]
        exact ih (h.unlink hx) (by omega)
      -- another node is kept
      · rw [firstNodes_filter_cons rest hmem, if_neg (by simpa using hmem)]
        apply ih (h.keep hx)
        rw [List.length_append, List.length_singleton]
        omega

/-- **A list without duplicates is left as it is**, down to its nodes. -/
theorem removeDuplicatesLoop_of_nodup {s : SubscriberStore} {prev curr : Option ℕ}
    {kept rest : List (ℕ × SockaddrIn)} {fuel : ℕ} (h : Scanning s prev curr kept rest)
    (hn : ((kept ++ rest).map Prod.snd).Nodup) (hf : kept.length + 2 * rest.length < fuel) :
    removeDuplicatesLoop fuel s prev curr = some s := by
  induction rest generalizing prev curr kept fuel with
  | nil =>
    obtain rfl := links_nil.mp h.after
    obtain ⟨f, rfl⟩ := Nat.exists_eq_add_of_lt hf
    rfl
  | cons x rest ih =>
    obtain ⟨rfl, next, hx, -⟩ := h.after
    cases fuel with
    | zero => cases hf
    | succ fuel =>
      rw [List.length_cons] at hf
      have hrun := runnerFinds_eq h.before h.ne_of_mem_kept (show kept.length < fuel by omega) x.2
      have hmem : x.2 ∉ kept.map Prod.snd := by
        intro hmem
        rw [List.map_append, List.map_cons] at hn
        exact List.disjoint_of_nodup_append hn hmem List.mem_cons_self
      simp only [removeDuplicatesLoop, hx, Option.bind_eq_bind, Option.bind_some, hrun]
      rw [if_neg (by simpa using hmem)]
      apply ih (h.keep hx)
      · rwa [List.append_assoc, List.singleton_append]
      · rw [List.length_append, List.length_singleton]
        omega

/-! ## Every list -/

theorem scanning_head {s : SubscriberStore} {l : List (ℕ × SockaddrIn)}
    (h : Links s.heap s.head l none) (hc : s.count = l.length) : Scanning s none s.head [] l :=
  ⟨rfl, h, rfl, by simpa using hc⟩

theorem removeDuplicatesInPlace_of_nodup {s : SubscriberStore} {l : List (ℕ × SockaddrIn)}
    {fuel : ℕ} (h : Links s.heap s.head l none) (hc : s.count = l.length)
    (hn : (l.map Prod.snd).Nodup) (hf : 2 * l.length < fuel) :
    removeDuplicatesInPlace fuel s = some s :=
  removeDuplicatesLoop_of_nodup (scanning_head h hc) hn (by simpa using hf)

/-- The matcher builds lists without duplicates, whatever the segments. -/
theorem valid_of_matchRecursive {segments : List (Option CString)} {node : TopicNode}
    {r r' : SubscriberList} (h : matchRecursive segments node r = some r') (hr : r.Valid) :
    r'.Valid := by
  induction segments generalizing node r r' with
  | nil =>
    obtain rfl := Option.some.inj h
    exact (collectSubscribers_extends node.subscribers r).valid hr
  | cons segment segments ih =>
    rw [matchRecursive] at h
    refine EventLoop.execute_induction (P := SubscriberList.Valid) h ?_ ?_
    · split
      · exact (collectSubscribers_extends node.subscribers r).valid hr
      · exact hr
    -- a child adds to the list, or is passed over
    · intro r₁ child r₂ h₁ hr₁
      obtain ⟨matched, -, h₁⟩ := Option.bind_eq_some_iff.mp h₁
      split at h₁
      · exact ih h₁ hr₁
      · obtain rfl := Option.some.inj h₁
        exact hr₁

/-- **`remove_duplicates` keeps first occurrences**: on every list in memory with its length in
`count`, it ends, and leaves the first node of each address in the order they had, with their number
in `count`, which is what the list of addresses becomes. A second time it changes nothing, nor does
it on a list that the matcher has built. -/
theorem removeDuplicatesInPlace_keeps_first (s : SubscriberStore) (l : List (ℕ × SockaddrIn))
    (h : Links s.heap s.head l none) (hc : s.count = l.length) (fuel : ℕ)
    (hf : 2 * l.length < fuel) :
    ∃ s', removeDuplicatesInPlace fuel s = some s' ∧
      Links s'.heap s'.head (firstNodes l) none ∧ s'.count = (firstNodes l).length ∧
      (firstNodes l).map Prod.snd = (l.map Prod.snd).eraseDups ∧
      removeDuplicates ⟨l.map Prod.snd, s.count⟩ = ⟨(firstNodes l).map Prod.snd, s'.count⟩ ∧
      removeDuplicatesInPlace fuel s' = some s' ∧
      ∀ segments node r, matchRecursive segments node ⟨[], 0⟩ = some r →
        r.entries = l.map Prod.snd → s' = s := by
  obtain ⟨s', hs', hl', hc'⟩ := removeDuplicatesLoop_spec (scanning_head h hc) (by simpa using hf)
  simp only [List.map_nil, List.not_mem_nil, not_false_eq_true, decide_true, List.filter_true,
    List.nil_append] at hl' hc'
  have hmap := map_snd_firstNodes l
  refine ⟨s', hs', hl', hc', hmap, ?_, ?_, ?_⟩
  · have hlen : (l.map Prod.snd).length = s.count := by rw [List.length_map, hc]
    have hlen' : ((firstNodes l).map Prod.snd).length = s'.count := by rw [List.length_map, hc']
    rw [← hlen, ← hlen', removeDuplicates_eq, hmap]
  · apply removeDuplicatesInPlace_of_nodup hl' hc'
    · rw [hmap]
      exact nodup_eraseDups _
    · have hle : (firstNodes l).length ≤ l.length := (firstNodes_sublist l).length_le
      omega
  · intro segments node r hr hentries
    have hv : r.Valid := valid_of_matchRecursive hr ⟨List.nodup_nil, rfl⟩
    have hsame := removeDuplicatesInPlace_of_nodup h hc (hentries ▸ hv.nodup) hf
    rw [removeDuplicatesInPlace, hs'] at hsame
    exact Option.some.inj hsame

/-- A list of four nodes, in which the first address comes again behind itself and at the end. -/
def repeatedStore : SubscriberStore where
  heap := fun n => [⟨⟨2, 80, 1, 0⟩, some 1⟩, ⟨⟨2, 80, 1, 0⟩, some 2⟩, ⟨⟨2, 81, 1, 0⟩, some 3⟩,
    ⟨⟨2, 80, 1, 0⟩, none⟩][n]?
  head := some 0
  count := 4

/-- Its nodes. -/
def repeatedNodes : List (ℕ × SockaddrIn) :=
  [(0, ⟨2, 80, 1, 0⟩), (1, ⟨2, 80, 1, 0⟩), (2, ⟨2, 81, 1, 0⟩), (3, ⟨2, 80, 1, 0⟩)]

/-- Two of the nodes stay. -/
theorem removeDuplicatesInPlace_keeps_first_repeated :
    firstNodes repeatedNodes = [(0, ⟨2, 80, 1, 0⟩), (2, ⟨2, 81, 1, 0⟩)] ∧
    ∃ s', removeDuplicatesInPlace 9 repeatedStore = some s' ∧
      Links s'.heap s'.head (firstNodes repeatedNodes) none ∧
      s'.count = (firstNodes repeatedNodes).length ∧
      (firstNodes repeatedNodes).map Prod.snd = (repeatedNodes.map Prod.snd).eraseDups ∧
      removeDuplicates ⟨repeatedNodes.map Prod.snd, repeatedStore.count⟩ =
        ⟨(firstNodes repeatedNodes).map Prod.snd, s'.count⟩ ∧
      removeDuplicatesInPlace 9 s' = some s' ∧
      ∀ segments node r, matchRecursive segments node ⟨[], 0⟩ = some r →
        r.entries = repeatedNodes.map Prod.snd → s' = repeatedStore := by
  have hlinks : Links repeatedStore.heap repeatedStore.head repeatedNodes none :=
    ⟨rfl, _, rfl, rfl, _, rfl, rfl, _, rfl, rfl, _, rfl, rfl⟩
  refine ⟨rfl, ?_⟩
  exact removeDuplicatesInPlace_keeps_first repeatedStore repeatedNodes hlinks rfl 9 (by decide)

end SlimMQ
