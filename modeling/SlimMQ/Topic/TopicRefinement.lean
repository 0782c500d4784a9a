import SlimMQ.Topic.RemoveDuplicates
import SlimMQ.Topic.TopicLayout

/-!
# The topic table in memory and the tree

A search leaves the blocks of the tree as they are and adds those of its list, which the broker gives
back after it has walked along. With the subscriptions, every sequence of calls does in memory what
it does on the tree: it fails at the same call, if at all, it sends to the same addresses in the same
order, and after it the blocks in use are those of the tree. Nothing depends on the addresses that
the allocator returns, or on whether an array moves when it grows.

## Main definitions

* `TopicMemory.Stores`: the result of a search so far, in memory
* `TableOp`, `TableMemory.step`, `tableStep`: the calls of the broker, in memory and on the tree

## Main results

* `TopicMemory.rel_matchRecursive`, `TopicMemory.rel_getMatchingSubscribers`: the search
* `TableMemory.rel_step`: one call
* `topicTable_in_memory`: every sequence of calls, and the table given back after it
-/

namespace SlimMQ

open Buffer Blocks EventLoop

namespace TopicMemory

/-! ## Searches -/

variable {γ : Type} {A : Allocator γ} {m : TopicArena γ} {F : Multiset (ℕ × TopicCell)} {list : ℕ}

/-- The blocks of a `SubscriberList`. -/
def listBlocks (list : ℕ) (entries : List (ℕ × SockaddrIn)) (count : ℕ) :
    Multiset (ℕ × TopicCell) :=
  {(list, .list (firstOf entries) count)} + entryBlocks entries

/-- **The result of a search so far** is in memory, beside the blocks `F`. -/
def Stores (list : ℕ) (F : Multiset (ℕ × TopicCell)) (r : SubscriberList) (m : TopicArena γ) :
    Prop :=
  ∃ entries, r.entries = entries.map Prod.snd ∧ m.Holds (listBlocks list entries r.count + F)

theorem readList_listBlocks {entries : List (ℕ × SockaddrIn)} {count : ℕ}
    (h : m.Holds (listBlocks list entries count + F)) :
    readList m (some list) = some (firstOf entries, count) :=
  readList_of_mem h (by simp [listBlocks])

theorem length_entries_le {entries : List (ℕ × SockaddrIn)} {count : ℕ}
    (h : m.Holds (listBlocks list entries count + F)) : entries.length ≤ m.live.card := by
  refine Nat.le_trans ?_ h.card_le
  rw [listBlocks, Multiset.card_add, card_entryBlocks]
  exact Nat.le_add_left _ _

theorem isInList_eq {r : SubscriberList} (h : Stores list F r m) (addr : SockaddrIn) :
    isInList m list addr = some (decide (addr ∈ r.entries)) := by
  obtain ⟨entries, hr, h⟩ := h
  simp only [isInList, readList_listBlocks h, Option.bind_eq_bind, Option.bind_some, hr]
  refine isInEntries_eq h (fun x hx => ?_) addr (Nat.lt_succ_of_le (length_entries_le h))
  simp [listBlocks, hx]

/-- **The subscribers of a node** are copied to the list, except those in it. -/
theorem stores_collectSubscribers {subs : List (ℕ × SockaddrIn)} {r : SubscriberList} {fuel : ℕ}
    (h : Stores list F r m) (hsubs : ∀ x ∈ entryBlocks subs, x ∈ F) (A : Allocator γ)
    (hf : subs.length < fuel) :
    ∃ m', collectSubscribers A list fuel m (firstOf subs) = some m' ∧
      Stores list F (SlimMQ.collectSubscribers r (subs.map Prod.snd)) m' := by
  induction subs generalizing m r fuel with
  | nil =>
    obtain ⟨fuel, rfl⟩ : ∃ n, fuel = n + 1 := ⟨fuel - 1, by omega⟩
    exact ⟨m, rfl, h⟩
  | cons x subs ih =>
    obtain ⟨p, addr⟩ := x
    obtain ⟨fuel, rfl⟩ : ∃ n, fuel = n + 1 := ⟨fuel - 1, by omega⟩
    have hrest : ∀ x ∈ entryBlocks subs, x ∈ F := fun x hx =>
      hsubs x (Multiset.mem_add.mpr (Or.inr hx))
    have hlen : subs.length < fuel := Nat.lt_of_succ_lt_succ hf
    have hin := isInList_eq h addr
    obtain ⟨entries, hr, hm⟩ := h
    have hread : readEntry m (some p) = some (addr, firstOf subs) := by
      refine readEntry_of_mem hm (Multiset.mem_add.mpr (Or.inr (hsubs _ ?_)))
      simp [entryBlocks]
    have hfirst : firstOf ((p, addr) :: subs) = some p := rfl
    simp only [hfirst, collectSubscribers, hread, Option.bind_eq_bind, Option.bind_some, hin,
      decide_eq_true_eq, List.map_cons, SlimMQ.collectSubscribers, List.foldl_cons]
    by_cases ha : addr ∈ r.entries
    · rw [if_pos ha, if_pos ha]
      exact ih ⟨entries, hr, hm⟩ hrest hlen
    -- a copy in front, and one more in the count
    · rw [if_neg ha, if_neg ha]
      obtain ⟨q, m₁, halloc, h₁⟩ := hm.alloc A (.entry addr (firstOf entries))
      rw [listBlocks, add_assoc, add_left_comm] at h₁
      obtain ⟨m₂, hstore, h₂⟩ := h₁.store (.list (some q) (r.count + 1))
      have h₂ : Stores list F ⟨addr :: r.entries, r.count + 1⟩ m₂ := by
        refine ⟨(q, addr) :: entries, by rw [hr]; rfl, ?_⟩
        rw [listBlocks, entryBlocks, add_assoc, add_assoc]
        exact h₂
      obtain ⟨m', hm', h'⟩ := ih h₂ hrest hlen
      refine ⟨m', ?_, h'⟩
      simp only [readList_listBlocks hm, Option.bind_some, halloc, hstore, hm']

theorem segmentMatches_eq {B : Multiset (ℕ × TopicCell)} {c : Layout} (h : m.Holds B)
    (hc : ∀ x ∈ c.blocks, x ∈ B) {segment : Option ℕ} {s : Option CString}
    (hs : readText m segment = s) :
    segmentMatches m (some c.self) segment = SlimMQ.segmentMatches c.tree s := by
  simp only [segmentMatches, readNode_of_mem h (hc _ c.node_mem), readText_fields h hc, hs,
    Option.bind_eq_bind, Option.bind_some]
  cases s with
  | none => rfl
  | some s => simp [SlimMQ.segmentMatches]

theorem mem_of_stores {r : SubscriberList} (h : Stores list F r m) :
    ∃ B, m.Holds B ∧ ∀ x ∈ F, x ∈ B := by
  obtain ⟨entries, -, h⟩ := h
  exact ⟨_, h, fun x hx => Multiset.mem_add.mpr (Or.inr hx)⟩

/-- The subscribers of a node of the tree are collected. -/
theorem stores_collect {L : Layout} {r : SubscriberList} (h : Stores list F r m)
    (hL : L.blocks ≤ F) (A : Allocator γ) :
    ∃ m', collectSubscribers A list (m.live.card + 1) m L.fields.subscribers = some m' ∧
      Stores list F (SlimMQ.collectSubscribers r L.tree.subscribers) m' := by
  have hlen : L.subscribers.length ≤ m.live.card := by
    obtain ⟨entries, -, hm⟩ := h
    rw [hm.card_live, ← card_entryBlocks]
    refine Multiset.card_le_card ((Layout.entries_le L).trans (hL.trans ?_))
    exact Multiset.le_add_left _ _
  rw [L.subscribers_fields, Layout.subscribers_tree]
  exact stores_collectSubscribers h
    (fun x hx => Multiset.mem_of_le hL (L.entries_mem x hx)) A (Nat.lt_succ_of_le hlen)

/-- **The search in memory** finds what the one in the tree finds. -/
theorem rel_matchRecursive {segs : List (Option (ℕ × CString))} {L : Layout} {r : SubscriberList}
    (h : Stores list F r m) (hL : L.blocks ≤ F) (hsegs : ∀ x ∈ segmentBlocks segs, x ∈ F) :
    Option.Rel (Stores list F)
      (SlimMQ.matchRecursive (segs.map (Option.map Prod.snd)) L.tree r)
      (matchRecursive A list (segs.map (Option.map Prod.fst)) m (some L.self)) := by
  induction segs generalizing L m r with
  | nil =>
    obtain ⟨B, hB, hFB⟩ := mem_of_stores h
    have hnode := readNode_of_mem hB (hFB _ (Multiset.mem_of_le hL L.node_mem))
    obtain ⟨m', hm', h'⟩ := stores_collect h hL A
    simp only [List.map_nil, SlimMQ.matchRecursive, matchRecursive, hnode, Option.bind_eq_bind,
      Option.bind_some, hm']
    exact Option.Rel.some h'
  | cons seg segs ih =>
    obtain ⟨B, hB, hFB⟩ := mem_of_stores h
    have hLB : ∀ x ∈ L.blocks, x ∈ B := fun x hx => hFB x (Multiset.mem_of_le hL hx)
    have hrest : ∀ x ∈ segmentBlocks segs, x ∈ F := fun x hx => hsegs x (by
      rw [segmentBlocks_cons]
      exact Multiset.mem_add.mpr (Or.inr hx))
    -- the node itself, if it is a `#`
    obtain ⟨m₁, hm₁, h₁⟩ : ∃ m₁, collectHash A list m L.fields = some m₁ ∧
        Stores list F (if L.tree.segment = hash then
          SlimMQ.collectSubscribers r L.tree.subscribers else r) m₁ := by
      rw [collectHash, readText_fields hB hLB, Layout.segment_tree]
      simp only [Option.bind_eq_bind, Option.bind_some]
      by_cases hhash : L.segment = hash
      · rw [if_pos hhash, if_pos hhash]
        exact stores_collect h hL A
      · rw [if_neg hhash, if_neg hhash]
        exact ⟨m, rfl, h⟩
    have hloop : Option.Rel (Stores list F)
        (L.children.foldlM (fun r c => do
            if ← SlimMQ.segmentMatches c.tree (seg.map Prod.snd) then
              SlimMQ.matchRecursive (segs.map (Option.map Prod.snd)) c.tree r
            else some r)
          (if L.tree.segment = hash then SlimMQ.collectSubscribers r L.tree.subscribers else r))
        (forChildren L.self (fun m child => do
            if ← segmentMatches m child (seg.map Prod.fst) then
              matchRecursive A list (segs.map (Option.map Prod.fst)) m child
            else some m) L.children.length 0 m₁) := by
      refine rel_forChildren (P := fun _ => Stores list F) ?_ ?_ List.drop_zero h₁
      · intro _ r m hm
        obtain ⟨B, hB, hFB⟩ := mem_of_stores hm
        exact ⟨B, hB, fun x hx => hFB x (Multiset.mem_of_le hL (L.spine_mem x hx))⟩
      -- a child that matches is visited
      · intro c _ r m hc hm
        have hcF : c.blocks ≤ F := (Layout.children_le hc).trans hL
        obtain ⟨B, hB, hFB⟩ := mem_of_stores hm
        have hread : readText m (seg.map Prod.fst) = seg.map Prod.snd := by
          cases seg with
          | none => rfl
          | some x => exact readText_of_mem hB (hFB _ (hsegs _ (by simp [segmentBlocks])))
        rw [segmentMatches_eq hB (fun x hx => hFB x (Multiset.mem_of_le hcF hx)) hread]
        cases SlimMQ.segmentMatches c.tree (seg.map Prod.snd) with
        | none => exact Option.Rel.none
        | some matched =>
          cases matched with
          | false => exact Option.Rel.some hm
          | true => exact ih hm hcF hrest
    simp only [List.map_cons, SlimMQ.matchRecursive, matchRecursive,
      readNode_of_mem hB (hLB _ L.node_mem), Option.bind_eq_bind, Option.bind_some,
      hm₁, L.childCount_fields, Layout.children_tree, List.foldlM_map]
    exact hloop

/-! ## The list that is returned -/

/-- The runner does not find an address that no entry before `curr` has. -/
theorem runnerFinds_eq_false {B : Multiset (ℕ × TopicCell)} {kept rest : List (ℕ × SockaddrIn)}
    {curr : ℕ} {a addr : SockaddrIn} (h : m.Holds B)
    (hB : ∀ x ∈ entryBlocks (kept ++ (curr, a) :: rest), x ∈ B) (ha : addr ∉ kept.map Prod.snd)
    {fuel : ℕ} (hf : kept.length < fuel) :
    runnerFinds m curr addr fuel (firstOf (kept ++ (curr, a) :: rest)) = some false := by
  induction kept generalizing fuel with
  | nil =>
    obtain ⟨fuel, rfl⟩ : ∃ n, fuel = n + 1 := ⟨fuel - 1, by omega⟩
    exact if_pos rfl
  | cons x kept ih =>
    obtain ⟨p, a'⟩ := x
    obtain ⟨fuel, rfl⟩ : ∃ n, fuel = n + 1 := ⟨fuel - 1, by omega⟩
    rw [List.map_cons, List.mem_cons, not_or] at ha
    have hread : readEntry m (some p) = some (a', firstOf (kept ++ (curr, a) :: rest)) :=
      readEntry_of_mem h (hB _ (by simp [entryBlocks]))
    have hfirst : firstOf ((p, a') :: kept ++ (curr, a) :: rest) = some p := rfl
    rw [hfirst, runnerFinds]
    split
    · rfl
    · simp only [hread, Option.bind_eq_bind, Option.bind_some]
      rw [if_neg fun he => ha.1 he.symm]
      exact ih (fun x hx => hB x (Multiset.mem_add.mpr (Or.inr hx))) ha.2 (Nat.lt_of_succ_lt_succ hf)

theorem mem_entryBlocks_append {kept rest : List (ℕ × SockaddrIn)} :
    ∀ x ∈ entryBlocks rest, x ∈ entryBlocks (kept ++ rest) := by
  intro x hx
  induction kept with
  | nil => exact hx
  | cons y kept ih => exact Multiset.mem_add.mpr (Or.inr ih)

/-- **A list without duplicates** passes the loop of `remove_duplicates` as it is. -/
theorem removeDuplicatesLoop_eq (kept : List (ℕ × SockaddrIn)) {rest : List (ℕ × SockaddrIn)}
    {prev : Option ℕ} {count : ℕ} (h : m.Holds (listBlocks list (kept ++ rest) count + F))
    (hnodup : ((kept ++ rest).map Prod.snd).Nodup) {fuel : ℕ} (hf : rest.length < fuel) :
    removeDuplicatesLoop list fuel m prev (firstOf rest) = some m := by
  induction rest generalizing kept prev fuel with
  | nil =>
    obtain ⟨fuel, rfl⟩ : ∃ n, fuel = n + 1 := ⟨fuel - 1, by omega⟩
    rfl
  | cons x rest ih =>
    obtain ⟨curr, addr⟩ := x
    obtain ⟨fuel, rfl⟩ : ∃ n, fuel = n + 1 := ⟨fuel - 1, by omega⟩
    have hmem : ∀ x ∈ entryBlocks (kept ++ (curr, addr) :: rest),
        x ∈ listBlocks list (kept ++ (curr, addr) :: rest) count + F := by
      intro x hx
      simp [listBlocks, hx]
    have hread : readEntry m (some curr) = some (addr, firstOf rest) :=
      readEntry_of_mem h (hmem _ (mem_entryBlocks_append _ (by simp [entryBlocks])))
    have hnew : addr ∉ kept.map Prod.snd := by
      rw [List.map_append, List.map_cons] at hnodup
      exact fun ha => List.disjoint_of_nodup_append hnodup ha List.mem_cons_self
    have hlen : kept.length < m.live.card + 1 := by
      have := length_entries_le h
      rw [List.length_append] at this
      omega
    have hfirst : firstOf ((curr, addr) :: rest) = some curr := rfl
    simp only [hfirst, removeDuplicatesLoop, readList_listBlocks h, Option.bind_eq_bind,
      Option.bind_some, hread, runnerFinds_eq_false h hmem hnew hlen, Bool.false_eq_true, if_false]
    refine ih (kept ++ [(curr, addr)]) ?_ ?_ (Nat.lt_of_succ_lt_succ hf)
    · rwa [List.append_assoc]
    · rwa [List.append_assoc]

theorem removeDuplicates_eq_self {r : SubscriberList} (h : Stores list F r m) (hr : r.Valid) :
    removeDuplicates m list = some m := by
  obtain ⟨entries, he, h⟩ := h
  rw [removeDuplicates, readList_listBlocks h]
  refine removeDuplicatesLoop_eq [] h ?_ (Nat.lt_succ_of_le (length_entries_le h))
  rw [List.nil_append, ← he]
  exact hr.nodup

/-- **A search in memory** returns the list of the one in the tree, beside the blocks of the tree. -/
theorem rel_getMatchingSubscribers {L : Layout} (h : m.Holds (L.blocks + F)) (A : Allocator γ)
    (topicStr : CString) :
    Option.Rel (fun (r : SubscriberList) (r' : ℕ × TopicArena γ) =>
        Stores r'.1 (L.blocks + F) r r'.2)
      (SlimMQ.getMatchingSubscribers L.tree topicStr)
      (getMatchingSubscribers A m (some L.self) topicStr) := by
  obtain ⟨array, segs, m₁, hsplit, hsegs, h₁⟩ := holds_splitTopic h A topicStr
  obtain ⟨list, m₂, halloc, h₂⟩ := h₁.alloc A (.list none 0)
  have hread := readArray_of_mem h₂ (Multiset.mem_add.mpr (Or.inr (Multiset.mem_add.mpr
    (Or.inl (Multiset.mem_singleton_self _)))))
  have hstores : Stores list ({(array, .array (segs.map (Option.map Prod.fst)))} +
      (segmentBlocks segs + (L.blocks + F))) ⟨[], 0⟩ m₂ := by
    refine ⟨[], rfl, ?_⟩
    rwa [listBlocks, entryBlocks, add_zero]
  have hL : L.blocks ≤ {(array, .array (segs.map (Option.map Prod.fst)))} +
      (segmentBlocks segs + (L.blocks + F)) := by
    rw [← add_assoc, add_left_comm]
    exact Multiset.le_add_right _ _
  simp only [SlimMQ.getMatchingSubscribers, getMatchingSubscribers, hsplit, halloc, hread,
    Option.bind_eq_bind, Option.bind_some]
  rw [← hsegs, Option.map_eq_bind]
  refine rel_bind (rel_mono (S := fun r m => Stores list _ r m ∧ r.Valid)
    (rel_matchRecursive hstores hL fun x hx => by simp [hx])
    fun r m hr h => ⟨h, valid_of_matchRecursive hr ⟨List.nodup_nil, rfl⟩⟩) ?_
  rintro r m₃ ⟨⟨entries, he, h₃⟩, hvalid⟩
  have h₃ : m₃.Holds ({(array, .array (segs.map (Option.map Prod.fst)))} +
      (segmentBlocks segs + (listBlocks list entries r.count + (L.blocks + F)))) := by
    convert h₃ using 1
    abel
  obtain ⟨m₄, hfree, h₄⟩ := holds_freeSegments h₃
  have h₄ : Stores list (L.blocks + F) r m₄ := ⟨entries, he, h₄⟩
  -- the search has left nothing to remove
  have hid : SlimMQ.removeDuplicates r = r := by
    rw [SlimMQ.removeDuplicates, removeDuplicatesFrom_of_nodup [] _ _ (by simpa using hvalid.nodup)]
    rfl
  simp only [hfree, Option.bind_some, removeDuplicates_eq_self h₄ hvalid, Function.comp_apply, hid]
  exact Option.Rel.some h₄

/-- The walk of `publish_to_subscribers` meets the addresses of the list. -/
theorem targets_eq {B : Multiset (ℕ × TopicCell)} {entries : List (ℕ × SockaddrIn)} (h : m.Holds B)
    (hB : ∀ x ∈ entryBlocks entries, x ∈ B) {fuel : ℕ} (hf : entries.length < fuel) :
    targets m fuel (firstOf entries) = some (entries.map Prod.snd) := by
  induction entries generalizing fuel with
  | nil =>
    obtain ⟨fuel, rfl⟩ : ∃ n, fuel = n + 1 := ⟨fuel - 1, by omega⟩
    rfl
  | cons x entries ih =>
    obtain ⟨p, addr⟩ := x
    obtain ⟨fuel, rfl⟩ : ∃ n, fuel = n + 1 := ⟨fuel - 1, by omega⟩
    have hread : readEntry m (some p) = some (addr, firstOf entries) :=
      readEntry_of_mem h (hB _ (by simp [entryBlocks]))
    have hrest := ih (fun x hx => hB x (Multiset.mem_add.mpr (Or.inr hx)))
      (Nat.lt_of_succ_lt_succ hf)
    have hfirst : firstOf ((p, addr) :: entries) = some p := rfl
    simp only [hfirst, targets, hread, Option.bind_eq_bind, Option.bind_some, hrest]
    rfl

/-- The list is given back. -/
theorem holds_freeSubscriberList {r : SubscriberList} (h : Stores list F r m) :
    ∃ m', freeSubscriberList m list = some m' ∧ m'.Holds F := by
  obtain ⟨entries, -, h⟩ := h
  have hread := readList_listBlocks h
  have hlen := length_entries_le h
  rw [listBlocks, add_assoc, add_left_comm] at h
  obtain ⟨m₁, hentries, h₁⟩ := holds_freeEntries h (Nat.lt_succ_of_le hlen)
  obtain ⟨m', hfree, h'⟩ := h₁.free
  refine ⟨m', ?_, h'⟩
  simp only [freeSubscriberList, hread, Option.bind_eq_bind, Option.bind_some, hentries, hfree]

end TopicMemory

/-! ## Sequences of calls -/

/-- A call of the broker: a subscription, or a message to pass on. -/
inductive TableOp
  | subscribe (topicStr : CString) (addr : SockaddrIn)
  | publish (topicStr : CString)

/-- The calls on the tree, with the addresses that each message was sent to. -/
def tableStep (s : TopicNode × List (List SockaddrIn)) :
    TableOp → Option (TopicNode × List (List SockaddrIn))
  | .subscribe topicStr addr => (subscribeTopic s.1 topicStr addr).map fun root => (root, s.2)
  | .publish topicStr =>
    (getMatchingSubscribers s.1 topicStr).map fun list => (s.1, s.2 ++ [list.entries])

/-- The memory of the broker: the arena, `topic_root`, and the addresses that each message was sent
to. -/
structure TableMemory (γ : Type) where
  arena : TopicArena γ
  root : Option ℕ
  sent : List (List SockaddrIn)

namespace TableMemory

variable {γ : Type} (A : Allocator γ)

/-- `init_topic_table`, in a process without blocks. -/
def init (g : γ) : Option (TableMemory γ) := do
  let (root, m) ← TopicMemory.initTopicTable A (Arena.empty g)
  some ⟨m, some root, []⟩

/-- One call: `publish_to_subscribers` walks along the list that the search returns, and gives it
back. -/
def step (s : TableMemory γ) : TableOp → Option (TableMemory γ)
  | .subscribe topicStr addr => do
    let m ← TopicMemory.subscribeTopic A s.arena s.root topicStr addr
    some { s with arena := m }
  | .publish topicStr => do
    let (list, m) ← TopicMemory.getMatchingSubscribers A s.arena s.root topicStr
    let (head, _) ← TopicMemory.readList m (some list)
    let addrs ← TopicMemory.targets m (m.live.card + 1) head
    let m ← TopicMemory.freeSubscriberList m list
    some { s with arena := m, sent := s.sent ++ [addrs] }

/-- **The memory holds the tree** and nothing else. -/
def Represents (s : TopicNode × List (List SockaddrIn)) (t : TableMemory γ) : Prop :=
  t.sent = s.2 ∧ ∃ L : Layout, L.tree = s.1 ∧ t.root = some L.self ∧ t.arena.Holds L.blocks

/-- At the start there is one node. -/
theorem represents_init (g : γ) : ∃ t, init A g = some t ∧ Represents (initTopicTable, []) t := by
  obtain ⟨root, text, m, hnew, h⟩ := TopicMemory.holds_newNode (Arena.holds_empty g) A CString.empty
  rw [add_zero] at h
  refine ⟨⟨m, some root, []⟩, ?_, rfl, _, rfl, rfl, h⟩
  rw [init, TopicMemory.initTopicTable, hnew]
  rfl

variable {A}

/-- **One call** in memory is the one on the tree. -/
theorem rel_step {s : TopicNode × List (List SockaddrIn)} {t : TableMemory γ} (op : TableOp)
    (h : Represents s t) : Option.Rel Represents (tableStep s op) (step A t op) := by
  obtain ⟨tree, sent⟩ := s
  obtain ⟨m, root, sent'⟩ := t
  obtain ⟨rfl, L, rfl, rfl, hm⟩ := h
  rw [← add_zero L.blocks] at hm
  cases op with
  | subscribe topicStr addr =>
    simp only [tableStep, step, Option.map_eq_bind]
    refine rel_bind (TopicMemory.rel_subscribeTopic hm A topicStr addr) ?_
    rintro tree' m' ⟨L', rfl, hself, h'⟩
    rw [add_zero] at h'
    exact Option.Rel.some ⟨rfl, L', rfl, congrArg some hself.symm, h'⟩
  | publish topicStr =>
    simp only [tableStep, step, Option.map_eq_bind]
    refine rel_bind (TopicMemory.rel_getMatchingSubscribers hm A topicStr) ?_
    rintro r ⟨list, m₁⟩ hstores
    obtain ⟨m', hfree, h'⟩ := TopicMemory.holds_freeSubscriberList hstores
    obtain ⟨entries, he, h₁⟩ := hstores
    have htargets := TopicMemory.targets_eq h₁ (fun x hx => by simp [TopicMemory.listBlocks, hx])
      (Nat.lt_succ_of_le (TopicMemory.length_entries_le h₁))
    simp only [TopicMemory.readList_listBlocks h₁, Option.bind_eq_bind, Option.bind_some, htargets,
      hfree, Function.comp_apply]
    rw [add_zero] at h'
    exact Option.Rel.some ⟨by rw [he], L, rfl, rfl, h'⟩

end TableMemory

mutual

/-- The blocks that a tree needs: a node and its segment, an array if there are children, and an
entry for each subscriber. -/
def TopicNode.blockCount : TopicNode → ℕ
  | .mk _ children subscribers =>
    2 + (if children = [] then 0 else 1) + subscribers.length + blockCounts children

def blockCounts : List TopicNode → ℕ
  | [] => 0
  | t :: ts => t.blockCount + blockCounts ts

end

mutual

theorem Layout.card_blocks : (L : Layout) → L.blocks.card = L.tree.blockCount
  | .mk self text array segment children subscribers => by
    have harray : (Arena.at? (arrayOf array (children.map Layout.self))
        (TopicCell.array ((children.map Layout.self).map some))).card =
          if children.map Layout.tree = [] then 0 else 1 := by
      cases children <;> rfl
    rw [Layout.blocks, ownBlocks, Layout.tree, Layout.trees_eq, TopicNode.blockCount]
    simp only [Multiset.card_add, Multiset.card_singleton, TopicMemory.card_entryBlocks, harray,
      Layout.card_allBlocks children, List.length_map]
    omega

theorem Layout.card_allBlocks : (ls : List Layout) →
    (Layout.allBlocks ls).card = blockCounts (ls.map Layout.tree)
  | [] => rfl
  | l :: ls => by
    rw [Layout.allBlocks, Multiset.card_add, Layout.card_blocks l, Layout.card_allBlocks ls,
      List.map_cons, blockCounts]

end

/-- **The topic table in memory.** With every allocator, a sequence of subscriptions and messages
fails in memory exactly when it does on the tree. Otherwise the messages are sent to the same
addresses, in the same order, and the blocks in use are those of the tree and no others, as many as
it needs: what the calls have allocated for themselves is given back. `free_topic_table` then gives
back every block once and leaves none. -/
theorem topicTable_in_memory {γ : Type} (A : Allocator γ) (g : γ) (ops : List TableOp) :
    Option.Rel
      (fun (s : TopicNode × List (List SockaddrIn)) (t : TableMemory γ) => t.sent = s.2 ∧
        (∃ L : Layout, L.tree = s.1 ∧ t.root = some L.self ∧ t.arena.Holds L.blocks) ∧
        t.arena.live.card = s.1.blockCount ∧
        ∃ m, TopicMemory.freeTopicTable t.arena t.root = some m ∧ ∀ p, m.heap p = none)
      (execute tableStep (initTopicTable, []) ops)
      ((TableMemory.init A g).bind fun t => execute (TableMemory.step A) t ops) := by
  obtain ⟨t, hinit, ht⟩ := TableMemory.represents_init A g
  have hrun := rel_execute (fun s t op h => TableMemory.rel_step (A := A) op h) ht ops
  rw [hinit, Option.bind_some]
  refine rel_mono hrun ?_
  rintro s ⟨m, root, sent⟩ - ⟨hsent, L, htree, rfl, hm⟩
  refine ⟨hsent, ⟨L, htree, rfl, hm⟩, by rw [hm.card_live, L.card_blocks, htree], ?_⟩
  have hfuel : L.blocks.card ≤ m.live.card + 1 := by
    rw [hm.card_live]
    exact Nat.le_succ _
  rw [← add_zero L.blocks] at hm
  obtain ⟨m', hfree, h'⟩ := TopicMemory.holds_freeTopicNode hm hfuel
  exact ⟨m', hfree, h'.heap_eq_none⟩

end SlimMQ
