import SlimMQ.Topic.Matching

/-!
# Repeated subscriptions

A subscription descends by the first child of each segment, and creates what it does not find. Once
made, it is found again on that way, whatever subscriptions come after it: a second one for the same
filter and address leaves the tree as it is, down to the order of the children and the subscribers.

## Main definitions

* `TopicNode.child?`: the child that a descent finds for a segment
* `TopicNode.Registered`: an address is registered at the end of the descent along a path

## Main results

* `child?_subscribeAt`: what a subscription changes of the children
* `subscribeAt_of_registered`: a registered address changes nothing
* `registered_subscribeAt`, `Registered.subscribeAt`: a subscription registers its address, and
  keeps those that are registered
-/

namespace SlimMQ

open Buffer

namespace TopicNode

/-- The child that a descent finds for a segment: the first one. -/
def child? (node : TopicNode) (s : CString) : Option TopicNode :=
  node.children.find? (·.segment = s)

/-- The address is registered at the end of the descent along a path. -/
def Registered (addr : SockaddrIn) : List CString → TopicNode → Prop
  | [], node => addr ∈ node.subscribers
  | s :: path, node => ∃ child, node.child? s = some child ∧ Registered addr path child

end TopicNode

/-- Where the first element that satisfies a predicate stands. -/
theorem exists_append_of_findIdx? {α : Type} {p : α → Bool} {l : List α} {i : ℕ}
    (h : l.findIdx? p = some i) :
    ∃ l₁ x l₂, l = l₁ ++ x :: l₂ ∧ l₁.length = i ∧ p x ∧ ∀ y ∈ l₁, ¬ p y := by
  obtain ⟨hi, hp, hlt⟩ := List.findIdx?_eq_some_iff_getElem.mp h
  refine ⟨l.take i, l[i], l.drop (i + 1), ?_, ?_, hp, ?_⟩
  · rw [← List.drop_eq_getElem_cons hi, List.take_append_drop]
  · rw [List.length_take]
    omega
  · intro y hy
    obtain ⟨j, hj, rfl⟩ := List.mem_take_iff_getElem.mp hy
    exact hlt j (by omega)

/-- The child for a segment and its place among the children, after it was created if need be. -/
theorem findOrCreateChild_split {node node₁ : TopicNode} {s : CString} {i : ℕ}
    (h : findOrCreateChild node (some s) = some (node₁, i)) :
    ∃ l₁ c l₂, node₁ = .mk node.segment (l₁ ++ c :: l₂) node.subscribers ∧ l₁.length = i ∧
      c.segment = s ∧ (∀ y ∈ l₁, y.segment ≠ s) ∧ c = (node.child? s).getD (.mk s [] []) ∧
      ∀ s' ≠ s, node.child? s' = (l₁ ++ l₂).find? (·.segment = s') := by
  obtain ⟨seg, cs, ss⟩ := node
  simp only [findOrCreateChild, TopicNode.children_mk, TopicNode.segment_mk,
    TopicNode.subscribers_mk] at h
  split at h
  -- the child is there
  · rename_i j hj
    obtain ⟨rfl, rfl⟩ := Prod.mk.inj (Option.some.inj h)
    obtain ⟨l₁, c, l₂, hl, hlen, hc, hl₁⟩ := exists_append_of_findIdx? hj
    obtain rfl : cs = l₁ ++ c :: l₂ := hl
    have hc : c.segment = s := by simpa using hc
    have hl₁ : ∀ y ∈ l₁, y.segment ≠ s := by simpa using hl₁
    have hnone : l₁.find? (·.segment = s) = none := by simpa using hl₁
    refine ⟨l₁, c, l₂, rfl, hlen, hc, hl₁, ?_, fun s' hs' => ?_⟩
    · simp [TopicNode.child?, List.find?_append, hnone, hc]
    · have hne : c.segment ≠ s' := fun h' => hs' (h'.symm.trans hc)
      simp [TopicNode.child?, List.find?_append, hne]
  -- it is the new last one
  · rename_i hj
    obtain ⟨rfl, rfl⟩ := Prod.mk.inj (Option.some.inj h)
    have hcs : ∀ y ∈ cs, y.segment ≠ s := by simpa using hj
    have hnone : cs.find? (·.segment = s) = none := by simpa using hcs
    refine ⟨cs, .mk s [] [], [], rfl, rfl, rfl, hcs, ?_, fun s' _ => ?_⟩
    · simp [TopicNode.child?, hnone]
    · simp [TopicNode.child?]

theorem segment_subscribeAt {addr : SockaddrIn} {segments : List (Option CString)}
    {node node' : TopicNode} (h : subscribeAt addr segments node = some node') :
    node'.segment = node.segment := by
  cases segments with
  | nil =>
    simp only [subscribeAt] at h
    split at h <;> obtain rfl := Option.some.inj h <;> rfl
  | cons segment segments =>
    obtain ⟨⟨node₁, i⟩, hfind, h⟩ := Option.bind_eq_some_iff.mp h
    obtain ⟨child, -, h⟩ := Option.bind_eq_some_iff.mp h
    obtain ⟨child', -, h⟩ := Option.bind_eq_some_iff.mp h
    obtain rfl := Option.some.inj h
    cases segment with
    | none => cases hfind
    | some s =>
      obtain ⟨l₁, c, l₂, rfl, -⟩ := findOrCreateChild_split hfind
      rfl

/-- **What a step of a subscription does to the children**: the child of the segment, which may be a
new one, goes on by itself, and the other children stay. -/
theorem child?_subscribeAt {addr : SockaddrIn} {s : CString} {segments : List (Option CString)}
    {node node' : TopicNode} (h : subscribeAt addr (some s :: segments) node = some node') :
    node'.subscribers = node.subscribers ∧
      ∃ child', subscribeAt addr segments ((node.child? s).getD (.mk s [] [])) = some child' ∧
        ∀ s', node'.child? s' = if s' = s then some child' else node.child? s' := by
  obtain ⟨⟨node₁, i⟩, hfind, h⟩ := Option.bind_eq_some_iff.mp h
  obtain ⟨child, hchild, h⟩ := Option.bind_eq_some_iff.mp h
  obtain ⟨child', hsub, h⟩ := Option.bind_eq_some_iff.mp h
  obtain rfl := Option.some.inj h
  obtain ⟨l₁, c, l₂, rfl, rfl, hc, hl₁, hfound, hother⟩ := findOrCreateChild_split hfind
  obtain rfl : c = child := by simpa using hchild
  have hc' : child'.segment = s := (segment_subscribeAt hsub).trans hc
  have hnone : l₁.find? (·.segment = s) = none := by simpa using hl₁
  refine ⟨rfl, child', hfound ▸ hsub, fun s' => ?_⟩
  by_cases hs' : s' = s
  · subst hs'
    simp [TopicNode.child?, List.find?_append, hnone, hc']
  · have hne : child'.segment ≠ s' := fun h' => hs' (h'.symm.trans hc')
    rw [if_neg hs', hother s' hs']
    simp [TopicNode.child?, List.find?_append, hne]

/-- **A registered address changes nothing** when it subscribes again. -/
theorem subscribeAt_of_registered {addr : SockaddrIn} {path : List CString} {node : TopicNode}
    (h : node.Registered addr path) : subscribeAt addr (path.map some) node = some node := by
  induction path generalizing node with
  | nil =>
    have hmem : addr ∈ node.subscribers := h
    simp [subscribeAt, hmem]
  | cons s path ih =>
    obtain ⟨child, hchild, hreg⟩ := h
    have hseg : child.segment = s := by simpa using List.find?_some hchild
    obtain ⟨i, hi⟩ : ∃ i, node.children.findIdx? (·.segment = s) = some i := by
      rw [← Option.isSome_iff_exists, List.findIdx?_isSome, List.any_eq_true]
      exact ⟨child, List.mem_of_find?_eq_some hchild, by simpa using hseg⟩
    have hfind : findOrCreateChild node (some s) = some (node, i) := by
      simp only [findOrCreateChild, hi]
    obtain ⟨l₁, c, l₂, hl, rfl, hc, hl₁⟩ := exists_append_of_findIdx? hi
    have hnone : l₁.find? (·.segment = s) = none := by simpa using hl₁
    -- the child is the first of its segment, and is put back as it was
    obtain rfl : c = child := by
      have hc : c.segment = s := by simpa using hc
      simpa [TopicNode.child?, hl, List.find?_append, hnone, hc] using hchild
    obtain ⟨seg, cs, ss⟩ := node
    obtain rfl : cs = l₁ ++ c :: l₂ := hl
    rw [List.map_cons, subscribeAt, hfind]
    simp [ih hreg]

/-- A subscription registers its address. -/
theorem registered_subscribeAt {addr : SockaddrIn} {path : List CString} {node node' : TopicNode}
    (h : subscribeAt addr (path.map some) node = some node') : node'.Registered addr path := by
  induction path generalizing node node' with
  | nil =>
    simp only [List.map_nil, subscribeAt] at h
    split at h
    · rename_i hmem
      obtain rfl := Option.some.inj h
      exact hmem
    · obtain rfl := Option.some.inj h
      exact List.mem_cons_self
  | cons s path ih =>
    obtain ⟨-, child', hsub, hchild⟩ := child?_subscribeAt h
    exact ⟨child', by rw [hchild, if_pos rfl], ih hsub⟩

/-- A subscription keeps the addresses that are registered. -/
theorem TopicNode.Registered.subscribeAt {addr addr' : SockaddrIn} {path : List CString}
    {segments : List (Option CString)} {node node' : TopicNode} (hreg : node.Registered addr path)
    (h : subscribeAt addr' segments node = some node') : node'.Registered addr path := by
  induction segments generalizing node node' path with
  | nil =>
    simp only [SlimMQ.subscribeAt] at h
    split at h
    · obtain rfl := Option.some.inj h
      exact hreg
    · obtain rfl := Option.some.inj h
      -- an address is added in front
      cases path with
      | nil => exact List.mem_cons_of_mem _ hreg
      | cons s path => exact hreg
  | cons segment segments ih =>
    cases segment with
    | none => cases h
    | some s' =>
      obtain ⟨hss, child', hsub, hchild⟩ := child?_subscribeAt h
      cases path with
      | nil =>
        rw [TopicNode.Registered, hss]
        exact hreg
      | cons s path =>
        obtain ⟨child, hc, hreg⟩ := hreg
        by_cases hs : s = s'
        -- the way goes through the child that is changed
        · subst hs
          rw [hc, Option.getD_some] at hsub
          exact ⟨child', by rw [hchild, if_pos rfl], ih hreg hsub⟩
        · exact ⟨child, by rw [hchild, if_neg hs, hc], hreg⟩

end SlimMQ
