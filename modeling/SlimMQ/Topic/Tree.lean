import SlimMQ.Library.EventLoop
import SlimMQ.Topic.Registration

/-!
# The shape of the topic tree

In a tree that subscriptions have built, no two children of a node have the same segment, so that a
path leads to one node at most and the walk by first children finds it. The paths are the prefixes
of the subscribed filters, and the subscribers at the end of a path are the addresses subscribed to
it, each once. One subscription touches the subscribers at the end of its own path alone, and
creates nodes on its way only; one that was made before leaves the tree as it is.

## Main definitions

* `TopicNode.At`: a path leads from a node to another
* `TopicNode.Everywhere`: a property of all nodes from a node on
* `TopicNode.subscribersAt`: the subscribers that the walk along a path finds at its end
* `Represents`: what a tree is after a sequence of subscriptions
* `OnlyAlong`: what one subscription changes

## Main results

* `subscribeAt_inversion`: what a level of a subscription does
* `subscribersAt_subscribeAt`: the subscribers at the end of every path, after a subscription
* `topicTree_represents`: the invariant of the tree, after every sequence of subscriptions
-/

namespace SlimMQ

open Buffer

namespace TopicNode

/-- The path `p` leads from the node to the node `n`. -/
def At : TopicNode → List CString → TopicNode → Prop
  | node, [], n => n = node
  | node, s :: p, n => ∃ child ∈ node.children, child.segment = s ∧ child.At p n

/-- The property holds of all nodes from this one on. -/
def Everywhere (P : TopicNode → Prop) (node : TopicNode) : Prop := ∀ p n, node.At p n → P n

/-- The subscribers that the walk along a path finds at its end, if it does not end before. -/
def subscribersAt : TopicNode → List CString → Option (List SockaddrIn)
  | node, [] => some node.subscribers
  | node, s :: p => (node.child? s).bind fun child => child.subscribersAt p

/-- No two children of the node have the same segment. -/
def DistinctChildren (node : TopicNode) : Prop := (node.children.map segment).Nodup

/-- No two children have the same segment, and no address is registered twice. -/
def Tidy (node : TopicNode) : Prop := node.DistinctChildren ∧ node.subscribers.Nodup

/-- A property holds everywhere when it holds of the node and everywhere below its children. -/
theorem everywhere_iff {P : TopicNode → Prop} {node : TopicNode} :
    node.Everywhere P ↔ P node ∧ ∀ child ∈ node.children, child.Everywhere P := by
  constructor
  · intro h
    refine ⟨h [] node rfl, fun child hc p n hn => ?_⟩
    exact h (child.segment :: p) n ⟨child, hc, rfl, hn⟩
  · rintro ⟨hnode, hchildren⟩ p n hn
    cases p with
    | nil =>
      obtain rfl := hn
      exact hnode
    | cons s p =>
      obtain ⟨child, hc, -, hn⟩ := hn
      exact hchildren child hc p n hn

/-- With distinct children, the first child of a segment is the only one. -/
theorem child?_eq_some_iff {node child : TopicNode} {s : CString} (hd : node.DistinctChildren) :
    node.child? s = some child ↔ child ∈ node.children ∧ child.segment = s := by
  constructor
  · intro h
    exact ⟨List.mem_of_find?_eq_some h, by simpa using List.find?_some h⟩
  · rintro ⟨hc, hs⟩
    obtain ⟨child', h'⟩ : ∃ child', node.child? s = some child' := by
      apply Option.isSome_iff_exists.mp
      rw [child?, List.find?_isSome]
      exact ⟨child, hc, by simpa using hs⟩
    have hs' : child'.segment = s := by simpa using List.find?_some h'
    have heq := List.inj_on_of_nodup_map hd (List.mem_of_find?_eq_some h') hc (hs'.trans hs.symm)
    rw [h', heq]

/-- With distinct children everywhere, the walk along a path finds the node that the path leads
to. -/
theorem subscribersAt_eq_some_iff {node : TopicNode} {p : List CString} {ss : List SockaddrIn}
    (hd : node.Everywhere DistinctChildren) :
    node.subscribersAt p = some ss ↔ ∃ n, node.At p n ∧ n.subscribers = ss := by
  induction p generalizing node with
  | nil => simp [subscribersAt, At]
  | cons s p ih =>
    obtain ⟨hnode, hchildren⟩ := everywhere_iff.mp hd
    constructor
    · intro h
      obtain ⟨child, hc, h⟩ := Option.bind_eq_some_iff.mp h
      obtain ⟨hmem, hs⟩ := (child?_eq_some_iff hnode).mp hc
      obtain ⟨n, hn, hss⟩ := (ih (hchildren child hmem)).mp h
      exact ⟨n, ⟨child, hmem, hs, hn⟩, hss⟩
    · rintro ⟨n, ⟨child, hmem, hs, hn⟩, hss⟩
      rw [subscribersAt, (child?_eq_some_iff hnode).mpr ⟨hmem, hs⟩]
      exact (ih (hchildren child hmem)).mpr ⟨n, hn, hss⟩

theorem hasSubscriber_iff {node : TopicNode} {p : List CString} {a : SockaddrIn} :
    node.HasSubscriber p a ↔ ∃ n, node.At p n ∧ a ∈ n.subscribers := by
  induction p generalizing node with
  | nil => simp [HasSubscriber, At]
  | cons s p ih =>
    constructor
    · rintro ⟨child, hc, hs, h⟩
      obtain ⟨n, hn, ha⟩ := ih.mp h
      exact ⟨n, ⟨child, hc, hs, hn⟩, ha⟩
    · rintro ⟨n, ⟨child, hc, hs, hn⟩, ha⟩
      exact ⟨child, hc, hs, ih.mpr ⟨n, hn, ha⟩⟩

end TopicNode

open TopicNode

/-! ## One subscription -/

variable {addr : SockaddrIn} {node node' : TopicNode}

/-- **What a level of a subscription does**: the child of the segment is among the children, or is
appended to them as a new node, and goes on by itself. -/
theorem subscribeAt_inversion {s : CString} {segments : List (Option CString)}
    (h : subscribeAt addr (some s :: segments) node = some node') :
    ∃ cs i child child', node' = .mk node.segment (cs.set i child') node.subscribers ∧
      (cs = node.children ∨
        cs = node.children ++ [.mk s [] []] ∧ s ∉ node.children.map TopicNode.segment) ∧
      cs[i]? = some child ∧ subscribeAt addr segments child = some child' := by
  obtain ⟨⟨node₁, i⟩, hfind, h⟩ := Option.bind_eq_some_iff.mp h
  obtain ⟨child, hchild, h⟩ := Option.bind_eq_some_iff.mp h
  obtain ⟨child', hsub, h⟩ := Option.bind_eq_some_iff.mp h
  obtain rfl := Option.some.inj h
  rw [findOrCreateChild] at hfind
  split at hfind
  -- the child is there
  · obtain ⟨rfl, rfl⟩ := Prod.mk.inj (Option.some.inj hfind)
    exact ⟨_, _, child, child', rfl, Or.inl rfl, hchild, hsub⟩
  -- it is created
  · rename_i hnone
    obtain ⟨rfl, rfl⟩ := Prod.mk.inj (Option.some.inj hfind)
    refine ⟨_, _, child, child', rfl, Or.inr ⟨rfl, ?_⟩, hchild, hsub⟩
    simpa using hnone

theorem everywhere_tidy_leaf (s : CString) : (TopicNode.mk s [] []).Everywhere Tidy :=
  everywhere_iff.mpr ⟨⟨List.nodup_nil, List.nodup_nil⟩, fun child hc => by cases hc⟩

/-- A subscription keeps the tree tidy. -/
theorem everywhere_tidy_subscribeAt {segments : List (Option CString)}
    (h : subscribeAt addr segments node = some node') (ht : node.Everywhere Tidy) :
    node'.Everywhere Tidy := by
  induction segments generalizing node node' with
  | nil =>
    obtain ⟨⟨hd, hss⟩, hchildren⟩ := everywhere_iff.mp ht
    simp only [subscribeAt] at h
    split at h
    · obtain rfl := Option.some.inj h
      exact ht
    · rename_i hmem
      obtain rfl := Option.some.inj h
      exact everywhere_iff.mpr ⟨⟨hd, List.nodup_cons.mpr ⟨hmem, hss⟩⟩, hchildren⟩
  | cons segment segments ih =>
    cases segment with
    | none => cases h
    | some s =>
      obtain ⟨cs, i, child, child', rfl, hcs, hchild, hsub⟩ := subscribeAt_inversion h
      obtain ⟨⟨hd, hss⟩, hchildren⟩ := everywhere_iff.mp ht
      -- before the child goes on, its level is tidy
      have hdistinct : (cs.map TopicNode.segment).Nodup := by
        rcases hcs with rfl | ⟨rfl, hs⟩
        · exact hd
        · rw [List.map_append, List.nodup_append]
          refine ⟨hd, List.nodup_singleton s, ?_⟩
          rintro s₁ hs₁ s₂ hs₂ rfl
          obtain rfl : s₁ = s := by simpa using hs₂
          exact hs hs₁
      have htidy : ∀ c ∈ cs, c.Everywhere Tidy := by
        intro c hc
        rcases hcs with rfl | ⟨rfl, -⟩
        · exact hchildren c hc
        · rcases List.mem_append.mp hc with hc | hc
          · exact hchildren c hc
          · rw [List.mem_singleton.mp hc]
            exact everywhere_tidy_leaf s
      obtain ⟨hi, rfl⟩ := List.getElem?_eq_some_iff.mp hchild
      -- the child keeps its segment, and is tidy by induction
      have hsegs : (cs.set i child').map TopicNode.segment = cs.map TopicNode.segment := by
        rw [List.map_set, segment_subscribeAt hsub]
        apply List.ext_getElem
        · simp
        · intro j h₁ h₂
          rw [List.getElem_set]
          split <;> simp_all
      refine everywhere_iff.mpr ⟨⟨?_, hss⟩, fun c hc => ?_⟩
      · rw [DistinctChildren, children_mk, hsegs]
        exact hdistinct
      · rcases List.mem_or_eq_of_mem_set hc with hc | rfl
        · exact htidy c hc
        · exact ih hsub (htidy _ (List.getElem_mem hi))

/-- **The subscribers at the end of every path, after a subscription**: those at the end of its own
path have its address, on the way there are nodes without subscribers if there were none, and
elsewhere nothing has changed. -/
theorem subscribersAt_subscribeAt {path : List CString}
    (h : subscribeAt addr (path.map some) node = some node') (p : List CString) :
    node'.subscribersAt p =
      if p = path then
        let ss := (node.subscribersAt p).getD []
        some (if addr ∈ ss then ss else addr :: ss)
      else if p <+: path then some ((node.subscribersAt p).getD [])
      else node.subscribersAt p := by
  induction path generalizing node node' p with
  | nil =>
    simp only [List.map_nil, subscribeAt] at h
    cases p with
    | nil =>
      rw [if_pos rfl]
      simp only [subscribersAt, Option.getD_some]
      split at h <;> obtain rfl := Option.some.inj h
      · rename_i hmem
        simp [hmem]
      · rename_i hmem
        simp [hmem]
    | cons s p =>
      -- the children are the same
      rw [if_neg (List.cons_ne_nil s p), if_neg (by simp)]
      split at h <;> obtain rfl := Option.some.inj h <;> rfl
  | cons s path ih =>
    obtain ⟨hss, child', hsub, hchild⟩ := child?_subscribeAt h
    cases p with
    | nil =>
      rw [if_neg (List.cons_ne_nil s path).symm, if_pos (List.nil_prefix)]
      simp only [subscribersAt, hss, Option.getD_some]
    | cons s' p =>
      rw [subscribersAt, hchild]
      by_cases hs : s' = s
      · subst hs
        -- a new child has no subscribers, and nothing below it
        have hleaf : ((node.child? s').getD (.mk s' [] [])).subscribersAt p =
            if p = [] then some ((node.subscribersAt (s' :: p)).getD [])
            else node.subscribersAt (s' :: p) := by
          rw [subscribersAt]
          cases hc : node.child? s' with
          | some c =>
            cases p with
            | nil => simp [subscribersAt]
            | cons s p => simp
          | none =>
            cases p with
            | nil => simp [subscribersAt]
            | cons s p => simp [subscribersAt, child?]
        rw [if_pos rfl, Option.bind_some, ih hsub, hleaf]
        simp only [List.cons.injEq, true_and, List.cons_prefix_cons]
        by_cases hp : p = []
        · subst hp
          simp
        · rw [if_neg hp]
      · have hne : s' :: p ≠ s :: path := fun heq => hs (List.cons.inj heq).1
        have hpre : ¬ s' :: p <+: s :: path := fun hpre => hs (List.cons_prefix_cons.mp hpre).1
        rw [if_neg hs, if_neg hne, if_neg hpre, subscribersAt]

theorem isSome_subscribersAt_subscribeAt {path : List CString}
    (h : subscribeAt addr (path.map some) node = some node') (p : List CString) :
    (node'.subscribersAt p).isSome ↔ (node.subscribersAt p).isSome ∨ p <+: path := by
  rw [subscribersAt_subscribeAt h p]
  by_cases hp : p = path
  · subst hp
    simp
  · by_cases hpre : p <+: path
    · simp [hp, hpre]
    · simp [hp, hpre]

/-! ## Every sequence of subscriptions -/

/-- **What the tree is after a sequence of subscriptions.** -/
structure Represents (calls : List (CString × SockaddrIn)) (root : TopicNode) : Prop where
  /-- No two children of a node have the same segment. -/
  distinct : ∀ p n, root.At p n → (n.children.map TopicNode.segment).Nodup
  /-- The paths from the root are the prefixes of the filters. -/
  path_iff : ∀ p, (∃ n, root.At p n) ↔ p = [] ∨ ∃ c ∈ calls, p <+: c.1.segments slash
  /-- No address is registered twice at a node. -/
  nodup : ∀ p n, root.At p n → n.subscribers.Nodup
  /-- An address is registered at the end of a path exactly when it was subscribed to it. -/
  mem_iff : ∀ p n a, root.At p n →
    (a ∈ n.subscribers ↔ ∃ f, (f, a) ∈ calls ∧ f.segments slash = p)

/-- **What one subscription changes**: the nodes stay, with the subscribers they had except at the
end of the path, and new ones stand on the path only. -/
structure OnlyAlong (path : List CString) (root root' : TopicNode) : Prop where
  kept : ∀ p n, root.At p n →
    ∃ n', root'.At p n' ∧ (p ≠ path → n'.subscribers = n.subscribers)
  added : ∀ p n', root'.At p n' →
    (∃ n, root.At p n) ∨ p <+: path ∧ (p ≠ path → n'.subscribers = [])

variable {calls : List (CString × SockaddrIn)} {root root' : TopicNode}

/-- After a sequence of well-formed subscriptions the tree is tidy, its paths are the prefixes of
the filters, and every address is registered where it was subscribed. -/
theorem tidy_subscribeAll (hf : ∀ c ∈ calls, WellFormedTopic c.1)
    (h : subscribeAll calls = some root) :
    root.Everywhere Tidy ∧
      (∀ p, (root.subscribersAt p).isSome ↔
        p = [] ∨ ∃ c ∈ calls, p <+: c.1.segments slash) ∧
      ∀ c ∈ calls, root.Registered c.2 (c.1.segments slash) := by
  refine EventLoop.execute_history_induction (C := fun _ c => WellFormedTopic c.1)
    (P := fun calls root => root.Everywhere Tidy ∧
      (∀ p, (root.subscribersAt p).isSome ↔ p = [] ∨ ∃ c ∈ calls, p <+: c.1.segments slash) ∧
      ∀ c ∈ calls, root.Registered c.2 (c.1.segments slash)) h ?_ ?_ ?_
  · intro xs c _ hpre _
    exact hf c (hpre.subset (by simp))
  · refine ⟨everywhere_tidy_leaf _, fun p => ?_, by simp⟩
    cases p <;> simp [subscribersAt, initTopicTable, child?]
  · rintro xs c root₁ root₂ hc hs ⟨htidy, hpaths, hreg⟩
    rw [subscribeTopic, splitTopic_of_wellFormed hc] at hs
    refine ⟨everywhere_tidy_subscribeAt hs htidy, fun p => ?_, fun c' hc' => ?_⟩
    · rw [isSome_subscribersAt_subscribeAt hs, hpaths]
      simp only [List.mem_append, List.mem_singleton, or_and_right, exists_or, exists_eq_left,
        or_assoc]
    · rcases List.mem_append.mp hc' with hc' | hc'
      · exact (hreg c' hc').subscribeAt hs
      · rw [List.mem_singleton.mp hc']
        exact registered_subscribeAt hs

theorem distinctChildren_of_tidy (h : root.Everywhere Tidy) : root.Everywhere DistinctChildren :=
  fun p n hn => (h p n hn).1

/-- A path leads to a node exactly when the walk along it finds one. -/
theorem exists_at_iff (h : root.Everywhere Tidy) (p : List CString) :
    (∃ n, root.At p n) ↔ (root.subscribersAt p).isSome := by
  rw [Option.isSome_iff_exists]
  simp only [subscribersAt_eq_some_iff (distinctChildren_of_tidy h)]
  constructor
  · rintro ⟨n, hn⟩
    exact ⟨n.subscribers, n, hn, rfl⟩
  · rintro ⟨_, n, hn, -⟩
    exact ⟨n, hn⟩

/-- Two nodes at the end of one path have the same subscribers. -/
theorem subscribers_eq_of_at (h : root.Everywhere Tidy) {p : List CString} {n n' : TopicNode}
    (hn : root.At p n) (hn' : root.At p n') : n.subscribers = n'.subscribers := by
  have hd := distinctChildren_of_tidy h
  have h₁ := (subscribersAt_eq_some_iff hd).mpr ⟨n, hn, rfl⟩
  have h₂ := (subscribersAt_eq_some_iff hd).mpr ⟨n', hn', rfl⟩
  exact Option.some.inj (h₁.symm.trans h₂)

theorem represents_subscribeAll (hf : ∀ c ∈ calls, WellFormedTopic c.1)
    (h : subscribeAll calls = some root) : Represents calls root := by
  obtain ⟨htidy, hpaths, -⟩ := tidy_subscribeAll hf h
  obtain ⟨root₁, h₁, -, hpairs⟩ := hasSubscriber_subscribeAll calls hf
  obtain rfl := Option.some.inj (h₁.symm.trans h)
  refine ⟨fun p n hn => (htidy p n hn).1, fun p => ?_, fun p n hn => (htidy p n hn).2, ?_⟩
  · rw [exists_at_iff htidy, hpaths]
  · intro p n a hn
    constructor
    · intro ha
      obtain ⟨f, hf, hp⟩ := (hpairs p a).mp (hasSubscriber_iff.mpr ⟨n, hn, ha⟩)
      exact ⟨f, hf, hp.symm⟩
    · rintro ⟨f, hf, rfl⟩
      obtain ⟨n', hn', ha⟩ := hasSubscriber_iff.mp ((hpairs _ a).mpr ⟨f, hf, rfl⟩)
      rwa [subscribers_eq_of_at htidy hn hn']

/-- One subscription changes the subscribers at the end of its path and adds nodes along it. -/
theorem onlyAlong_subscribeAt {path : List CString} (htidy : root.Everywhere Tidy)
    (h : subscribeAt addr (path.map some) root = some root') : OnlyAlong path root root' := by
  have hd := distinctChildren_of_tidy htidy
  have hd' := distinctChildren_of_tidy (everywhere_tidy_subscribeAt h htidy)
  have hsubs := subscribersAt_subscribeAt h
  constructor
  · intro p n hn
    have hp := (subscribersAt_eq_some_iff hd).mpr ⟨n, hn, rfl⟩
    -- the walk in the new tree ends at a node as well
    obtain ⟨ss, hss⟩ := Option.isSome_iff_exists.mp
      ((isSome_subscribersAt_subscribeAt h p).mpr (Or.inl (by rw [hp]; rfl)))
    obtain ⟨n', hn', rfl⟩ := (subscribersAt_eq_some_iff hd').mp hss
    refine ⟨n', hn', fun hne => ?_⟩
    rw [hsubs, if_neg hne, hp, Option.getD_some, ite_self] at hss
    exact (Option.some.inj hss).symm
  · intro p n' hn'
    have hp' := (subscribersAt_eq_some_iff hd').mpr ⟨n', hn', rfl⟩
    cases hp : root.subscribersAt p with
    | some ss =>
      obtain ⟨n, hn, -⟩ := (subscribersAt_eq_some_iff hd).mp hp
      exact Or.inl ⟨n, hn⟩
    | none =>
      have hpre : p <+: path := by
        have hsome := (isSome_subscribersAt_subscribeAt h p).mp (by rw [hp']; rfl)
        simpa [hp] using hsome
      refine Or.inr ⟨hpre, fun hne => ?_⟩
      rw [hsubs, if_neg hne, if_pos hpre, hp, Option.getD_none] at hp'
      exact (Option.some.inj hp').symm

/-- **The invariant of the topic tree**: after every sequence of subscriptions to filters with
non-empty segments, the tree represents them; a further one changes it along its own path only; and
one that was made before leaves it as it is. -/
theorem topicTree_represents (calls : List (CString × SockaddrIn))
    (hf : ∀ c ∈ calls, WellFormedTopic c.1) :
    ∃ root, subscribeAll calls = some root ∧ Represents calls root ∧
      (∀ f addr, WellFormedTopic f → ∃ root', subscribeTopic root f addr = some root' ∧
        OnlyAlong (f.segments slash) root root') ∧
      ∀ c ∈ calls, subscribeTopic root c.1 c.2 = some root := by
  obtain ⟨root, h, -⟩ := hasSubscriber_subscribeAll calls hf
  obtain ⟨htidy, -, hreg⟩ := tidy_subscribeAll hf h
  refine ⟨root, h, represents_subscribeAll hf h, ?_, ?_⟩
  · intro f addr hf'
    obtain ⟨root', h', -⟩ := subscribeTopic_of_wellFormed root addr hf'
    refine ⟨root', h', ?_⟩
    rw [subscribeTopic, splitTopic_of_wellFormed hf'] at h'
    exact onlyAlong_subscribeAt htidy h'
  · intro c hc
    rw [subscribeTopic, splitTopic_of_wellFormed (hf c hc)]
    exact subscribeAt_of_registered (hreg c hc)

/-- A filter, a longer one, and one with a wildcard between them. -/
theorem topicTree_represents_nested :
    ∃ root, subscribeAll [(⟨[97], by decide⟩, ⟨2, 80, 1, 0⟩),
        (⟨[97, 47, 98], by decide⟩, ⟨2, 80, 1, 0⟩),
        (⟨[97, 47, 43, 47, 98], by decide⟩, ⟨2, 81, 1, 0⟩)] = some root ∧
      Represents [(⟨[97], by decide⟩, ⟨2, 80, 1, 0⟩), (⟨[97, 47, 98], by decide⟩, ⟨2, 80, 1, 0⟩),
        (⟨[97, 47, 43, 47, 98], by decide⟩, ⟨2, 81, 1, 0⟩)] root ∧
      (∀ f addr, WellFormedTopic f → ∃ root', subscribeTopic root f addr = some root' ∧
        OnlyAlong (f.segments slash) root root') ∧
      ∀ c ∈ [(⟨[97], by decide⟩, ⟨2, 80, 1, 0⟩), (⟨[97, 47, 98], by decide⟩, ⟨2, 80, 1, 0⟩),
        ((⟨[97, 47, 43, 47, 98], by decide⟩ : CString), (⟨2, 81, 1, 0⟩ : SockaddrIn))],
        subscribeTopic root c.1 c.2 = some root :=
  topicTree_represents _ (by decide)

end SlimMQ
