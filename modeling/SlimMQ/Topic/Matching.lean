import Mathlib.Data.List.Induction
import Mathlib.Data.List.Nodup
import SlimMQ.Library.Wildcard
import SlimMQ.Topic.Split

/-!
# Subscriptions and matching

What the tree of topics stands for is the set of subscribed pairs: `HasSubscriber node p a` says
that `a` is registered at the end of the path `p` below `node`. A subscription adds one pair to
it, and the matcher collects the pairs whose path matches, each address once; so the result of a
match is told from the sequence of subscriptions alone.

## Main definitions

* `TopicNode.HasSubscriber`: the pairs a tree stands for
* `subscribeAll`: the tree after a sequence of subscriptions
* `SubscriberList.Valid`, `Extends`: a result list without repetitions, and what a step adds to it
* `NeverNull`: a topic string never brings a null segment to a comparison or a copy
* `ParentIncluded`: a subscriber of `p/#` gets the messages of `p` and of all topics below

## Main results

* `hasSubscriber_subscribeAt`: a subscription adds its own pair and nothing else
* `matchRecursive_extends`: the matcher adds the addresses of the matching paths
* `matchRecursive_sound`: and no others, whatever the topic
* `getMatchingSubscribers_iff`: matching is sound, complete and free of duplicates
* `neverNull_iff`: a topic string is handled exactly when none of its segments is empty
* `parentIncluded_iff`: `p/#` is matched by all topics below `p`, and by `p` itself never
-/

namespace SlimMQ

open Buffer Wildcard

/-! ## The pairs of a tree -/

/-- The address `a` is registered at the end of the path `p` below the node. -/
def TopicNode.HasSubscriber : TopicNode → List CString → SockaddrIn → Prop
  | node, [], a => a ∈ node.subscribers
  | node, s :: p, a => ∃ child ∈ node.children, child.segment = s ∧ child.HasSubscriber p a

/-- An element replaced in place changes what the list holds by what it changes itself. -/
theorem exists_mem_set_iff {α : Type} {l : List α} {i : ℕ} {x y : α} {P : α → Prop} {Q : Prop}
    (hx : l[i]? = some x) (hy : P y ↔ P x ∨ Q) :
    (∃ z ∈ l.set i y, P z) ↔ (∃ z ∈ l, P z) ∨ Q := by
  obtain ⟨hi, rfl⟩ := List.getElem?_eq_some_iff.mp hx
  rw [List.set_eq_take_append_cons_drop, if_pos hi]
  -- cut both lists at the place `i`
  conv_rhs => rw [← List.take_append_drop i l, List.drop_eq_getElem_cons hi]
  simp only [List.mem_append, List.mem_cons, or_and_right, exists_or, exists_eq_left, hy]
  constructor
  · rintro (h | (h | h) | h)
    · exact Or.inl (Or.inl h)
    · exact Or.inl (Or.inr (Or.inl h))
    · exact Or.inr h
    · exact Or.inl (Or.inr (Or.inr h))
  · rintro ((h | h | h) | h)
    · exact Or.inl h
    · exact Or.inr (Or.inl (Or.inl h))
    · exact Or.inr (Or.inr h)
    · exact Or.inr (Or.inl (Or.inr h))

/-- The child for a segment is found or appended; a new child brings no pair. -/
theorem findOrCreateChild_some (node : TopicNode) (s : CString) :
    ∃ node' i child, findOrCreateChild node (some s) = some (node', i) ∧
      node'.children[i]? = some child ∧ child.segment = s ∧ node'.segment = node.segment ∧
      ∀ p a, node'.HasSubscriber p a ↔ node.HasSubscriber p a := by
  cases hf : node.children.findIdx? (·.segment = s) with
  | some i =>
    -- the child is there
    obtain ⟨hi, hp, -⟩ := List.findIdx?_eq_some_iff_getElem.mp hf
    exact ⟨node, i, node.children[i], by simp only [findOrCreateChild, hf],
      List.getElem?_eq_getElem hi, by simpa using hp, rfl, fun _ _ => Iff.rfl⟩
  | none =>
    -- it is appended, without subscribers and children
    refine ⟨.mk node.segment (node.children ++ [.mk s [] []]) node.subscribers,
      node.children.length, .mk s [] [], by simp only [findOrCreateChild, hf], by simp, rfl, rfl,
      fun p a => ?_⟩
    cases p with
    | nil => rfl
    | cons s' p =>
      have hnew : ¬ (TopicNode.mk s [] []).HasSubscriber p a := by
        cases p <;> simp [TopicNode.HasSubscriber]
      simp only [TopicNode.HasSubscriber, TopicNode.children_mk, List.mem_append,
        List.mem_singleton, or_and_right, exists_or, exists_eq_left, hnew, and_false, or_false]

/-- **A subscription adds its own pair and nothing else.** -/
theorem hasSubscriber_subscribeAt (addr : SockaddrIn) (path : List CString) (node : TopicNode) :
    ∃ node', subscribeAt addr (path.map some) node = some node' ∧
      node'.segment = node.segment ∧
      ∀ p a, node'.HasSubscriber p a ↔ node.HasSubscriber p a ∨ (p = path ∧ a = addr) := by
  induction path generalizing node with
  | nil =>
    -- the end of the path: a repeated subscription changes nothing
    by_cases hmem : addr ∈ node.subscribers
    · refine ⟨node, by simp [subscribeAt, hmem], rfl, fun p a => ?_⟩
      constructor
      · exact Or.inl
      · rintro (h | ⟨rfl, rfl⟩)
        · exact h
        · exact hmem
    · refine ⟨.mk node.segment node.children (addr :: node.subscribers),
        by simp [subscribeAt, hmem], rfl, fun p a => ?_⟩
      cases p with
      | nil => simp [TopicNode.HasSubscriber, or_comm]
      | cons s p => simp [TopicNode.HasSubscriber]
  | cons s path ih =>
    -- one level down, and the child put back in its place
    obtain ⟨node', i, child, hfind, hchild, hseg, hroot, hpairs⟩ := findOrCreateChild_some node s
    obtain ⟨child', hsub, hseg', hpairs'⟩ := ih child
    refine ⟨.mk node'.segment (node'.children.set i child') node'.subscribers,
      by simp [subscribeAt, hfind, hchild, hsub], hroot, fun p a => ?_⟩
    rw [← hpairs]
    cases p with
    | nil => simp [TopicNode.HasSubscriber]
    | cons s' p =>
      refine exists_mem_set_iff (P := fun c => c.segment = s' ∧ c.HasSubscriber p a) hchild ?_
      rw [hpairs', hseg', hseg]
      simp only [List.cons.injEq, and_or_left, and_assoc, eq_comm (a := s)]

/-! ## The matcher -/

namespace SubscriberList

/-- A result list without repetitions, with its length in `count`. -/
structure Valid (r : SubscriberList) : Prop where
  nodup : r.entries.Nodup
  count_eq : r.count = r.entries.length

/-- The list `r'` holds the addresses of `r` and those in `Q`, and is valid if `r` is. -/
structure Extends (r r' : SubscriberList) (Q : SockaddrIn → Prop) : Prop where
  mem_iff : ∀ a, a ∈ r'.entries ↔ a ∈ r.entries ∨ Q a
  valid : r.Valid → r'.Valid

theorem Extends.refl (r : SubscriberList) : Extends r r fun _ => False :=
  ⟨fun _ => by simp, id⟩

theorem Extends.trans {r r' r'' : SubscriberList} {Q Q' : SockaddrIn → Prop}
    (h : Extends r r' Q) (h' : Extends r' r'' Q') : Extends r r'' fun a => Q a ∨ Q' a :=
  ⟨fun a => by rw [h'.mem_iff, h.mem_iff, or_assoc], h'.valid ∘ h.valid⟩

theorem Extends.congr {r r' : SubscriberList} {Q Q' : SockaddrIn → Prop} (h : Extends r r' Q)
    (hq : ∀ a, Q a ↔ Q' a) : Extends r r' Q' :=
  ⟨fun a => by rw [h.mem_iff, hq], h.valid⟩

end SubscriberList

open SubscriberList

theorem collectSubscribers_extends (subscribers : List SockaddrIn) (r : SubscriberList) :
    Extends r (collectSubscribers r subscribers) (· ∈ subscribers) := by
  induction subscribers generalizing r with
  | nil => exact (Extends.refl r).congr fun a => by simp
  | cons b bs ih =>
    -- one turn of the loop adds `b`
    have hb : Extends r (if b ∈ r.entries then r else ⟨b :: r.entries, r.count + 1⟩) (· = b) := by
      split
      · rename_i hmem
        refine ⟨fun a => ⟨Or.inl, ?_⟩, id⟩
        rintro (h | rfl)
        · exact h
        · exact hmem
      · rename_i hmem
        refine ⟨fun a => by simp [or_comm], fun hv => ?_⟩
        exact ⟨List.nodup_cons.mpr ⟨hmem, hv.nodup⟩, by simp [hv.count_eq]⟩
    exact (hb.trans (ih _)).congr fun a => by simp

/-- A loop over children that extends the result at each of them extends it at all. -/
theorem foldlM_extends {α : Type} {f : SubscriberList → α → Option SubscriberList}
    {Q : α → SockaddrIn → Prop} (cs : List α)
    (h : ∀ c ∈ cs, ∀ r, ∃ r', f r c = some r' ∧ Extends r r' (Q c)) (r : SubscriberList) :
    ∃ r', cs.foldlM f r = some r' ∧ Extends r r' fun a => ∃ c ∈ cs, Q c a := by
  induction cs generalizing r with
  | nil => exact ⟨r, rfl, (Extends.refl r).congr fun a => by simp⟩
  | cons c cs ih =>
    -- the first child, then the others
    obtain ⟨r₁, h₁, e₁⟩ := h c List.mem_cons_self r
    obtain ⟨r₂, h₂, e₂⟩ := ih (fun c' hc' => h c' (List.mem_cons_of_mem c hc')) r₁
    refine ⟨r₂, by simp [h₁, h₂], (e₁.trans e₂).congr fun a => by simp⟩

/-- **The matcher adds the addresses of the paths that match**, counted from a node that may
itself be the multi-level wildcard. -/
theorem matchRecursive_extends (segments : List CString) (node : TopicNode)
    (r : SubscriberList) :
    ∃ r', matchRecursive (segments.map some) node r = some r' ∧
      Extends r r' fun a => ∃ p, node.HasSubscriber p a ∧
        Descends plus hash (node.segment = hash) p segments := by
  induction segments generalizing node r with
  | nil =>
    -- no level is left, so the path must end here
    refine ⟨_, rfl, (collectSubscribers_extends node.subscribers r).congr fun a => ?_⟩
    constructor
    · exact fun h => ⟨[], h, Or.inl rfl⟩
    · rintro ⟨p, hp, hd⟩
      cases p with
      | nil => exact hp
      | cons s p => exact hd.elim
  | cons segment segments ih =>
    -- what the node itself adds, when it is the wildcard
    have hcollect : Extends r
        (if node.segment = hash then collectSubscribers r node.subscribers else r)
        fun a => node.segment = hash ∧ a ∈ node.subscribers := by
      split
      · rename_i hh
        exact (collectSubscribers_extends _ r).congr fun a => by simp [hh]
      · rename_i hh
        exact (Extends.refl r).congr fun a => by simp [hh]
    -- what its children add, by induction
    obtain ⟨r', hr', hext⟩ := foldlM_extends
      (f := fun r child => do
        if ← segmentMatches child (some segment) then
          matchRecursive (segments.map some) child r else some r)
      (Q := fun child a => Admits plus hash child.segment segment ∧
        ∃ p, child.HasSubscriber p a ∧ Descends plus hash (child.segment = hash) p segments)
      node.children (fun child _ r => by
        have hm : segmentMatches child (some segment) =
            some (decide (Admits plus hash child.segment segment)) := rfl
        by_cases ha : Admits plus hash child.segment segment
        · obtain ⟨r', h', e'⟩ := ih child r
          exact ⟨r', by simp [hm, ha, h'], e'.congr fun a => by simp [ha]⟩
        · exact ⟨r, by simp [hm, ha], (Extends.refl r).congr fun a => by simp [ha]⟩)
      (if node.segment = hash then collectSubscribers r node.subscribers else r)
    -- a path ends at the node, or goes through one of its children
    refine ⟨r', hr', (hcollect.trans hext).congr fun a => ?_⟩
    constructor
    · rintro (⟨hh, ha⟩ | ⟨child, hc, hm, p, hp, hd⟩)
      · exact ⟨[], ha, Or.inr hh⟩
      · exact ⟨child.segment :: p, ⟨child, hc, rfl, hp⟩, hm, hd⟩
    · rintro ⟨p, hp, hd⟩
      cases p with
      | nil => exact Or.inl ⟨hd.resolve_left (List.cons_ne_nil _ _), hp⟩
      | cons s p =>
        obtain ⟨child, hc, rfl, hp⟩ := hp
        exact Or.inr ⟨child, hc, hd.1, p, hp, hd.2⟩

/-- A list without repetitions passes the loop of `remove_duplicates` unchanged. -/
theorem removeDuplicatesFrom_of_nodup (kept next : List SockaddrIn) (count : ℕ)
    (h : (kept ++ next).Nodup) : removeDuplicatesFrom kept next count = ⟨kept ++ next, count⟩ := by
  induction next generalizing kept with
  | nil => simp [removeDuplicatesFrom]
  | cons a next ih =>
    have ha : a ∉ kept := fun hmem =>
      List.disjoint_of_nodup_append h hmem List.mem_cons_self
    rw [removeDuplicatesFrom, if_neg ha, ih _ (by simpa using h)]
    simp

/-- **The matching subscribers of a well-formed topic**, in any tree: a valid list of exactly the
addresses registered at a path that matches. -/
theorem getMatchingSubscribers_spec (root : TopicNode) (hroot : root.segment ≠ hash)
    {t : CString} (ht : WellFormedTopic t) :
    ∃ list, getMatchingSubscribers root t = some list ∧ list.Valid ∧
      ∀ a, a ∈ list.entries ↔ ∃ p, root.HasSubscriber p a ∧
        Matches plus hash p (t.segments slash) := by
  obtain ⟨r, hr, hext⟩ := matchRecursive_extends (t.segments slash) root ⟨[], 0⟩
  have hv : r.Valid := hext.valid ⟨List.nodup_nil, rfl⟩
  -- the matcher has left nothing to remove
  have hid : removeDuplicates r = r := by
    rw [removeDuplicates, removeDuplicatesFrom_of_nodup [] _ _ (by simpa using hv.nodup)]
    simp
  refine ⟨r, by rw [getMatchingSubscribers, splitTopic_of_wellFormed ht, hr, Option.map_some, hid],
    hv, fun a => ?_⟩
  rw [hext.mem_iff]
  simp [hroot, descends_false_iff]

/-! ## Topics with empty segments -/

/-- A loop over children adds no more than the steps that it makes. -/
theorem foldlM_sound {α : Type} {f : SubscriberList → α → Option SubscriberList}
    {Q : α → SockaddrIn → Prop} {cs : List α}
    (hf : ∀ c ∈ cs, ∀ r r', f r c = some r' → ∀ a ∈ r'.entries, a ∈ r.entries ∨ Q c a)
    {r r' : SubscriberList} (h : cs.foldlM f r = some r') :
    ∀ a ∈ r'.entries, a ∈ r.entries ∨ ∃ c ∈ cs, Q c a := by
  induction cs generalizing r with
  | nil =>
    obtain rfl := Option.some.inj h
    exact fun a ha => Or.inl ha
  | cons c cs ih =>
    rw [List.foldlM_cons] at h
    obtain ⟨r₁, h₁, h₂⟩ := Option.bind_eq_some_iff.mp h
    intro a ha
    rcases ih (fun c' hc' => hf c' (List.mem_cons_of_mem c hc')) h₂ a ha with ha | ⟨c', hc', hq⟩
    · exact (hf c List.mem_cons_self r r₁ h₁ a ha).imp_right fun hq => ⟨c, List.mem_cons_self, hq⟩
    · exact Or.inr ⟨c', List.mem_cons_of_mem c hc', hq⟩

/-- What a node that the matcher passes adds itself. -/
theorem mem_collected {node : TopicNode} {r : SubscriberList} {a : SockaddrIn}
    (ha : a ∈ (if node.segment = hash then collectSubscribers r node.subscribers
      else r).entries) :
    a ∈ r.entries ∨ (node.segment = hash ∧ a ∈ node.subscribers) := by
  split_ifs at ha with hh
  · exact ((collectSubscribers_extends _ r).mem_iff a |>.mp ha).imp_right fun ha => ⟨hh, ha⟩
  · exact Or.inl ha

/-- **A matcher that ends has added the addresses of matching paths only**, also for a topic whose
last segments are null. -/
theorem matchRecursive_sound {tokens : List CString} {k : ℕ} {node : TopicNode}
    {r r' : SubscriberList}
    (h : matchRecursive (tokens.map some ++ List.replicate k none) node r = some r') :
    ∀ a ∈ r'.entries, a ∈ r.entries ∨
      ∃ p, node.HasSubscriber p a ∧ Descends plus hash (node.segment = hash) p tokens := by
  induction tokens generalizing node r r' with
  | nil =>
    cases k with
    | zero =>
      obtain rfl := Option.some.inj h
      intro a ha
      exact ((collectSubscribers_extends _ r).mem_iff a |>.mp ha).imp_right
        fun ha => ⟨[], ha, Or.inl rfl⟩
    | succ k =>
      -- a child would be compared with a null segment
      intro a ha
      have hloop := foldlM_sound (Q := fun _ _ => False)
        (fun c _ r r' hc => by simp [segmentMatches] at hc) h a ha
      rcases hloop with ha | ⟨c, -, hc⟩
      · exact (mem_collected ha).imp_right fun ha => ⟨[], ha.2, Or.inl rfl⟩
      · exact hc.elim
  | cons token tokens ih =>
    intro a ha
    have hloop := foldlM_sound (Q := fun child a => Admits plus hash child.segment token ∧
        ∃ p, child.HasSubscriber p a ∧ Descends plus hash (child.segment = hash) p tokens)
      (fun child _ r r' hc a ha => by
        have hm : segmentMatches child (some token) =
            some (decide (Admits plus hash child.segment token)) := rfl
        by_cases hadm : Admits plus hash child.segment token
        · simp only [hm, hadm, decide_true, Option.bind_eq_bind, Option.bind_some, if_true] at hc
          exact (ih hc a ha).imp_right fun hp => ⟨hadm, hp⟩
        · simp only [hm, hadm, decide_false, Option.bind_eq_bind, Option.bind_some] at hc
          obtain rfl := Option.some.inj hc
          exact Or.inl ha) h a ha
    rcases hloop with ha | ⟨child, hc, hadm, p, hp, hd⟩
    · exact (mem_collected ha).imp_right fun ha => ⟨[], ha.2, Or.inr ha.1⟩
    · exact Or.inr ⟨child.segment :: p, ⟨child, hc, rfl, hp⟩, hadm, hd⟩

/-- `remove_duplicates` adds no address. -/
theorem entries_removeDuplicatesFrom_subset (kept next : List SockaddrIn) (count : ℕ) :
    (removeDuplicatesFrom kept next count).entries ⊆ kept ++ next := by
  induction next generalizing kept count with
  | nil => simp [removeDuplicatesFrom]
  | cons a next ih =>
    rw [removeDuplicatesFrom]
    split_ifs
    · apply List.Subset.trans (ih kept _)
      exact ((List.sublist_cons_self a next).append_left kept).subset
    · simpa using ih (kept ++ [a]) count

/-- **The subscribers found for any topic match its non-empty segments.** -/
theorem matches_of_mem_getMatchingSubscribers {root : TopicNode} (hroot : root.segment ≠ hash)
    {t : CString} {list : SubscriberList} (h : getMatchingSubscribers root t = some list)
    {a : SockaddrIn} (ha : a ∈ list.entries) :
    ∃ p, root.HasSubscriber p a ∧ Matches plus hash p (t.tokens slash) := by
  obtain ⟨r, hr, rfl⟩ := Option.map_eq_some_iff.mp h
  rw [splitTopic_eq] at hr
  have hmem : a ∈ r.entries := by simpa using entries_removeDuplicatesFrom_subset [] _ _ ha
  rcases matchRecursive_sound hr a hmem with hnil | ⟨p, hp, hd⟩
  · cases hnil
  · exact ⟨p, hp, (descends_false_iff _ _ _ _).mp (by simpa [hroot] using hd)⟩

/-! ## Sequences of subscriptions -/

/-- The tree after a sequence of subscriptions, from `init_topic_table` on. -/
def subscribeAll (calls : List (CString × SockaddrIn)) : Option TopicNode :=
  calls.foldlM (fun root c => subscribeTopic root c.1 c.2) initTopicTable

theorem subscribeTopic_of_wellFormed (root : TopicNode) {f : CString} (addr : SockaddrIn)
    (hf : WellFormedTopic f) :
    ∃ root', subscribeTopic root f addr = some root' ∧ root'.segment = root.segment ∧
      ∀ p a, root'.HasSubscriber p a ↔
        root.HasSubscriber p a ∨ (p = f.segments slash ∧ a = addr) := by
  rw [subscribeTopic, splitTopic_of_wellFormed hf]
  exact hasSubscriber_subscribeAt addr _ root

/-- A subscription fails exactly when its filter has an empty segment. -/
theorem subscribeTopic_eq_none_iff (root : TopicNode) (f : CString) (addr : SockaddrIn) :
    subscribeTopic root f addr = none ↔ ¬ WellFormedTopic f := by
  constructor
  · rintro h hf
    obtain ⟨root', h', -⟩ := subscribeTopic_of_wellFormed root addr hf
    rw [h] at h'
    cases h'
  · intro hf
    exact subscribeAt_eq_none addr _ root ((none_mem_splitTopic_iff f).mpr hf)

/-- A subscription keeps the segment of the root. -/
theorem segment_subscribeTopic {root root' : TopicNode} {f : CString} {addr : SockaddrIn}
    (h : subscribeTopic root f addr = some root') : root'.segment = root.segment := by
  -- it has not failed
  have hf : WellFormedTopic f := by
    by_contra hf
    rw [(subscribeTopic_eq_none_iff root f addr).mpr hf] at h
    cases h
  obtain ⟨root₁, h₁, hseg, -⟩ := subscribeTopic_of_wellFormed root addr hf
  rw [h₁] at h
  obtain rfl := Option.some.inj h
  exact hseg

/-- What the tree holds after a sequence of well-formed subscriptions. -/
theorem hasSubscriber_subscribeAll (calls : List (CString × SockaddrIn))
    (hf : ∀ c ∈ calls, WellFormedTopic c.1) :
    ∃ root, subscribeAll calls = some root ∧ root.segment = CString.empty ∧
      ∀ p a, root.HasSubscriber p a ↔ ∃ f, (f, a) ∈ calls ∧ p = f.segments slash := by
  induction calls using List.reverseRecOn with
  | nil =>
    refine ⟨initTopicTable, rfl, rfl, ?_⟩
    intro p a
    cases p <;> simp [TopicNode.HasSubscriber, initTopicTable]
  | append_singleton calls c ih =>
    -- the last subscription adds its pair to those before
    obtain ⟨root, hroot, hseg, hpairs⟩ := ih fun c' hc' => hf c' (List.mem_append_left _ hc')
    obtain ⟨root', hsub, hseg', hpairs'⟩ :=
      subscribeTopic_of_wellFormed root c.2 (hf c (by simp))
    refine ⟨root', ?_, hseg'.trans hseg, ?_⟩
    · rw [subscribeAll] at hroot ⊢
      rw [List.foldlM_append, hroot]
      simp [hsub]
    · intro p a
      rw [hpairs', hpairs]
      obtain ⟨f, b⟩ := c
      constructor
      · rintro (⟨f', hf', hp⟩ | ⟨hp, rfl⟩)
        · exact ⟨f', List.mem_append_left _ hf', hp⟩
        · exact ⟨f, by simp, hp⟩
      · rintro ⟨f', hf', hp⟩
        rcases List.mem_append.mp hf' with hf' | hf'
        · exact Or.inl ⟨f', hf', hp⟩
        · obtain ⟨rfl, rfl⟩ := Prod.mk.inj (List.mem_singleton.mp hf')
          exact Or.inr ⟨hp, rfl⟩

theorem empty_ne_hash : CString.empty ≠ hash := by decide

/-- **Topic matching is sound, complete and free of duplicates**: after any sequence of
subscriptions, the subscribers found for a topic are exactly the addresses with a matching filter,
each once, and `count` is their number. -/
theorem getMatchingSubscribers_iff (calls : List (CString × SockaddrIn))
    (hf : ∀ c ∈ calls, WellFormedTopic c.1) (t : CString) (ht : WellFormedTopic t) :
    ∃ root list, subscribeAll calls = some root ∧ getMatchingSubscribers root t = some list ∧
      list.entries.Nodup ∧ list.count = list.entries.length ∧
      ∀ a, a ∈ list.entries ↔
        ∃ f, (f, a) ∈ calls ∧ Matches plus hash (f.segments slash) (t.segments slash) := by
  obtain ⟨root, hroot, hseg, hpairs⟩ := hasSubscriber_subscribeAll calls hf
  obtain ⟨list, hlist, hv, hmem⟩ :=
    getMatchingSubscribers_spec root (by rw [hseg]; exact empty_ne_hash) ht
  refine ⟨root, list, hroot, hlist, hv.nodup, hv.count_eq, ?_⟩
  intro a
  rw [hmem]
  constructor
  · rintro ⟨p, hp, hm⟩
    obtain ⟨f, hf', rfl⟩ := (hpairs p a).mp hp
    exact ⟨f, hf', hm⟩
  · rintro ⟨f, hf', hm⟩
    exact ⟨_, (hpairs _ a).mpr ⟨f, hf', rfl⟩, hm⟩

/-- Two filters of one address, with each wildcard once, and a topic that both match. -/
theorem getMatchingSubscribers_iff_overlap :
    ∃ root list, subscribeAll [(⟨[97, 47, 43], by decide⟩, ⟨2, 80, 1, 0⟩),
        (⟨[97, 47, 35], by decide⟩, ⟨2, 80, 1, 0⟩)] = some root ∧
      getMatchingSubscribers root ⟨[97, 47, 98], by decide⟩ = some list ∧
      list.entries.Nodup ∧ list.count = list.entries.length ∧
      ∀ a, a ∈ list.entries ↔ ∃ f, (f, a) ∈ [(⟨[97, 47, 43], by decide⟩, ⟨2, 80, 1, 0⟩),
          ((⟨[97, 47, 35], by decide⟩ : CString), (⟨2, 80, 1, 0⟩ : SockaddrIn))] ∧
        Matches plus hash (f.segments slash)
          ((⟨[97, 47, 98], by decide⟩ : CString).segments slash) :=
  getMatchingSubscribers_iff _ (by decide) _ (by decide)

/-! ## Null segments -/

/-- **A topic string brings no null segment to `strcmp` or `strdup`**: `split_topic` leaves no
null entry, and in no tree that subscriptions can build do the table's operations fail on it. -/
def NeverNull (t : CString) : Prop :=
  none ∉ splitTopic t ∧
    ∀ calls root, subscribeAll calls = some root →
      (∀ addr, (subscribeTopic root t addr).isSome) ∧ (getMatchingSubscribers root t).isSome

/-- In every tree that subscriptions can build, the root keeps its empty segment. -/
theorem segment_subscribeAll {calls : List (CString × SockaddrIn)} {root : TopicNode}
    (h : subscribeAll calls = some root) : root.segment = CString.empty := by
  induction calls using List.reverseRecOn generalizing root with
  | nil =>
    obtain rfl := Option.some.inj h
    rfl
  | append_singleton calls c ih =>
    rw [subscribeAll, List.foldlM_append] at h
    obtain ⟨root₀, h₀, h₁⟩ := Option.bind_eq_some_iff.mp h
    have h₁ : subscribeTopic root₀ c.1 c.2 = some root := by simpa using h₁
    exact (segment_subscribeTopic h₁).trans (ih h₀)

/-- **A topic string is handled exactly when none of its segments is empty.** -/
theorem neverNull_iff (t : CString) : NeverNull t ↔ WellFormedTopic t := by
  constructor
  · rintro ⟨hnull, -⟩
    by_contra ht
    exact hnull ((none_mem_splitTopic_iff t).mpr ht)
  · intro ht
    refine ⟨fun hnull => (none_mem_splitTopic_iff t).mp hnull ht, ?_⟩
    intro calls root hroot
    constructor
    · intro addr
      obtain ⟨root', h', -⟩ := subscribeTopic_of_wellFormed root addr ht
      simp [h']
    · obtain ⟨list, hlist, -⟩ := getMatchingSubscribers_spec root
        (by rw [segment_subscribeAll hroot]; exact empty_ne_hash) ht
      simp [hlist]

/-- The filter `/sensor/#` of the documentation. -/
def sensorFilter : CString := ⟨[47, 115, 101, 110, 115, 111, 114, 47, 35], by decide⟩

/-- The documented filter has an empty first segment: its array ends in a null entry, which the
first subscription to it passes to `strdup`. -/
theorem sensorFilter_null : ¬ NeverNull sensorFilter ∧
    none ∈ splitTopic sensorFilter ∧
    subscribeTopic initTopicTable sensorFilter ⟨2, 80, 1, 0⟩ = none := by
  have hf : ¬ WellFormedTopic sensorFilter := by decide
  have hnull := (none_mem_splitTopic_iff sensorFilter).mpr hf
  exact ⟨fun h => h.1 hnull, hnull, (subscribeTopic_eq_none_iff _ _ _).mpr hf⟩

/-! ## The parent level -/

/-- The topic `p/q`. -/
def below (p q : CString) : CString :=
  ⟨p.bytes ++ slash :: q.bytes, by simp [p.noNul, q.noNul, slash]⟩

theorem segments_below (p q : CString) :
    (below p q).segments slash = p.segments slash ++ q.segments slash := by
  apply List.map_injective_iff.mpr fun _ _ => CString.ext
  rw [List.map_append, CString.map_bytes_segments, CString.map_bytes_segments,
    CString.map_bytes_segments]
  exact List.splitOn_append_cons_self p.bytes q.bytes

theorem wellFormedTopic_below {p q : CString} (hp : WellFormedTopic p) (hq : WellFormedTopic q) :
    WellFormedTopic (below p q) := by
  intro s hs
  rw [segments_below] at hs
  rcases List.mem_append.mp hs with hs | hs
  · exact hp s hs
  · exact hq s hs

theorem segments_hash : hash.segments slash = [hash] := by decide

theorem segments_ne_nil (t : CString) : t.segments slash ≠ [] := by
  intro h
  have hlen := CString.length_segments slash t
  rw [h] at hlen
  cases hlen

/-- **The subscription to `p/#` includes its parent level**: the subscribers of the topic `p` have
the address, and so have those of every topic `p/q`. -/
def ParentIncluded (root : TopicNode) (p : CString) (a : SockaddrIn) : Prop :=
  (∃ list, getMatchingSubscribers root p = some list ∧ a ∈ list.entries) ∧
    ∀ q, WellFormedTopic q →
      ∃ list, getMatchingSubscribers root (below p q) = some list ∧ a ∈ list.entries

/-- A sequence of subscriptions that has built a tree has only well-formed filters. -/
theorem wellFormed_of_subscribeAll {calls : List (CString × SockaddrIn)} {root : TopicNode}
    (h : subscribeAll calls = some root) : ∀ c ∈ calls, WellFormedTopic c.1 := by
  intro c hc
  by_contra hf
  obtain ⟨xs, ys, rfl⟩ := List.append_of_mem hc
  rw [subscribeAll, List.foldlM_append] at h
  obtain ⟨root₁, -, h⟩ := Option.bind_eq_some_iff.mp h
  obtain ⟨root₂, h₂, -⟩ := Option.bind_eq_some_iff.mp h
  have hnone : subscribeTopic root₁ c.1 c.2 = none :=
    (subscribeTopic_eq_none_iff root₁ c.1 c.2).mpr hf
  cases hnone.symm.trans h₂

/-- The subscribers of a topic in a tree that subscriptions have built. -/
theorem mem_getMatchingSubscribers_iff {calls : List (CString × SockaddrIn)} {root : TopicNode}
    (h : subscribeAll calls = some root) {t : CString} (ht : WellFormedTopic t) (a : SockaddrIn) :
    (∃ list, getMatchingSubscribers root t = some list ∧ a ∈ list.entries) ↔
      ∃ f, (f, a) ∈ calls ∧ Matches plus hash (f.segments slash) (t.segments slash) := by
  obtain ⟨root₁, h₁, hseg, hpairs⟩ :=
    hasSubscriber_subscribeAll calls (wellFormed_of_subscribeAll h)
  obtain rfl := Option.some.inj (h₁.symm.trans h)
  obtain ⟨list, hlist, -, hmem⟩ :=
    getMatchingSubscribers_spec root₁ (by rw [hseg]; exact empty_ne_hash) ht
  constructor
  · rintro ⟨list', hlist', ha⟩
    obtain rfl := Option.some.inj (hlist.symm.trans hlist')
    obtain ⟨p, hp, hm⟩ := (hmem a).mp ha
    obtain ⟨f, hf, rfl⟩ := (hpairs p a).mp hp
    exact ⟨f, hf, hm⟩
  · rintro ⟨f, hf, hm⟩
    exact ⟨list, hlist, (hmem a).mpr ⟨_, (hpairs _ a).mpr ⟨f, hf, rfl⟩, hm⟩⟩

/-- **The parent level of `p/#` is included exactly when the address has another filter for it.**
The levels below it always are. -/
theorem parentIncluded_iff (calls : List (CString × SockaddrIn)) (root : TopicNode)
    (h : subscribeAll calls = some root) (p : CString) (hp : WellFormedTopic p) (a : SockaddrIn)
    (ha : (below p hash, a) ∈ calls) :
    ParentIncluded root p a ↔
      ∃ f, (f, a) ∈ calls ∧ f ≠ below p hash ∧
        Matches plus hash (f.segments slash) (p.segments slash) := by
  -- every topic below is matched by `p/#`
  have hbelow : ∀ q, WellFormedTopic q →
      ∃ list, getMatchingSubscribers root (below p q) = some list ∧ a ∈ list.entries := by
    intro q hq
    apply (mem_getMatchingSubscribers_iff h (wellFormedTopic_below hp hq) a).mpr
    refine ⟨below p hash, ha, ?_⟩
    rw [segments_below, segments_below, segments_hash]
    exact matches_append_many plus hash (segments_ne_nil q)
  constructor
  · rintro ⟨hparent, -⟩
    obtain ⟨f, hf, hm⟩ := (mem_getMatchingSubscribers_iff h hp a).mp hparent
    refine ⟨f, hf, ?_, hm⟩
    -- `p/#` has one level too many
    rintro rfl
    have hle := hm.length_le
    rw [segments_below, segments_hash, List.length_append, List.length_singleton] at hle
    omega
  · rintro ⟨f, hf, -, hm⟩
    exact ⟨(mem_getMatchingSubscribers_iff h hp a).mpr ⟨f, hf, hm⟩, hbelow⟩

/-- The topic `sensor`. -/
def sensorTopic : CString := ⟨[115, 101, 110, 115, 111, 114], by decide⟩

/-- A subscriber of `sensor/#` and `+` gets the messages of `sensor`, by the second filter. -/
theorem parentIncluded_iff_another :
    ∃ root, subscribeAll [(below sensorTopic hash, ⟨2, 80, 1, 0⟩), (plus, ⟨2, 80, 1, 0⟩)] =
        some root ∧ ParentIncluded root sensorTopic ⟨2, 80, 1, 0⟩ := by
  obtain ⟨root, hroot, -⟩ := hasSubscriber_subscribeAll
    [(below sensorTopic hash, (⟨2, 80, 1, 0⟩ : SockaddrIn)), (plus, ⟨2, 80, 1, 0⟩)] (by decide)
  -- the one level of `+` admits the one level of `sensor`
  have hmatch : Matches plus hash (plus.segments slash) (sensorTopic.segments slash) := by
    have hplus : plus.segments slash = [plus] := by decide
    have hsensor : sensorTopic.segments slash = [sensorTopic] := by decide
    rw [hplus, hsensor]
    exact Or.inr ⟨Or.inr (Or.inl rfl), trivial⟩
  refine ⟨root, hroot, ?_⟩
  apply (parentIncluded_iff _ root hroot sensorTopic (by decide) _ (by simp)).mpr
  exact ⟨plus, by simp, by decide, hmatch⟩

/-- A subscriber of `sensor/#` alone does not get the messages of `sensor`. -/
theorem sensorSubscriber_not_included :
    ∃ root, subscribeAll [(below sensorTopic hash, ⟨2, 80, 1, 0⟩)] = some root ∧
      ¬ ParentIncluded root sensorTopic ⟨2, 80, 1, 0⟩ := by
  obtain ⟨root, hroot, -⟩ := hasSubscriber_subscribeAll
    [(below sensorTopic hash, (⟨2, 80, 1, 0⟩ : SockaddrIn))] (by decide)
  refine ⟨root, hroot, ?_⟩
  rintro ⟨hparent, -⟩
  obtain ⟨f, hf, hm⟩ := (mem_getMatchingSubscribers_iff hroot (by decide) _).mp hparent
  obtain ⟨rfl, -⟩ := Prod.mk.inj (List.mem_singleton.mp hf)
  exact absurd hm.length_le (by decide)

end SlimMQ
