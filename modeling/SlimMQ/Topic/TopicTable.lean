import SlimMQ.Library.Tokens
import SlimMQ.Wire.Transport

/-!
# The topic table

The tree of `topic_table.c`: one node for each level of each subscribed filter, with the
subscribers of the filter that ends there. A null segment is `none`, and a function that passes
one to `strcmp` or `strdup` has no result.

## Main definitions

* `TopicNode`: a node, its children and its subscribers
* `splitTopic`: the array of segments that a topic string is cut into
* `subscribeTopic`, `getMatchingSubscribers`: the operations of the table
-/

namespace SlimMQ

open Buffer

/-! ## Splitting a topic -/

/-- The level separator `/`. -/
abbrev slash : UInt8 := 47

/-- The single-level wildcard `+`. -/
def plus : CString := ⟨[43], by decide⟩

/-- The multi-level wildcard `#`. -/
def hash : CString := ⟨[35], by decide⟩

/-- The loop of `split_topic`: each token goes to the next place of the array. -/
def splitLoop (segments : List (Option CString)) (i : ℕ) (s : CString) :
    List (Option CString) :=
  match h : s.strtok slash with
  | none => segments
  | some (token, rest) => splitLoop (segments.set i (some token)) (i + 1) rest
termination_by s.bytes.length
decreasing_by exact CString.strtok_lt h

/-- `split_topic`: an array with one place more than there are separators, all null at first, and
in it the tokens that `strtok` finds. -/
def splitTopic (topic : CString) : List (Option CString) :=
  splitLoop (List.replicate (topic.bytes.count slash + 1) none) 0 topic

/-! ## The tree -/

/-- `topic_node`. -/
inductive TopicNode
  | mk (segment : CString) (children : List TopicNode) (subscribers : List SockaddrIn)

namespace TopicNode

/-- The level this node stands for. -/
def segment : TopicNode → CString
  | mk s _ _ => s

/-- The nodes of the next level, in order of creation. -/
def children : TopicNode → List TopicNode
  | mk _ cs _ => cs

/-- The subscribers of the filter that ends here, the latest first. -/
def subscribers : TopicNode → List SockaddrIn
  | mk _ _ ss => ss

@[simp] theorem segment_mk (s : CString) (cs : List TopicNode) (ss : List SockaddrIn) :
    (mk s cs ss).segment = s := rfl

@[simp] theorem children_mk (s : CString) (cs : List TopicNode) (ss : List SockaddrIn) :
    (mk s cs ss).children = cs := rfl

@[simp] theorem subscribers_mk (s : CString) (cs : List TopicNode) (ss : List SockaddrIn) :
    (mk s cs ss).subscribers = ss := rfl

end TopicNode

/-- `init_topic_table`. -/
def initTopicTable : TopicNode := .mk CString.empty [] []

/-- `find_or_create_child`: the parent, with the child appended when there was none, and the
child's place. A null segment is passed to `strcmp` with the first child, or to `strdup` when
there is none. -/
def findOrCreateChild (parent : TopicNode) : Option CString → Option (TopicNode × ℕ)
  | none => none
  | some segment =>
    match parent.children.findIdx? (·.segment = segment) with
    | some i => some (parent, i)
    | none => some (.mk parent.segment (parent.children ++ [.mk segment [] []])
        parent.subscribers, parent.children.length)

/-- The loop of `subscribe_topic` from the node `curr`, and the registration at its end. -/
def subscribeAt (addr : SockaddrIn) : List (Option CString) → TopicNode → Option TopicNode
  | [], curr =>
    -- `is_duplicate_subscriber`, then `add_subscriber` in front
    if addr ∈ curr.subscribers then some curr
    else some (.mk curr.segment curr.children (addr :: curr.subscribers))
  | segment :: segments, curr => do
    let (curr, i) ← findOrCreateChild curr segment
    let child ← curr.children[i]?
    let child ← subscribeAt addr segments child
    some (.mk curr.segment (curr.children.set i child) curr.subscribers)

/-- `subscribe_topic`. -/
def subscribeTopic (root : TopicNode) (topicStr : CString) (addr : SockaddrIn) :
    Option TopicNode :=
  subscribeAt addr (splitTopic topicStr) root

/-! ## Matching -/

/-- `SubscriberList`: the entries from the head on, and the count kept beside them. -/
@[ext] structure SubscriberList where
  entries : List SockaddrIn
  count : ℕ

/-- Copy the subscribers of a node to the head of the result, except those already in it. -/
def collectSubscribers (result : SubscriberList) (subscribers : List SockaddrIn) :
    SubscriberList :=
  subscribers.foldl (fun r a =>
    -- `is_in_list`
    if a ∈ r.entries then r else ⟨a :: r.entries, r.count + 1⟩) result

/-- The comparison of a child with the segment of the current level; a null segment has none. -/
def segmentMatches (child : TopicNode) : Option CString → Option Bool
  | none => none
  | some segment =>
    some (decide (child.segment = segment ∨ child.segment = plus ∨ child.segment = hash))

/-- `match_recursive`, on the segments from the current level on. -/
def matchRecursive : List (Option CString) → TopicNode → SubscriberList → Option SubscriberList
  -- at the last level every node is collected
  | [], node, result => some (collectSubscribers result node.subscribers)
  -- before it only a node `#` is, and the children that match are visited
  | segment :: segments, node, result =>
    node.children.foldlM (fun r child => do
        if ← segmentMatches child segment then matchRecursive segments child r else some r)
      (if node.segment = hash then collectSubscribers result node.subscribers else result)

/-- The loop of `remove_duplicates`: `kept` is the list up to `prev`, the argument the list from
`curr` on. The runner looks for `curr` in `kept`; a duplicate is unlinked. -/
def removeDuplicatesFrom (kept : List SockaddrIn) : List SockaddrIn → ℕ → SubscriberList
  | [], count => ⟨kept, count⟩
  | curr :: next, count =>
    if curr ∈ kept then removeDuplicatesFrom kept next (count - 1)
    else removeDuplicatesFrom (kept ++ [curr]) next count

/-- `remove_duplicates`. -/
def removeDuplicates (list : SubscriberList) : SubscriberList :=
  removeDuplicatesFrom [] list.entries list.count

/-- `get_matching_subscribers`. -/
def getMatchingSubscribers (root : TopicNode) (topicStr : CString) : Option SubscriberList :=
  (matchRecursive (splitTopic topicStr) root ⟨[], 0⟩).map removeDuplicates

end SlimMQ
