import SlimMQ.Library.Arena
import SlimMQ.Topic.TopicTable

/-!
# The topic table in memory

The functions of `topic_table.c` on the blocks that they allocate: a node, its segment, the array of
its children and the entries of its subscribers are blocks of their own, the array moves or stays
when it grows, and the segments of a topic and the list of a search are there for the time of one
call. A function that follows a null pointer, or one to a block that is gone, has no result.

## Main definitions

* `TopicCell`, `TopicArena`: the blocks of the table
* `TopicMemory.subscribeTopic`, `TopicMemory.getMatchingSubscribers`,
  `TopicMemory.freeSubscriberList`, `TopicMemory.freeTopicTable`: the functions of the table
-/

namespace SlimMQ

open Buffer Blocks

/-! ## The blocks -/

/-- The fields of a `topic_node`; `none` is the null pointer. -/
structure NodeCell where
  segment : Option ℕ
  children : Option ℕ
  childCount : ℕ
  subscribers : Option ℕ

/-- A block of the topic table. -/
inductive TopicCell
  | node (fields : NodeCell)
  | text (s : CString)
  | array (pointers : List (Option ℕ))
  /-- A `subscriber_list_entry` or a `Subscriber`, which have the same fields. -/
  | entry (addr : SockaddrIn) (next : Option ℕ)
  /-- A `SubscriberList`. -/
  | list (head : Option ℕ) (count : ℕ)

/-- The memory of the topic table. -/
abbrev TopicArena (γ : Type) := Arena TopicCell γ

namespace TopicMemory

variable {γ : Type}

def readNode (m : TopicArena γ) (p : Option ℕ) : Option NodeCell :=
  match p.bind m.heap with
  | some (.node fields) => some fields
  | _ => none

def readText (m : TopicArena γ) (p : Option ℕ) : Option CString :=
  match p.bind m.heap with
  | some (.text s) => some s
  | _ => none

def readArray (m : TopicArena γ) (p : Option ℕ) : Option (List (Option ℕ)) :=
  match p.bind m.heap with
  | some (.array pointers) => some pointers
  | _ => none

def readEntry (m : TopicArena γ) (p : Option ℕ) : Option (SockaddrIn × Option ℕ) :=
  match p.bind m.heap with
  | some (.entry addr next) => some (addr, next)
  | _ => none

def readList (m : TopicArena γ) (p : Option ℕ) : Option (Option ℕ × ℕ) :=
  match p.bind m.heap with
  | some (.list head count) => some (head, count)
  | _ => none

/-- The pointer `node->children[i]`. -/
def childAt (m : TopicArena γ) (node i : ℕ) : Option (Option ℕ) := do
  let fields ← readNode m (some node)
  (← readArray m fields.children)[i]?

/-! ## Registration -/

section Registration

variable (A : Allocator γ)

/-- A node with nothing but its segment. -/
def newNode (m : TopicArena γ) (segment : CString) : Option (ℕ × TopicArena γ) := do
  let (node, m) := m.alloc A (.node ⟨none, none, 0, none⟩)
  let (text, m) := m.alloc A (.text segment)
  let m ← m.store node (.node ⟨some text, none, 0, none⟩)
  some (node, m)

/-- `init_topic_table`. -/
def initTopicTable (m : TopicArena γ) : Option (ℕ × TopicArena γ) := newNode A m CString.empty

/-- The loop of `find_or_create_child` over `n` children from the place `i` on: the child with the
segment, or the null pointer. -/
def findChild (m : TopicArena γ) (parent : ℕ) (segment : Option ℕ) : ℕ → ℕ → Option (Option ℕ)
  | 0, _ => some none
  | n + 1, i => do
    let child ← childAt m parent i
    let fields ← readNode m child
    if (← readText m fields.segment) = (← readText m segment) then some child
    else findChild m parent segment n (i + 1)

/-- The pointers that `realloc` keeps: none for the null pointer. -/
def keptPointers (m : TopicArena γ) (fields : NodeCell) : Option (List (Option ℕ)) :=
  if fields.children = none then some [] else readArray m fields.children

/-- `find_or_create_child`. -/
def findOrCreateChild (m : TopicArena γ) (parent : ℕ) (segment : Option ℕ) :
    Option (ℕ × TopicArena γ) := do
  let fields ← readNode m (some parent)
  match ← findChild m parent segment fields.childCount 0 with
  | some child => some (child, m)
  | none =>
    let (child, m) ← newNode A m (← readText m segment)
    -- the array keeps its pointers, and has a place more
    let pointers ← keptPointers m fields
    let (children, m) ← m.realloc A fields.children (.array (pointers ++ [some child]))
    let m ← m.store parent
      (.node { fields with children := some children, childCount := fields.childCount + 1 })
    some (child, m)

/-- A copy of the token goes to the place `i`; a write behind the end of the array is a fault. -/
def storeSegment (m : TopicArena γ) (segments i : ℕ) (token : CString) :
    Option (TopicArena γ) := do
  let (p, m) := m.alloc A (.text token)
  let pointers ← readArray m (some segments)
  if i < pointers.length then m.store segments (.array (pointers.set i (some p))) else none

/-- The loop of `split_topic`: each token goes to the next place of the array. -/
def splitLoop (m : TopicArena γ) (segments i : ℕ) (s : CString) : Option (TopicArena γ) :=
  match h : s.strtok slash with
  | none => some m
  | some (token, rest) =>
    (storeSegment A m segments i token).bind fun m => splitLoop m segments (i + 1) rest
termination_by s.bytes.length
decreasing_by exact CString.strtok_lt h

/-- `split_topic`. -/
def splitTopic (m : TopicArena γ) (topic : CString) : Option (ℕ × TopicArena γ) := do
  let (topicCopy, m) := m.alloc A (.text topic)
  let (segments, m) :=
    m.alloc A (.array (List.replicate (topic.bytes.count slash + 1) none))
  let m ← splitLoop A m segments 0 topic
  let m ← m.free (some topicCopy)
  some (segments, m)

/-- The end of the functions that have split a topic: its segments are given back, then the array of
them. -/
def freeSegments (m : TopicArena γ) (segments : ℕ) : Option (TopicArena γ) := do
  let m ← (← readArray m (some segments)).foldlM Arena.free m
  m.free (some segments)

/-- The loop of `is_duplicate_subscriber` and of `is_in_list`, which may take `fuel` turns. -/
def isInEntries (m : TopicArena γ) (addr : SockaddrIn) : ℕ → Option ℕ → Option Bool
  | 0, _ => none
  | _ + 1, none => some false
  | fuel + 1, some p => do
    let (a, next) ← readEntry m (some p)
    if a = addr then some true else isInEntries m addr fuel next

/-- `is_duplicate_subscriber`: a list has no more entries than addresses are in use. -/
def isDuplicateSubscriber (m : TopicArena γ) (list : Option ℕ) (addr : SockaddrIn) :
    Option Bool :=
  isInEntries m addr (m.live.card + 1) list

/-- `add_subscriber`, to the list of the node. -/
def addSubscriber (m : TopicArena γ) (node : ℕ) (addr : SockaddrIn) : Option (TopicArena γ) := do
  let fields ← readNode m (some node)
  let (p, m) := m.alloc A (.entry addr fields.subscribers)
  m.store node (.node { fields with subscribers := some p })

/-- The loop of `subscribe_topic` from the node `curr`, and the registration at its end. -/
def subscribeAt (addr : SockaddrIn) : List (Option ℕ) → TopicArena γ → ℕ → Option (TopicArena γ)
  | [], m, curr => do
    let fields ← readNode m (some curr)
    if ← isDuplicateSubscriber m fields.subscribers addr then some m
    else addSubscriber A m curr addr
  | segment :: segments, m, curr => do
    let (child, m) ← findOrCreateChild A m curr segment
    subscribeAt addr segments m child

/-- `subscribe_topic`. -/
def subscribeTopic (m : TopicArena γ) (root : Option ℕ) (topicStr : CString) (addr : SockaddrIn) :
    Option (TopicArena γ) := do
  let (segments, m) ← splitTopic A m topicStr
  let m ← subscribeAt A addr (← readArray m (some segments)) m (← root)
  freeSegments m segments

end Registration

/-! ## Matching -/

/-- A loop over `n` children of a node from the place `i` on. -/
def forChildren (node : ℕ) (body : TopicArena γ → Option ℕ → Option (TopicArena γ)) :
    ℕ → ℕ → TopicArena γ → Option (TopicArena γ)
  | 0, _, m => some m
  | n + 1, i, m => do
    let m ← body m (← childAt m node i)
    forChildren node body n (i + 1) m

section Matching

variable (A : Allocator γ)

/-- `is_in_list`. -/
def isInList (m : TopicArena γ) (list : ℕ) (addr : SockaddrIn) : Option Bool := do
  let (head, _) ← readList m (some list)
  isInEntries m addr (m.live.card + 1) head

/-- The loop of `match_recursive` over the subscribers of a node, which may take `fuel` turns. -/
def collectSubscribers (list : ℕ) : ℕ → TopicArena γ → Option ℕ → Option (TopicArena γ)
  | 0, _, _ => none
  | _ + 1, m, none => some m
  | fuel + 1, m, some s => do
    let (addr, next) ← readEntry m (some s)
    if ← isInList m list addr then collectSubscribers list fuel m next
    else
      let (head, count) ← readList m (some list)
      let (copy, m) := m.alloc A (.entry addr head)
      let m ← m.store list (.list (some copy) (count + 1))
      collectSubscribers list fuel m next

/-- Before the last level the subscribers of a node are collected if it is a `#`. -/
def collectHash (list : ℕ) (m : TopicArena γ) (fields : NodeCell) : Option (TopicArena γ) := do
  if (← readText m fields.segment) = hash then
    collectSubscribers A list (m.live.card + 1) m fields.subscribers
  else some m

/-- The comparison of a child with the segment of the current level, and with the wildcards. -/
def segmentMatches (m : TopicArena γ) (child segment : Option ℕ) : Option Bool := do
  let fields ← readNode m child
  let c ← readText m fields.segment
  let s ← readText m segment
  some (decide (c = s ∨ c = plus ∨ c = hash))

/-- `match_recursive`, on the segments from the current level on. -/
def matchRecursive (list : ℕ) : List (Option ℕ) → TopicArena γ → Option ℕ → Option (TopicArena γ)
  | _, m, none => some m
  | [], m, some node => do
    let fields ← readNode m (some node)
    collectSubscribers A list (m.live.card + 1) m fields.subscribers
  | segment :: segments, m, some node => do
    let fields ← readNode m (some node)
    let m ← collectHash A list m fields
    forChildren node (fun m child => do
        if ← segmentMatches m child segment then matchRecursive list segments m child else some m)
      fields.childCount 0 m

/-- The inner loop of `remove_duplicates`, which may take `fuel` turns: the runner looks for the
address up to the entry `curr`. -/
def runnerFinds (m : TopicArena γ) (curr : ℕ) (addr : SockaddrIn) : ℕ → Option ℕ → Option Bool
  | 0, _ => none
  | fuel + 1, runner =>
    if runner = some curr then some false
    else do
      let (a, next) ← readEntry m runner
      if a = addr then some true else runnerFinds m curr addr fuel next

/-- A duplicate `curr` is taken out of the list behind `prev`, or at its head, and freed. -/
def unlink (m : TopicArena γ) (list : ℕ) (prev : Option ℕ) (curr : ℕ) (next : Option ℕ) :
    Option (TopicArena γ) := do
  let m ← match prev with
    | some p => do
      let (addr, _) ← readEntry m (some p)
      m.store p (.entry addr next)
    | none => do
      let (_, count) ← readList m (some list)
      m.store list (.list next count)
  let m ← m.free (some curr)
  let (head, count) ← readList m (some list)
  m.store list (.list head (count - 1))

/-- The loop of `remove_duplicates` from `prev` and `curr` on, which may take `fuel` turns. -/
def removeDuplicatesLoop (list : ℕ) :
    ℕ → TopicArena γ → Option ℕ → Option ℕ → Option (TopicArena γ)
  | 0, _, _, _ => none
  | _ + 1, m, _, none => some m
  | fuel + 1, m, prev, some curr => do
    let (head, _) ← readList m (some list)
    let (addr, next) ← readEntry m (some curr)
    if ← runnerFinds m curr addr (m.live.card + 1) head then
      removeDuplicatesLoop list fuel (← unlink m list prev curr next) prev next
    else removeDuplicatesLoop list fuel m (some curr) next

/-- `remove_duplicates`. -/
def removeDuplicates (m : TopicArena γ) (list : ℕ) : Option (TopicArena γ) := do
  let (head, _) ← readList m (some list)
  removeDuplicatesLoop list (m.live.card + 1) m none head

/-- `get_matching_subscribers`. -/
def getMatchingSubscribers (m : TopicArena γ) (root : Option ℕ) (topicStr : CString) :
    Option (ℕ × TopicArena γ) := do
  let (segments, m) ← splitTopic A m topicStr
  let (list, m) := m.alloc A (.list none 0)
  let m ← matchRecursive A list (← readArray m (some segments)) m root
  let m ← freeSegments m segments
  let m ← removeDuplicates m list
  some (list, m)

end Matching

/-- The walk of `publish_to_subscribers` along the list, which may take `fuel` turns: the addresses
that a message is sent to. -/
def targets (m : TopicArena γ) : ℕ → Option ℕ → Option (List SockaddrIn)
  | 0, _ => none
  | _ + 1, none => some []
  | fuel + 1, some p => do
    let (addr, next) ← readEntry m (some p)
    (targets m fuel next).map (addr :: ·)

/-! ## Giving back -/

/-- The loops that give back the entries of a list, which may take `fuel` turns. -/
def freeEntries : ℕ → TopicArena γ → Option ℕ → Option (TopicArena γ)
  | 0, _, _ => none
  | _ + 1, m, none => some m
  | fuel + 1, m, some p => do
    let (_, next) ← readEntry m (some p)
    let m ← m.free (some p)
    freeEntries fuel m next

/-- `free_subscriber_list`, on a list. -/
def freeSubscriberList (m : TopicArena γ) (list : ℕ) : Option (TopicArena γ) := do
  let (head, _) ← readList m (some list)
  let m ← freeEntries (m.live.card + 1) m head
  m.free (some list)

/-- `free_topic_node`, which may go down `fuel` levels. -/
def freeTopicNode : ℕ → TopicArena γ → Option ℕ → Option (TopicArena γ)
  | 0, _, _ => none
  | _ + 1, m, none => some m
  | fuel + 1, m, some node => do
    let fields ← readNode m (some node)
    let m ← freeEntries (m.live.card + 1) m fields.subscribers
    let m ← forChildren node (freeTopicNode fuel) fields.childCount 0 m
    let m ← m.free fields.segment
    let m ← m.free fields.children
    m.free (some node)

/-- `free_topic_table`: a tree has no more levels than addresses are in use. -/
def freeTopicTable (m : TopicArena γ) (root : Option ℕ) : Option (TopicArena γ) :=
  freeTopicNode (m.live.card + 1) m root

end TopicMemory

end SlimMQ
