import Mathlib.Tactic.Abel
import SlimMQ.Library.EventLoop
import SlimMQ.Topic.Split
import SlimMQ.Topic.TopicMemory

/-!
# The layout of the topic tree

A tree with the addresses of its blocks says which blocks the table has in memory, and the sum of
these and of others says that they are apart. A subscription finds the same nodes in memory as in
the tree, adds blocks where the tree grows, and gives back those of the segments; it fails where the
one on the tree fails, at a null segment. `free_topic_node` gives back the blocks of a tree, and
leaves the others.

## Main definitions

* `Layout`: a tree with the addresses of its blocks
* `Layout.tree`, `Layout.blocks`: the tree without them, and the blocks

## Main results

* `TopicMemory.rel_findOrCreateChild`: a child is found or made
* `TopicMemory.rel_subscribeTopic`: a subscription in memory is one in the tree
* `TopicMemory.holds_freeTopicNode`: a tree is given back
-/

namespace SlimMQ

open Buffer Blocks EventLoop

/-! ## A tree with its addresses -/

/-- A tree of topics with the addresses of its blocks; that of the array counts if there are
children. -/
inductive Layout
  | mk (self text array : ℕ) (segment : CString) (children : List Layout)
      (subscribers : List (ℕ × SockaddrIn))

/-- The pointer to the first entry of a list. -/
def firstOf (entries : List (ℕ × SockaddrIn)) : Option ℕ := entries.head?.map Prod.fst

/-- The blocks of a list of entries. -/
def entryBlocks : List (ℕ × SockaddrIn) → Multiset (ℕ × TopicCell)
  | [] => 0
  | (p, addr) :: entries => {(p, .entry addr (firstOf entries))} + entryBlocks entries

/-- The pointer to the array of children, null if there are none. -/
def arrayOf (array : ℕ) (pointers : List ℕ) : Option ℕ := if pointers = [] then none else some array

/-- The blocks of a node without those of its children. -/
def ownBlocks (self text array : ℕ) (segment : CString) (pointers : List ℕ)
    (subscribers : List (ℕ × SockaddrIn)) : Multiset (ℕ × TopicCell) :=
  {(self, .node ⟨some text, arrayOf array pointers, pointers.length, firstOf subscribers⟩)} +
    ({(text, .text segment)} +
      (Arena.at? (arrayOf array pointers) (.array (pointers.map some)) + entryBlocks subscribers))

namespace Layout

def self : Layout → ℕ
  | mk self _ _ _ _ _ => self

def children : Layout → List Layout
  | mk _ _ _ _ children _ => children

def segment : Layout → CString
  | mk _ _ _ segment _ _ => segment

def subscribers : Layout → List (ℕ × SockaddrIn)
  | mk _ _ _ _ _ subscribers => subscribers

mutual

/-- The tree without its addresses. -/
def tree : Layout → TopicNode
  | mk _ _ _ segment children subscribers =>
    .mk segment (trees children) (subscribers.map Prod.snd)

def trees : List Layout → List TopicNode
  | [] => []
  | l :: ls => l.tree :: trees ls

end

mutual

/-- The blocks of the tree. -/
def blocks : Layout → Multiset (ℕ × TopicCell)
  | mk self text array segment children subscribers =>
    ownBlocks self text array segment (children.map Layout.self) subscribers + allBlocks children

def allBlocks : List Layout → Multiset (ℕ × TopicCell)
  | [] => 0
  | l :: ls => l.blocks + allBlocks ls

end

@[simp] theorem trees_eq (ls : List Layout) : trees ls = ls.map tree := by
  induction ls with
  | nil => rfl
  | cons l ls ih => rw [trees, ih, List.map_cons]

@[simp] theorem segment_tree (l : Layout) : l.tree.segment = l.segment := by
  cases l
  rfl

@[simp] theorem children_tree (l : Layout) : l.tree.children = l.children.map tree := by
  cases l with
  | mk => exact trees_eq _

@[simp] theorem subscribers_tree (l : Layout) :
    l.tree.subscribers = l.subscribers.map Prod.snd := by
  cases l
  rfl

@[simp] theorem allBlocks_append (ls ls' : List Layout) :
    allBlocks (ls ++ ls') = allBlocks ls + allBlocks ls' := by
  induction ls with
  | nil => rw [List.nil_append, allBlocks, zero_add]
  | cons l ls ih => rw [List.cons_append, allBlocks, allBlocks, ih, add_assoc]

/-- One tree of a list and the others. -/
theorem allBlocks_middle (ls₁ ls₂ : List Layout) (l : Layout) :
    allBlocks (ls₁ ++ l :: ls₂) = l.blocks + (allBlocks ls₁ + allBlocks ls₂) := by
  rw [allBlocks_append, allBlocks, add_left_comm]

/-- The fields of the root. -/
def fields : Layout → NodeCell
  | mk _ text array _ children subscribers =>
    ⟨some text, arrayOf array (children.map self), children.length, firstOf subscribers⟩

/-- The blocks of a node that a loop over its children reads. -/
def spine (l : Layout) : Multiset (ℕ × TopicCell) :=
  {(l.self, .node l.fields)} + Arena.at? l.fields.children (.array (l.children.map (some ·.self)))

/-- **The blocks of a tree**: those of its subscribers, of its children, and its own. -/
theorem blocks_eq (l : Layout) : l.blocks = entryBlocks l.subscribers + (allBlocks l.children +
    (spine l + Arena.at? l.fields.segment (.text l.segment))) := by
  cases l with
  | mk self text array segment cs subs =>
    have hspine : (mk self text array segment cs subs).spine =
        {(self, .node ⟨some text, arrayOf array (cs.map Layout.self), cs.length, firstOf subs⟩)} +
          Arena.at? (arrayOf array (cs.map Layout.self))
            (.array ((cs.map Layout.self).map some)) := by
      rw [List.map_map]
      rfl
    change _ = entryBlocks subs + (allBlocks cs + (_ + {(text, .text segment)}))
    rw [hspine, blocks, ownBlocks, List.length_map]
    abel

theorem entries_le (l : Layout) : entryBlocks l.subscribers ≤ l.blocks := by
  rw [blocks_eq]
  exact Multiset.le_add_right _ _

theorem entries_mem (l : Layout) : ∀ x ∈ entryBlocks l.subscribers, x ∈ l.blocks :=
  fun _ => Multiset.mem_of_le l.entries_le

theorem spine_mem (l : Layout) : ∀ x ∈ spine l, x ∈ l.blocks := by
  intro x hx
  rw [blocks_eq]
  simp [hx]

theorem node_mem (l : Layout) : (l.self, .node l.fields) ∈ l.blocks :=
  spine_mem l _ (Multiset.mem_add.mpr (Or.inl (Multiset.mem_singleton_self _)))

/-- The blocks of a child are among those of its parent. -/
theorem children_le {l c : Layout} (hc : c ∈ l.children) : c.blocks ≤ l.blocks := by
  obtain ⟨cs₁, cs₂, hcs⟩ := List.append_of_mem hc
  rw [blocks_eq l, hcs, allBlocks_middle, add_assoc, add_left_comm]
  exact Multiset.le_add_right _ _

theorem text_mem (l : Layout) : ∃ text, l.fields.segment = some text ∧
    (text, .text l.segment) ∈ l.blocks := by
  obtain ⟨text, htext⟩ : ∃ text, l.fields.segment = some text := by
    cases l
    exact ⟨_, rfl⟩
  refine ⟨text, htext, ?_⟩
  rw [blocks_eq, htext]
  simp

@[simp] theorem subscribers_fields (l : Layout) :
    l.fields.subscribers = firstOf l.subscribers := by
  cases l
  rfl

@[simp] theorem childCount_fields (l : Layout) : l.fields.childCount = l.children.length := by
  cases l
  rfl

theorem card_pos (l : Layout) : 0 < l.blocks.card :=
  Multiset.card_pos_iff_exists_mem.mpr ⟨_, l.node_mem⟩

/-- A child has fewer blocks than its parent. -/
theorem card_lt_of_mem {l c : Layout} (hc : c ∈ l.children) : c.blocks.card < l.blocks.card := by
  obtain ⟨cs₁, cs₂, hcs⟩ := List.append_of_mem hc
  rw [blocks_eq l, hcs, allBlocks_middle, spine]
  simp only [Multiset.card_add, Multiset.card_singleton]
  omega

end Layout

/-! ## Reading -/

namespace TopicMemory

variable {γ : Type} {A : Allocator γ} {m : TopicArena γ} {B R : Multiset (ℕ × TopicCell)} {p : ℕ}

theorem readNode_of_mem (h : m.Holds B) {fields : NodeCell} (hp : (p, .node fields) ∈ B) :
    readNode m (some p) = some fields := by
  rw [readNode, Option.bind_some, (h.mem_iff _ _).mp hp]

theorem readText_of_mem (h : m.Holds B) {s : CString} (hp : (p, .text s) ∈ B) :
    readText m (some p) = some s := by
  rw [readText, Option.bind_some, (h.mem_iff _ _).mp hp]

theorem readArray_of_mem (h : m.Holds B) {pointers : List (Option ℕ)}
    (hp : (p, .array pointers) ∈ B) : readArray m (some p) = some pointers := by
  rw [readArray, Option.bind_some, (h.mem_iff _ _).mp hp]

theorem readEntry_of_mem (h : m.Holds B) {addr : SockaddrIn} {next : Option ℕ}
    (hp : (p, .entry addr next) ∈ B) : readEntry m (some p) = some (addr, next) := by
  rw [readEntry, Option.bind_some, (h.mem_iff _ _).mp hp]

theorem readList_of_mem (h : m.Holds B) {head : Option ℕ} {count : ℕ}
    (hp : (p, .list head count) ∈ B) : readList m (some p) = some (head, count) := by
  rw [readList, Option.bind_some, (h.mem_iff _ _).mp hp]

/-- The children of a node, as long as the blocks of the node are there. -/
theorem childAt_eq {l : Layout} (h : m.Holds B) (hl : ∀ x ∈ l.spine, x ∈ B) {i : ℕ} {c : Layout}
    (hc : l.children[i]? = some c) : childAt m l.self i = some (some c.self) := by
  cases l with
  | mk self text array segment children subscribers =>
    have hc : children[i]? = some c := hc
    have hne : children.map Layout.self ≠ [] := by
      intro hnil
      rw [List.map_eq_nil_iff.mp hnil] at hc
      cases hc
    have hnode := hl _ (Multiset.mem_add.mpr (Or.inl (Multiset.mem_singleton_self _)))
    have harray : (array, .array (children.map (some ·.self))) ∈ B := by
      refine hl _ (Multiset.mem_add.mpr (Or.inr ?_))
      simp [Layout.fields, arrayOf, hne, Layout.children]
    rw [childAt, readNode_of_mem h hnode]
    simp only [Option.bind_eq_bind, Option.bind_some]
    rw [Layout.fields, arrayOf, if_neg hne, readArray_of_mem h harray, Option.bind_some,
      List.getElem?_map, hc]
    rfl

/-! ## Registration -/

theorem holds_newNode (h : m.Holds R) (A : Allocator γ) (s : CString) :
    ∃ p t m', newNode A m s = some (p, m') ∧ m'.Holds ((Layout.mk p t 0 s [] []).blocks + R) := by
  obtain ⟨p, m₁, halloc₁, h₁⟩ := h.alloc A (.node ⟨none, none, 0, none⟩)
  obtain ⟨t, m₂, halloc₂, h₂⟩ := h₁.alloc A (.text s)
  rw [add_left_comm] at h₂
  obtain ⟨m', hstore, h₃⟩ := h₂.store (.node ⟨some t, none, 0, none⟩)
  refine ⟨p, t, m', ?_, ?_⟩
  · simp [newNode, halloc₁, halloc₂, hstore]
  · simpa only [Layout.blocks, Layout.allBlocks, ownBlocks, arrayOf, entryBlocks, firstOf,
      List.map_nil, List.length_nil, List.head?_nil, Option.map_none, if_true, Arena.at?_none,
      add_zero, zero_add, add_assoc] using h₃

/-- What `strcmp` reads of a node. -/
theorem readText_fields {l : Layout} (h : m.Holds B) (hl : ∀ x ∈ l.blocks, x ∈ B) :
    readText m l.fields.segment = some l.segment := by
  obtain ⟨text, hfields, hmem⟩ := l.text_mem
  rw [hfields, readText_of_mem h (hl _ hmem)]

/-- **The search for a child** finds the first one with the segment. -/
theorem findChild_eq (parent : ℕ) {segment : Option ℕ} {s : CString}
    (hs : readText m segment = some s) {cs : List Layout} {i : ℕ} (h : m.Holds B)
    (hcs : ∀ c ∈ cs, ∀ x ∈ c.blocks, x ∈ B)
    (hat : ∀ j c, cs[j]? = some c → childAt m parent (i + j) = some (some c.self)) :
    findChild m parent segment cs.length i =
      some ((cs.findIdx? (·.segment = s)).bind fun j => cs[j]?.map Layout.self) := by
  induction cs generalizing i with
  | nil => rfl
  | cons c cs ih =>
    have hc := hcs c List.mem_cons_self
    have hrest := ih (i := i + 1) (fun c hc => hcs c (List.mem_cons_of_mem _ hc))
      fun j c hj => by
        rw [Nat.add_right_comm, Nat.add_assoc]
        exact hat (j + 1) c hj
    have hnode := readNode_of_mem h (hc _ c.node_mem)
    rw [List.length_cons, findChild, show childAt m parent i = _ from hat 0 c rfl]
    simp only [Option.bind_eq_bind, Option.bind_some, hnode, readText_fields h hc, hs, hrest,
      List.findIdx?_cons]
    by_cases he : c.segment = s
    · simp [he]
    · simp only [he, if_false, decide_false, Bool.false_eq_true]
      cases cs.findIdx? (·.segment = s) <;> rfl

/-- A null segment is compared with the first child. -/
theorem findChild_eq_none {parent : ℕ} {segment : Option ℕ} (hs : readText m segment = none)
    (n i : ℕ) : findChild m parent segment (n + 1) i = none := by
  simp [findChild, hs]

/-- One more child for a node. -/
theorem holds_addChild {L c : Layout} (h : m.Holds (L.blocks + (c.blocks + R))) (A : Allocator γ) :
    ∃ children m₁ m', m.realloc A L.fields.children
        (.array (L.children.map (some ·.self) ++ [some c.self])) = some (children, m₁) ∧
      m₁.store L.self (.node { L.fields with
        children := some children, childCount := L.fields.childCount + 1 }) = some m' ∧
      ∃ L' : Layout, L'.self = L.self ∧ L'.children = L.children ++ [c] ∧
        L'.tree = .mk L.tree.segment (L.tree.children ++ [c.tree]) L.tree.subscribers ∧
        m'.Holds (L'.blocks + R) := by
  cases L with
  | mk self text array segment cs subs =>
    simp only [Layout.blocks, ownBlocks] at h
    have h : m.Holds (Arena.at? (arrayOf array (cs.map Layout.self))
          (.array ((cs.map Layout.self).map some)) +
        ({(self, .node (Layout.mk self text array segment cs subs).fields)} +
          ({(text, .text segment)} + entryBlocks subs + Layout.allBlocks cs + c.blocks + R))) := by
      convert h using 1
      simp only [Layout.fields, List.length_map]
      abel
    obtain ⟨q, m₁, hrealloc, h₁⟩ := h.realloc A
      (.array ((cs.map Layout.self).map some ++ [some c.self]))
    rw [add_left_comm] at h₁
    obtain ⟨m', hstore, h'⟩ := h₁.store (.node ⟨some text, some q, cs.length + 1, firstOf subs⟩)
    refine ⟨q, m₁, m', ?_, ?_, .mk self text q segment (cs ++ [c]) subs, rfl, rfl, ?_, ?_⟩
    · rw [List.map_map] at hrealloc
      exact hrealloc
    · simpa [Layout.fields, Layout.self] using hstore
    · simp [Layout.tree]
    · convert h' using 1
      simp [-Multiset.singleton_add, Layout.blocks, ownBlocks, arrayOf, Layout.allBlocks]
      abel

theorem keptPointers_eq {l : Layout} (h : m.Holds B) (hl : ∀ x ∈ l.spine, x ∈ B) :
    keptPointers m l.fields = some (l.children.map (some ·.self)) := by
  cases l with
  | mk self text array segment cs subs =>
    cases cs with
    | nil => rfl
    | cons c cs =>
      refine readArray_of_mem h (hl _ (Multiset.mem_add.mpr (Or.inr ?_)))
      exact Multiset.mem_singleton_self _

/-- **A child is found or made**, as in the tree. -/
theorem rel_findOrCreateChild {L : Layout} {segment : Option ℕ} {s : Option CString}
    (h : m.Holds (L.blocks + R)) (hs : readText m segment = s) :
    Option.Rel (fun (r : TopicNode × ℕ) (r' : ℕ × TopicArena γ) => ∃ L' c : Layout,
        r.1 = L'.tree ∧ L'.self = L.self ∧ L'.children[r.2]? = some c ∧ r'.1 = c.self ∧
          r'.2.Holds (L'.blocks + R))
      (SlimMQ.findOrCreateChild L.tree s) (findOrCreateChild A m L.self segment) := by
  have hL : ∀ x ∈ L.blocks, x ∈ L.blocks + R := fun x hx => Multiset.mem_add.mpr (Or.inl hx)
  have hspine : ∀ x ∈ L.spine, x ∈ L.blocks + R := fun x hx => hL x (L.spine_mem x hx)
  have hcount := L.childCount_fields
  cases s with
  | none =>
    -- the null segment is passed to `strcmp` or to `strdup`
    have hnone : findOrCreateChild A m L.self segment = none := by
      rw [findOrCreateChild, readNode_of_mem h (hL _ L.node_mem)]
      simp only [Option.bind_eq_bind, Option.bind_some]
      cases L.fields.childCount with
      | zero => simp [findChild, hs]
      | succ n => rw [findChild_eq_none hs, Option.bind_none]
    rw [hnone]
    exact Option.Rel.none
  | some s =>
    have hfind := findChild_eq L.self (i := 0) hs h
      (fun c hc x hx => hL x (Multiset.mem_of_le (Layout.children_le hc) hx))
      fun j c hj => by rw [Nat.zero_add]; exact childAt_eq h hspine hj
    have hidx : L.tree.children.findIdx? (·.segment = s) =
        L.children.findIdx? (·.segment = s) := by
      rw [Layout.children_tree, List.findIdx?_map]
      congr 1
      funext c
      simp
    rw [findOrCreateChild, readNode_of_mem h (hL _ L.node_mem)]
    simp only [Option.bind_eq_bind, Option.bind_some, hcount, hfind, SlimMQ.findOrCreateChild, hidx]
    cases hi : L.children.findIdx? (·.segment = s) with
    | some i =>
      obtain ⟨hlt, -, -⟩ := List.findIdx?_eq_some_iff_getElem.mp hi
      have hget : L.children[i]? = some L.children[i] := List.getElem?_eq_getElem hlt
      simp only [Option.bind_some, hget, Option.map_some]
      exact Option.Rel.some ⟨L, _, rfl, rfl, hget, rfl, h⟩
    | none =>
      obtain ⟨p, t, m₁, hnew, h₁⟩ := holds_newNode h A s
      rw [add_left_comm] at h₁
      obtain ⟨children, m₂, m', hrealloc, hstore, L', hself, hcs, htree, h'⟩ := holds_addChild h₁ A
      have hptrs := keptPointers_eq h₁ fun x hx => Multiset.mem_add.mpr (Or.inl (L.spine_mem x hx))
      have hrealloc : m₁.realloc A L.fields.children
          (.array (L.children.map (some ·.self) ++ [some p])) = some (children, m₂) := hrealloc
      rw [hcount] at hstore
      simp only [Option.bind_none, hs, Option.bind_some, hnew, hptrs, hrealloc, hstore]
      refine Option.Rel.some ⟨L', .mk p t 0 s [] [], htree.symm, hself, ?_, rfl, h'⟩
      rw [hcs, Layout.children_tree, List.length_map]
      exact List.getElem?_concat_length

@[simp] theorem card_entryBlocks (l : List (ℕ × SockaddrIn)) :
    (entryBlocks l).card = l.length := by
  induction l with
  | nil => rfl
  | cons x l ih => rw [entryBlocks, Multiset.card_add, ih, Multiset.card_singleton, List.length_cons,
      Nat.add_comm]

/-- **The search for an address** in a list of entries. -/
theorem isInEntries_eq {l : List (ℕ × SockaddrIn)} (h : m.Holds B)
    (hl : ∀ x ∈ entryBlocks l, x ∈ B) (addr : SockaddrIn) {fuel : ℕ} (hf : l.length < fuel) :
    isInEntries m addr fuel (firstOf l) = some (decide (addr ∈ l.map Prod.snd)) := by
  induction l generalizing fuel with
  | nil =>
    obtain ⟨fuel, rfl⟩ : ∃ n, fuel = n + 1 := ⟨fuel - 1, by omega⟩
    rfl
  | cons x l ih =>
    obtain ⟨p, a⟩ := x
    obtain ⟨fuel, rfl⟩ : ∃ n, fuel = n + 1 := ⟨fuel - 1, by omega⟩
    have hentry := readEntry_of_mem h (hl _ (Multiset.mem_add.mpr
      (Or.inl (Multiset.mem_singleton_self _))))
    have hrest := ih (fun x hx => hl x (Multiset.mem_add.mpr (Or.inr hx)))
      (Nat.lt_of_succ_lt_succ hf)
    simp only [isInEntries, firstOf, List.head?_cons, Option.map_some, hentry, Option.bind_eq_bind,
      Option.bind_some]
    by_cases ha : a = addr
    · simp [ha]
    · rw [if_neg ha]
      refine hrest.trans ?_
      have ha' : addr ≠ a := fun he => ha he.symm
      simp [ha']

theorem length_subscribers_le {L : Layout} (h : m.Holds (L.blocks + R)) :
    L.subscribers.length ≤ m.live.card := by
  refine Nat.le_trans ?_ h.card_le
  cases L with
  | mk self text array segment cs subs =>
    simp only [Layout.blocks, ownBlocks, Multiset.card_add, card_entryBlocks, Layout.subscribers]
    omega

/-- A new entry in front of the subscribers of a node. -/
theorem holds_addSubscriber {L : Layout} (h : m.Holds (L.blocks + R)) (A : Allocator γ)
    (addr : SockaddrIn) :
    ∃ m', addSubscriber A m L.self addr = some m' ∧
      ∃ L' : Layout, L'.self = L.self ∧
        L'.tree = .mk L.tree.segment L.tree.children (addr :: L.tree.subscribers) ∧
        m'.Holds (L'.blocks + R) := by
  have hnode := readNode_of_mem h (Multiset.mem_add.mpr (Or.inl L.node_mem))
  obtain ⟨p, m₁, halloc, h₁⟩ := h.alloc A (.entry addr L.fields.subscribers)
  cases L with
  | mk self text array segment cs subs =>
    have h₁ : m₁.Holds ({(self, .node (Layout.mk self text array segment cs subs).fields)} +
        ({(p, .entry addr (firstOf subs))} + ({(text, .text segment)} +
          Arena.at? (arrayOf array (cs.map Layout.self))
            (.array ((cs.map Layout.self).map some)) + entryBlocks subs +
          Layout.allBlocks cs + R))) := by
      convert h₁ using 1
      simp only [Layout.blocks, ownBlocks, Layout.fields, List.length_map]
      abel
    obtain ⟨m', hstore, h'⟩ := h₁.store
      (.node ⟨some text, arrayOf array (cs.map Layout.self), cs.length, some p⟩)
    refine ⟨m', ?_, .mk self text array segment cs ((p, addr) :: subs), rfl, ?_, ?_⟩
    · rw [addSubscriber, hnode]
      simp only [Option.bind_eq_bind, Option.bind_some, halloc]
      exact hstore
    · simp [Layout.tree]
    · convert h' using 1
      simp only [Layout.blocks, ownBlocks, entryBlocks, firstOf, List.head?_cons, Option.map_some,
        List.length_map]
      abel

/-- The blocks of the segments of a topic; a null segment has none. -/
def segmentBlocks : List (Option (ℕ × CString)) → Multiset (ℕ × TopicCell)
  | [] => 0
  | none :: segs => segmentBlocks segs
  | some (p, s) :: segs => {(p, .text s)} + segmentBlocks segs

theorem readText_segment {seg : Option (ℕ × CString)} {segs : List (Option (ℕ × CString))}
    (h : m.Holds (B + (segmentBlocks (seg :: segs) + R))) :
    readText m (seg.map Prod.fst) = seg.map Prod.snd := by
  cases seg with
  | none => rfl
  | some x =>
    refine readText_of_mem h ?_
    simp [segmentBlocks]

theorem segmentBlocks_cons (seg : Option (ℕ × CString)) (segs : List (Option (ℕ × CString))) :
    segmentBlocks (seg :: segs) = segmentBlocks [seg] + segmentBlocks segs := by
  cases seg with
  | none => exact (zero_add _).symm
  | some x => rw [segmentBlocks, segmentBlocks, segmentBlocks, add_zero]

/-- A child that changes in its place leaves the other blocks of the node as they are. -/
theorem exists_blocks_child {L c : Layout} {i : ℕ} (hc : L.children[i]? = some c) :
    ∃ rest, L.blocks = c.blocks + rest ∧ ∀ c' : Layout, c'.self = c.self →
      ∃ L' : Layout, L'.self = L.self ∧ L'.blocks = c'.blocks + rest ∧
        L'.tree = .mk L.tree.segment (L.tree.children.set i c'.tree) L.tree.subscribers := by
  cases L with
  | mk self text array segment cs subs =>
    obtain ⟨hi, hc⟩ := List.getElem?_eq_some_iff.mp hc
    have hi : i < cs.length := hi
    have hcs : cs = cs.take i ++ c :: cs.drop (i + 1) := by
      rw [← hc]
      simp [Layout.children]
    refine ⟨ownBlocks self text array segment (cs.map Layout.self) subs +
      (Layout.allBlocks (cs.take i) + Layout.allBlocks (cs.drop (i + 1))), ?_, fun c' hself =>
        ⟨.mk self text array segment (cs.set i c') subs, rfl, ?_, ?_⟩⟩
    · conv_lhs => rw [Layout.blocks, hcs, Layout.allBlocks_middle, ← hcs]
      abel
    · have hset : cs.set i c' = cs.take i ++ c' :: cs.drop (i + 1) := by
        rw [List.set_eq_take_append_cons_drop, if_pos hi]
      have hmap : (cs.set i c').map Layout.self = cs.map Layout.self := by
        rw [hset, List.map_append, List.map_cons, hself, ← List.map_cons, ← List.map_append, ← hcs]
      rw [Layout.blocks, hmap, hset, Layout.allBlocks_middle]
      abel
    · simp [Layout.tree, List.map_set]

/-- **The descent of a subscription** in memory is the one in the tree. -/
theorem rel_subscribeAt {segs : List (Option (ℕ × CString))} {L : Layout} (addr : SockaddrIn)
    (h : m.Holds (L.blocks + (segmentBlocks segs + R))) :
    Option.Rel (fun (t : TopicNode) (m' : TopicArena γ) => ∃ L' : Layout, L'.tree = t ∧
        L'.self = L.self ∧ m'.Holds (L'.blocks + (segmentBlocks segs + R)))
      (SlimMQ.subscribeAt addr (segs.map (Option.map Prod.snd)) L.tree)
      (subscribeAt A addr (segs.map (Option.map Prod.fst)) m L.self) := by
  induction segs generalizing L m R with
  | nil =>
    have hdup : isDuplicateSubscriber m L.fields.subscribers addr =
        some (decide (addr ∈ L.tree.subscribers)) := by
      rw [Layout.subscribers_tree, isDuplicateSubscriber, L.subscribers_fields]
      exact isInEntries_eq h (fun x hx => Multiset.mem_add.mpr (Or.inl (L.entries_mem x hx))) addr
        (Nat.lt_succ_of_le (length_subscribers_le h))
    rw [List.map_nil, List.map_nil, SlimMQ.subscribeAt, subscribeAt,
      readNode_of_mem h (Multiset.mem_add.mpr (Or.inl L.node_mem))]
    simp only [Option.bind_eq_bind, Option.bind_some, hdup, decide_eq_true_eq]
    by_cases ha : addr ∈ L.tree.subscribers
    · rw [if_pos ha, if_pos ha]
      exact Option.Rel.some ⟨L, rfl, rfl, h⟩
    · rw [if_neg ha, if_neg ha]
      obtain ⟨m', hadd, L', hself, htree, h'⟩ := holds_addSubscriber h A addr
      rw [hadd]
      refine Option.Rel.some ⟨L', ?_, hself, h'⟩
      rw [htree]
  | cons seg segs ih =>
    have hread := readText_segment h
    rw [List.map_cons, List.map_cons, SlimMQ.subscribeAt, subscribeAt]
    refine rel_bind (rel_findOrCreateChild h hread) ?_
    rintro ⟨t, i⟩ ⟨child, m₁⟩ ⟨L₁, c, rfl, hself₁, hc, rfl, h₁⟩
    have hget : L₁.tree.children[i]? = some c.tree := by
      rw [Layout.children_tree, List.getElem?_map, hc]
      rfl
    simp only [hget, Option.bind_eq_bind, Option.bind_some]
    obtain ⟨rest, hrest, hput⟩ := exists_blocks_child hc
    have h₁ : m₁.Holds (c.blocks + (segmentBlocks segs + (rest + segmentBlocks [seg] + R))) := by
      convert h₁ using 1
      rw [hrest, segmentBlocks_cons seg segs]
      abel
    refine rel_bind_left (ih h₁) ?_
    rintro t' m' ⟨c', rfl, hself', h'⟩
    obtain ⟨L', hL', hblocks, htree⟩ := hput c' hself'
    refine ⟨L', htree, hL'.trans hself₁, ?_⟩
    convert h' using 1
    rw [hblocks, segmentBlocks_cons seg segs]
    abel

/-- A segment in the place of a null one. -/
theorem segmentBlocks_set {segs : List (Option (ℕ × CString))} {i : ℕ} (h : segs[i]? = some none)
    (p : ℕ) (s : CString) :
    segmentBlocks (segs.set i (some (p, s))) = {(p, .text s)} + segmentBlocks segs := by
  induction segs generalizing i with
  | nil => cases h
  | cons seg segs ih =>
    cases i with
    | zero =>
      obtain rfl : seg = none := Option.some.inj h
      rfl
    | succ i =>
      have h : segs[i]? = some none := h
      rw [List.set_cons_succ, segmentBlocks_cons seg, ih h, segmentBlocks_cons seg segs]
      abel

/-- **The loop of `split_topic`** fills the places from `i` on with copies of the tokens. -/
theorem holds_splitLoop (A : Allocator γ) {segs : List (Option (ℕ × CString))} {array i : ℕ}
    {s : CString} {m : TopicArena γ}
    (h : m.Holds ({(array, .array (segs.map (Option.map Prod.fst)))} + (segmentBlocks segs + R)))
    (hnull : ∀ j, i ≤ j → j < segs.length → segs[j]? = some none)
    (hlen : i + (s.tokens slash).length ≤ segs.length) :
    ∃ segs' m', splitLoop A m array i s = some m' ∧
      segs'.map (Option.map Prod.snd) =
        SlimMQ.splitLoop (segs.map (Option.map Prod.snd)) i s ∧
      m'.Holds
        ({(array, .array (segs'.map (Option.map Prod.fst)))} + (segmentBlocks segs' + R)) := by
  cases hs : s.strtok slash with
  | none =>
    refine ⟨segs, m, ?_, ?_, h⟩
    · rw [splitLoop, hs]
    · rw [SlimMQ.splitLoop, hs]
  | some r =>
    obtain ⟨token, rest⟩ := r
    rw [CString.tokens_of_strtok_some hs, List.length_cons] at hlen
    have hi : i < segs.length := by omega
    obtain ⟨p, m₁, halloc, h₁⟩ := h.alloc A (.text token)
    rw [add_left_comm] at h₁
    have hread := readArray_of_mem h₁ (Multiset.mem_add.mpr
      (Or.inl (Multiset.mem_singleton_self _)))
    obtain ⟨m₂, hstore, h₂⟩ := h₁.store
      (.array ((segs.map (Option.map Prod.fst)).set i (some p)))
    have h₂ : m₂.Holds
        ({(array, .array ((segs.set i (some (p, token))).map (Option.map Prod.fst)))} +
          (segmentBlocks (segs.set i (some (p, token))) + R)) := by
      rw [segmentBlocks_set (hnull i le_rfl hi), List.map_set, add_assoc]
      exact h₂
    have hnull₂ : ∀ j, i + 1 ≤ j → j < (segs.set i (some (p, token))).length →
        (segs.set i (some (p, token)))[j]? = some none := by
      intro j hj hlt
      rw [List.length_set] at hlt
      rw [List.getElem?_set_ne (by omega)]
      exact hnull j (by omega) hlt
    have hlen₂ : i + 1 + (rest.tokens slash).length ≤ (segs.set i (some (p, token))).length := by
      rw [List.length_set]
      omega
    obtain ⟨segs', m', hloop, hsegs, h'⟩ := holds_splitLoop A h₂ hnull₂ hlen₂
    refine ⟨segs', m', ?_, ?_, h'⟩
    · have hseg : storeSegment A m array i token = some m₂ := by
        simp only [storeSegment, halloc, hread, Option.bind_eq_bind, Option.bind_some,
          List.length_map, hi, if_true, hstore]
      rw [splitLoop, hs]
      simp only [hseg, Option.bind_some, hloop]
    · rw [List.map_set] at hsegs
      rw [hsegs]
      conv_rhs => rw [SlimMQ.splitLoop, hs]
      rfl
termination_by s.bytes.length
decreasing_by exact CString.strtok_lt hs

/-- **The segments of a topic** in memory. -/
theorem holds_splitTopic (h : m.Holds R) (A : Allocator γ) (topic : CString) :
    ∃ array segs m', splitTopic A m topic = some (array, m') ∧
      segs.map (Option.map Prod.snd) = SlimMQ.splitTopic topic ∧
      m'.Holds
        ({(array, .array (segs.map (Option.map Prod.fst)))} + (segmentBlocks segs + R)) := by
  obtain ⟨copy, m₁, halloc₁, h₁⟩ := h.alloc A (.text topic)
  obtain ⟨array, m₂, halloc₂, h₂⟩ :=
    h₁.alloc A (.array (List.replicate (topic.bytes.count slash + 1) none))
  have hblocks : ∀ n, segmentBlocks (List.replicate n none) = 0 := by
    intro n
    induction n with
    | zero => rfl
    | succ n ih => exact ih
  have h₂ : m₂.Holds ({(array, .array ((List.replicate (topic.bytes.count slash + 1) none).map
      (Option.map (Prod.fst : ℕ × CString → ℕ))))} +
      (segmentBlocks (List.replicate (topic.bytes.count slash + 1) none) +
        ({(copy, .text topic)} + R))) := by
    rwa [List.map_replicate, hblocks, zero_add]
  obtain ⟨segs, m₃, hloop, hsegs, h₃⟩ := holds_splitLoop A (i := 0) (s := topic) h₂
    (fun j _ hj => by rw [List.length_replicate] at hj; simp [hj]) (by
      rw [List.length_replicate, Nat.zero_add, ← CString.length_segments]
      exact CString.length_tokens_le slash topic)
  · rw [add_left_comm (segmentBlocks segs), add_left_comm] at h₃
    obtain ⟨m', hfree, h'⟩ := h₃.free
    refine ⟨array, segs, m', ?_, ?_, h'⟩
    · simp only [splitTopic, halloc₁, halloc₂, hloop, Option.bind_eq_bind, Option.bind_some, hfree]
    · rw [hsegs, List.map_replicate, SlimMQ.splitTopic]
      rfl

theorem holds_freeAll {segs : List (Option (ℕ × CString))} (h : m.Holds (segmentBlocks segs + R)) :
    ∃ m', (segs.map (Option.map Prod.fst)).foldlM Arena.free m = some m' ∧ m'.Holds R := by
  induction segs generalizing m with
  | nil => exact ⟨m, rfl, by simpa [segmentBlocks] using h⟩
  | cons seg segs ih =>
    cases seg with
    | none => exact ih h
    | some x =>
      rw [segmentBlocks, add_assoc] at h
      obtain ⟨m₁, hfree, h₁⟩ := h.free
      obtain ⟨m', hall, h'⟩ := ih h₁
      refine ⟨m', ?_, h'⟩
      rw [List.map_cons, List.foldlM_cons]
      exact Option.bind_eq_some_iff.mpr ⟨m₁, hfree, hall⟩

/-- The segments and their array are given back. -/
theorem holds_freeSegments {segs : List (Option (ℕ × CString))} {array : ℕ}
    (h : m.Holds ({(array, .array (segs.map (Option.map Prod.fst)))} + (segmentBlocks segs + R))) :
    ∃ m', freeSegments m array = some m' ∧ m'.Holds R := by
  have hread := readArray_of_mem h (Multiset.mem_add.mpr (Or.inl (Multiset.mem_singleton_self _)))
  rw [add_left_comm] at h
  obtain ⟨m₁, hall, h₁⟩ := holds_freeAll h
  obtain ⟨m', hfree, h'⟩ := h₁.free
  refine ⟨m', ?_, h'⟩
  simp only [freeSegments, hread, Option.bind_eq_bind, Option.bind_some, hall, hfree]

/-- **A subscription in memory** is one in the tree, and leaves no block but those of the tree. -/
theorem rel_subscribeTopic {L : Layout} (h : m.Holds (L.blocks + R)) (A : Allocator γ)
    (topicStr : CString) (addr : SockaddrIn) :
    Option.Rel (fun (t : TopicNode) (m' : TopicArena γ) => ∃ L' : Layout, L'.tree = t ∧
        L'.self = L.self ∧ m'.Holds (L'.blocks + R))
      (SlimMQ.subscribeTopic L.tree topicStr addr)
      (subscribeTopic A m (some L.self) topicStr addr) := by
  obtain ⟨array, segs, m₁, hsplit, hsegs, h₁⟩ := holds_splitTopic h A topicStr
  have hread := readArray_of_mem h₁ (Multiset.mem_add.mpr (Or.inl (Multiset.mem_singleton_self _)))
  have h₁ : m₁.Holds (L.blocks + (segmentBlocks segs +
      ({(array, .array (segs.map (Option.map Prod.fst)))} + R))) := by
    convert h₁ using 1
    abel
  simp only [SlimMQ.subscribeTopic, subscribeTopic, hsplit, Option.bind_eq_bind, Option.bind_some,
    hread]
  rw [← hsegs]
  refine rel_bind_right (rel_subscribeAt addr h₁) ?_
  rintro t m₂ ⟨L', rfl, hself, h₂⟩
  have h₂ : m₂.Holds ({(array, .array (segs.map (Option.map Prod.fst)))} +
      (segmentBlocks segs + (L'.blocks + R))) := by
    convert h₂ using 1
    abel
  obtain ⟨m', hfree, h'⟩ := holds_freeSegments h₂
  exact ⟨m', hfree, L', rfl, hself, h'⟩

/-! ## Giving back -/

theorem holds_freeEntries {l : List (ℕ × SockaddrIn)} (h : m.Holds (entryBlocks l + R)) {fuel : ℕ}
    (hf : l.length < fuel) : ∃ m', freeEntries fuel m (firstOf l) = some m' ∧ m'.Holds R := by
  induction l generalizing m fuel with
  | nil =>
    obtain ⟨fuel, rfl⟩ : ∃ n, fuel = n + 1 := ⟨fuel - 1, by omega⟩
    exact ⟨m, rfl, by simpa [entryBlocks] using h⟩
  | cons x l ih =>
    obtain ⟨p, a⟩ := x
    obtain ⟨fuel, rfl⟩ : ∃ n, fuel = n + 1 := ⟨fuel - 1, by omega⟩
    rw [entryBlocks, add_assoc] at h
    have hread := readEntry_of_mem h (Multiset.mem_add.mpr
      (Or.inl (Multiset.mem_singleton_self _)))
    obtain ⟨m₁, hfree, h₁⟩ := h.free
    obtain ⟨m', hrest, h'⟩ := ih h₁ (Nat.lt_of_succ_lt_succ hf)
    refine ⟨m', ?_, h'⟩
    simp only [firstOf, List.head?_cons, Option.map_some, freeEntries, hread, Option.bind_eq_bind,
      Option.bind_some, hfree]
    exact hrest

/-- **A loop over the children** does what the one over the list of them does, if each turn does. -/
theorem rel_forChildren {σ : Type} {l : Layout} {f : σ → Layout → Option σ}
    {body : TopicArena γ → Option ℕ → Option (TopicArena γ)}
    {P : List Layout → σ → TopicArena γ → Prop}
    (hspine : ∀ cs s m, P cs s m → ∃ B, m.Holds B ∧ ∀ x ∈ l.spine, x ∈ B)
    (hbody : ∀ c cs s m, c ∈ l.children → P (c :: cs) s m →
      Option.Rel (P cs) (f s c) (body m (some c.self)))
    {cs : List Layout} {i : ℕ} {s : σ} (hcs : l.children.drop i = cs) (h : P cs s m) :
    Option.Rel (P []) (cs.foldlM f s) (forChildren l.self body cs.length i m) := by
  induction cs generalizing i s m with
  | nil => exact Option.Rel.some h
  | cons c cs ih =>
    have hc : l.children[i]? = some c := by
      rw [← List.head?_drop, hcs]
      rfl
    have hrest : l.children.drop (i + 1) = cs := by
      rw [← List.drop_drop, hcs]
      rfl
    obtain ⟨B, hB, hsp⟩ := hspine _ _ _ h
    rw [List.foldlM_cons, List.length_cons, forChildren, childAt_eq hB hsp hc]
    simp only [Option.bind_eq_bind, Option.bind_some]
    exact rel_bind (hbody c cs s m (List.mem_of_getElem? hc) h) fun s' m' h' => ih hrest h'

/-- A loop over the children in which no turn fails. -/
theorem exists_forChildren {l : Layout}
    {body : TopicArena γ → Option ℕ → Option (TopicArena γ)} {P : List Layout → TopicArena γ → Prop}
    (hspine : ∀ cs m, P cs m → ∃ B, m.Holds B ∧ ∀ x ∈ l.spine, x ∈ B)
    (hbody : ∀ c cs m, c ∈ l.children → P (c :: cs) m →
      ∃ m', body m (some c.self) = some m' ∧ P cs m')
    (h : P l.children m) :
    ∃ m', forChildren l.self body l.children.length 0 m = some m' ∧ P [] m' := by
  have hrel : Option.Rel (fun _ => P []) (l.children.foldlM (fun (u : Unit) _ => some u) ())
      (forChildren l.self body l.children.length 0 m) := by
    refine rel_forChildren (P := fun cs _ => P cs) (fun cs _ => hspine cs) ?_ (List.drop_zero) h
    intro c cs _ m hc hm
    obtain ⟨m', hm', hP⟩ := hbody c cs m hc hm
    rw [hm']
    exact Option.Rel.some hP
  have hunit : ∀ cs : List Layout, cs.foldlM (fun (u : Unit) _ => some u) () = some () := by
    intro cs
    induction cs with
    | nil => rfl
    | cons c cs ih => exact ih
  rw [hunit] at hrel
  cases hrel' : forChildren l.self body l.children.length 0 m with
  | none => rw [hrel'] at hrel; cases hrel
  | some m' =>
    rw [hrel'] at hrel
    cases hrel with
    | some hP => exact ⟨m', rfl, hP⟩

/-- **A tree is given back** block by block, and nothing else is. -/
theorem holds_freeTopicNode {fuel : ℕ} {L : Layout} (h : m.Holds (L.blocks + R))
    (hf : L.blocks.card ≤ fuel) :
    ∃ m', freeTopicNode fuel m (some L.self) = some m' ∧ m'.Holds R := by
  induction fuel generalizing L m R with
  | zero =>
    have := L.card_pos
    omega
  | succ fuel ih =>
    have hnode := readNode_of_mem h (Multiset.mem_add.mpr (Or.inl L.node_mem))
    have hlen := length_subscribers_le h
    -- the subscribers
    rw [L.blocks_eq, add_assoc] at h
    obtain ⟨m₁, hsubs, h₁⟩ := holds_freeEntries h (Nat.lt_succ_of_le hlen)
    -- the children, one after the other
    obtain ⟨m₂, hloop, h₂⟩ := exists_forChildren (l := L) (m := m₁)
      (P := fun cs m => m.Holds (Layout.allBlocks cs +
        (L.spine + Arena.at? L.fields.segment (.text L.segment) + R)))
      (fun cs m hm => ⟨_, hm, fun x hx => by simp [hx]⟩)
      (fun c cs m hc hm => by
        rw [Layout.allBlocks, add_assoc] at hm
        exact ih hm (Nat.le_of_lt_succ ((Layout.card_lt_of_mem hc).trans_le hf)))
      (by rwa [add_assoc] at h₁)
    -- the segment, the array and the node
    rw [Layout.allBlocks, zero_add, add_right_comm, add_comm] at h₂
    obtain ⟨m₃, hfree₃, h₃⟩ := h₂.free_at?
    rw [Layout.spine, add_right_comm, add_comm] at h₃
    obtain ⟨m₄, hfree₄, h₄⟩ := h₃.free_at?
    obtain ⟨m', hfree, h'⟩ := h₄.free
    refine ⟨m', ?_, h'⟩
    simp only [freeTopicNode, hnode, Option.bind_eq_bind, Option.bind_some, L.subscribers_fields, hsubs,
      L.childCount_fields,
      hloop, hfree₃, hfree₄, hfree]

end TopicMemory

end SlimMQ
