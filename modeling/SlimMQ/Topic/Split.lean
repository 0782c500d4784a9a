import SlimMQ.Topic.TopicTable

/-!
# The segments of a topic string

`split_topic` counts separators for the length of its array but fills it with the tokens of
`strtok`, which passes over empty segments: the array is the list of segments exactly when none of
them is empty, and ends in null entries otherwise. A subscription to a topic with an empty segment
always passes a null segment on.

## Main definitions

* `WellFormedTopic`: the topic has only non-empty segments

## Main results

* `splitTopic_eq`: the tokens, and null entries for the empty segments
* `none_mem_splitTopic_iff`: there is a null entry exactly when a segment is empty
* `subscribeAt_eq_none`: a subscription does not get past a null entry
-/

namespace SlimMQ

open Buffer

/-- A topic string made of non-empty segments, which are at least one. -/
def WellFormedTopic (t : CString) : Prop := ∀ s ∈ t.segments slash, s ≠ CString.empty

instance (t : CString) : Decidable (WellFormedTopic t) :=
  inferInstanceAs (Decidable (∀ s ∈ t.segments slash, s ≠ CString.empty))

/-- The loop fills the places from `i` on with the tokens. -/
theorem splitLoop_eq (segments : List (Option CString)) (i : ℕ) (s : CString)
    (h : i + (s.tokens slash).length ≤ segments.length) :
    splitLoop segments i s = segments.take i ++ (s.tokens slash).map some ++
      segments.drop (i + (s.tokens slash).length) := by
  induction segments, i, s using splitLoop.induct with
  | case1 segments i s hs =>
    rw [splitLoop, hs, CString.tokens_of_strtok_none hs]
    simp
  | case2 segments i s token rest hs ih =>
    -- the token goes to the place `i`, and the rest behind it
    rw [CString.tokens_of_strtok_some hs, List.length_cons] at h
    rw [splitLoop, hs, CString.tokens_of_strtok_some hs]
    dsimp only
    rw [ih (by simp; omega)]
    have hi : i < segments.length := by omega
    rw [List.take_add_one, List.take_set_of_le (Nat.le_refl i), List.getElem?_set_self hi,
      List.drop_set_of_lt (by omega)]
    simp [Nat.add_assoc, Nat.add_comm 1]

/-- **The array of `split_topic`**: the non-empty segments, then a null entry for each empty
one. -/
theorem splitTopic_eq (t : CString) :
    splitTopic t = (t.tokens slash).map some ++
      List.replicate ((t.segments slash).length - (t.tokens slash).length) none := by
  have hle := CString.length_tokens_le slash t
  rw [splitTopic, ← CString.length_segments, splitLoop_eq _ _ _ (by simpa using hle)]
  simp

theorem splitTopic_of_wellFormed {t : CString} (h : WellFormedTopic t) :
    splitTopic t = (t.segments slash).map some := by
  rw [splitTopic_eq, CString.tokens_eq_segments h]
  simp

theorem none_mem_splitTopic_iff (t : CString) : none ∈ splitTopic t ↔ ¬ WellFormedTopic t := by
  have hle := CString.length_tokens_le slash t
  have hiff := CString.length_tokens_eq_iff (s := t) (d := slash)
  -- the null entries are as many as the segments that are not tokens
  rw [splitTopic_eq, List.mem_append]
  simp only [List.mem_map, reduceCtorEq, and_false, exists_false, List.mem_replicate, ne_eq,
    and_true, false_or]
  rw [WellFormedTopic, ← hiff]
  omega

/-! ## Subscriptions to a null segment -/

/-- The descent of a subscription fails as soon as it meets a null segment. -/
theorem subscribeAt_eq_none (addr : SockaddrIn) (segments : List (Option CString))
    (node : TopicNode) (h : none ∈ segments) : subscribeAt addr segments node = none := by
  induction segments generalizing node with
  | nil => cases h
  | cons segment segments ih =>
    cases segment with
    | none => rfl
    | some s =>
      have h : none ∈ segments := by simpa using h
      simp [subscribeAt, ih _ h]

end SlimMQ
