import SlimMQ.Library.Buffer

/-!
# Splitting a string at a delimiter

The segments of a string are what stands between its delimiters, empty ones included; `strtok`
returns them one by one but passes over the empty ones.

## Main definitions

* `CString.segments`: the segments of a string
* `CString.tokens`: those that are not empty
* `CString.strtok`: one call of `strtok`, as the token and the rest of the string

## Main results

* `CString.length_segments`: there is one segment more than there are delimiters
* `CString.tokens_of_strtok_none`, `CString.tokens_of_strtok_some`: `strtok` returns the tokens
-/

namespace Buffer

section Split

variable {α : Type} [DecidableEq α] {d x : α} {l b : List α}

theorem mem_of_mem_splitOn (hb : b ∈ l.splitOn d) (hx : x ∈ b) : x ∈ l := by
  induction l generalizing b with
  | nil =>
    obtain rfl : b = [] := by simpa using hb
    exact hx
  | cons y l ih =>
    rw [List.splitOn_cons_eq_if_modifyHead] at hb
    split at hb
    -- a delimiter opens an empty segment
    · rcases List.mem_cons.mp hb with rfl | hb
      · cases hx
      · exact List.mem_cons_of_mem y (ih hb hx)
    -- any other element joins the first segment
    · obtain ⟨c, cs, hc⟩ := List.exists_cons_of_ne_nil (List.splitOn_ne_nil d l)
      rw [hc, List.modifyHead_cons] at hb
      rcases List.mem_cons.mp hb with rfl | hb
      · rcases List.mem_cons.mp hx with rfl | hx
        · exact List.mem_cons_self
        · exact List.mem_cons_of_mem y (ih (hc ▸ List.mem_cons_self) hx)
      · exact List.mem_cons_of_mem y (ih (hc ▸ List.mem_cons_of_mem c hb) hx)

theorem length_splitOn (d : α) (l : List α) : (l.splitOn d).length = l.count d + 1 := by
  induction l with
  | nil => simp
  | cons y l ih =>
    rw [List.splitOn_cons_eq_if_modifyHead, List.count_cons]
    split <;> simp [ih]

/-- A leading delimiter adds an empty segment only. -/
theorem filter_splitOn_dropWhile (d : α) (l : List α) :
    ((l.dropWhile (· == d)).splitOn d).filter (· ≠ []) = (l.splitOn d).filter (· ≠ []) := by
  induction l with
  | nil => rfl
  | cons y l ih =>
    by_cases hy : (y == d) = true
    · rw [List.dropWhile_cons_of_pos (by exact hy), ih, List.splitOn_cons_eq_if_modifyHead,
        if_pos hy]
      simp
    · rw [List.dropWhile_cons_of_neg (by exact hy)]

/-- Past the leading delimiters, the first segment ends at the next one. -/
theorem filter_splitOn_takeWhile {y : α} (hy : ¬ y == d) :
    ((y :: l).splitOn d).filter (· ≠ []) = (y :: l).takeWhile (· != d) ::
      ((((y :: l).dropWhile (· != d)).drop 1).splitOn d).filter (· ≠ []) := by
  have hne : (y :: l).takeWhile (· != d) ≠ [] := by
    rw [List.takeWhile_cons_of_pos (by simpa using hy)]
    exact List.cons_ne_nil _ _
  have hd : d ∉ (y :: l).takeWhile (· != d) := fun h => by
    simpa using List.mem_takeWhile_imp h
  have hsplit := List.takeWhile_append_dropWhile (p := (· != d)) (l := y :: l)
  cases hrest : (y :: l).dropWhile (· != d) with
  | nil =>
    -- no delimiter follows: the list is one segment
    rw [hrest, List.append_nil] at hsplit
    rw [hsplit] at hd ⊢
    rw [List.splitOn_eq_singleton hd]
    simp
  | cons z zs =>
    -- the segment ends at a delimiter, after which the rest is split
    obtain rfl : z = d := by
      have := List.head_dropWhile_not (· != d) (by rw [hrest]; exact List.cons_ne_nil _ _)
      simpa [hrest] using this
    rw [hrest] at hsplit
    conv_lhs => rw [← hsplit, List.splitOn_append_cons_self_of_not_mem hd]
    rw [List.filter_cons_of_pos (by simpa using hne)]
    rfl

end Split

namespace CString

/-- The segments of a string between the delimiters `d`. -/
def segments (d : UInt8) (s : CString) : List CString :=
  (s.bytes.splitOn d).attach.map fun b => ⟨b.1, fun h => s.noNul (mem_of_mem_splitOn b.2 h)⟩

/-- The segments that are not empty. -/
def tokens (d : UInt8) (s : CString) : List CString := (s.segments d).filter (· ≠ empty)

/-- One call of `strtok(s, d)`: skip the leading delimiters; the token runs to the next one. The
second string is where the following call goes on. -/
def strtok (d : UInt8) (s : CString) : Option (CString × CString) :=
  match h : s.bytes.dropWhile (· == d) with
  | [] => none
  | b :: bs => some
    (⟨(b :: bs).takeWhile (· != d), fun h0 => s.noNul
        ((List.dropWhile_sublist _).subset (h ▸ (List.takeWhile_sublist _).subset h0))⟩,
      ⟨((b :: bs).dropWhile (· != d)).drop 1, fun h0 => s.noNul
        ((List.dropWhile_sublist _).subset
          (h ▸ (List.dropWhile_sublist _).subset (List.mem_of_mem_drop h0)))⟩)

variable {d : UInt8} {s token rest : CString}

theorem map_bytes_segments (d : UInt8) (s : CString) :
    (s.segments d).map bytes = s.bytes.splitOn d := by
  simp [segments]

theorem length_segments (d : UInt8) (s : CString) :
    (s.segments d).length = s.bytes.count d + 1 := by
  rw [← List.length_map (f := bytes), map_bytes_segments, length_splitOn]

theorem map_bytes_tokens (d : UInt8) (s : CString) :
    (s.tokens d).map bytes = (s.bytes.splitOn d).filter (· ≠ []) := by
  rw [tokens, ← map_bytes_segments, List.filter_map]
  congr 1
  apply List.filter_congr
  intro t _
  simp [CString.ext_iff, empty]

/-- Without empty segments, the tokens are the segments. -/
theorem tokens_eq_segments (h : ∀ t ∈ s.segments d, t ≠ empty) : s.tokens d = s.segments d :=
  List.filter_eq_self.mpr fun t ht => by simpa using h t ht

theorem length_tokens_le (d : UInt8) (s : CString) :
    (s.tokens d).length ≤ (s.segments d).length :=
  List.length_filter_le _ _

theorem length_tokens_eq_iff :
    (s.tokens d).length = (s.segments d).length ↔ ∀ t ∈ s.segments d, t ≠ empty := by
  rw [tokens, List.length_filter_eq_length_iff]
  simp

/-- What follows a token is shorter than the string the token was cut from. -/
theorem strtok_lt (h : s.strtok d = some (token, rest)) :
    rest.bytes.length < s.bytes.length := by
  unfold strtok at h
  split at h
  · cases h
  · rename_i b bs hb
    obtain ⟨-, rfl⟩ := Prod.mk.inj (Option.some.inj h)
    have h₁ := (List.dropWhile_sublist (l := b :: bs) (· != d)).length_le
    have h₂ := (List.dropWhile_sublist (l := s.bytes) (· == d)).length_le
    simp only [hb, List.length_cons] at h₁ h₂
    simp only [List.length_drop]
    omega

theorem tokens_of_strtok_none (h : s.strtok d = none) : s.tokens d = [] := by
  unfold strtok at h
  split at h
  · rename_i hb
    -- only delimiters are left, so that every segment is empty
    apply List.map_eq_nil_iff.mp
    rw [map_bytes_tokens, ← filter_splitOn_dropWhile, hb]
    simp
  · cases h

theorem tokens_of_strtok_some (h : s.strtok d = some (token, rest)) :
    s.tokens d = token :: rest.tokens d := by
  unfold strtok at h
  split at h
  · cases h
  · rename_i b bs hb
    obtain ⟨rfl, rfl⟩ := Prod.mk.inj (Option.some.inj h)
    -- the token starts at the first byte that is no delimiter
    have hne : ¬ b == d := by
      have := List.head_dropWhile_not (· == d) (by rw [hb]; exact List.cons_ne_nil _ _)
      simpa [hb] using this
    -- the delimiters before it stand for empty segments
    have hdrop : (s.bytes.splitOn d).filter (· ≠ []) = ((b :: bs).splitOn d).filter (· ≠ []) := by
      rw [← hb, filter_splitOn_dropWhile]
    apply List.map_injective_iff.mpr fun _ _ => CString.ext
    rw [map_bytes_tokens, hdrop, filter_splitOn_takeWhile hne, List.map_cons, map_bytes_tokens]

end CString

end Buffer
