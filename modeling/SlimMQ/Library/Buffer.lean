import Mathlib.Algebra.Group.Int.Defs
import Mathlib.Algebra.Group.Nat.Defs
import Mathlib.Data.List.Basic
import Mathlib.Data.List.TakeWhile
import Mathlib.Data.List.TakeDrop
import Mathlib.Tactic.Common

/-!
# Byte buffers and C strings

A pointer is modelled by the bytes it reaches, one for each offset. A buffer has its size beside
it, as in C, so that reading past its end is a read of whatever memory lies there, and a claim
that a function stays inside a buffer can be stated. A C string is its bytes before the
terminator; none of them is NUL.

## Main definitions

* `Mem.read`, `Mem.write`: the bytes of a range, and the memory after a `memcpy` into a range
* `sizeT`, `sizeSub`, `toInt`: sums, differences and conversions of `size_t`
* `le16`, `le32`: the little-endian bytes of a machine word
* `CString`: the bytes of a NUL-terminated string
* `CString.ofMem`: the string that a character array holds

## Main results

* `Mem.read_add`, `Mem.read_write`, `Mem.read_write_of_le`: how reads split and see a write
* `ofLe16_le16`, `le16_ofLe16`, `ofLe32_le32`, `le32_ofLe32`: words and their bytes
* `CString.bytes_ofMem`, `CString.ofMem_write`: the string of an array with a terminator
-/

namespace Buffer

/-- The bytes that a pointer reaches, by their offset from it. -/
abbrev Mem := ℕ → UInt8

namespace Mem

/-- The `len` bytes from offset `off` on. -/
def read (m : Mem) (off len : ℕ) : List UInt8 :=
  (List.range len).map fun i => m (off + i)

/-- The memory after `memcpy(m + off, bs, |bs|)`. -/
def write (m : Mem) (off : ℕ) (bs : List UInt8) : Mem := fun i =>
  if off ≤ i ∧ i < off + bs.length then bs.getD (i - off) 0 else m i

@[simp] theorem length_read (m : Mem) (off len : ℕ) : (m.read off len).length = len := by
  simp [read]

@[simp] theorem getElem_read (m : Mem) (off len i : ℕ) (hi : i < (m.read off len).length) :
    (m.read off len)[i] = m (off + i) := by
  simp [read]

theorem read_add (m : Mem) (off a b : ℕ) :
    m.read off (a + b) = m.read off a ++ m.read (off + a) b := by
  simp [read, List.range_add, Nat.add_assoc]

theorem read_succ (m : Mem) (off len : ℕ) :
    m.read off (len + 1) = m off :: m.read (off + 1) len := by
  rw [Nat.add_comm, read_add]
  simp [read]

/-- A read sees only the bytes of its own range. -/
theorem read_congr {m m' : Mem} {off len : ℕ}
    (h : ∀ i, off ≤ i → i < off + len → m i = m' i) : m.read off len = m'.read off len := by
  apply List.map_congr_left
  intro i hi
  have hi := List.mem_range.mp hi
  exact h (off + i) (by omega) (by omega)

theorem write_zero {m : Mem} {i : ℕ} {bs : List UInt8} (h : i < bs.length) :
    m.write 0 bs i = bs[i] := by
  simp [write, h]

/-- A write is read back. -/
@[simp] theorem read_write (m : Mem) (off : ℕ) (bs : List UInt8) :
    (m.write off bs).read off bs.length = bs := by
  apply List.ext_getElem (by simp)
  intro i h₁ h₂
  simp [write, h₂]

/-- A write from the start of a buffer is read back piece by piece. -/
theorem read_write_of_le (m : Mem) {off len : ℕ} {bs : List UInt8} (h : off + len ≤ bs.length) :
    (m.write 0 bs).read off len = (bs.drop off).take len := by
  apply List.ext_getElem (by simp; omega)
  intro i h₁ h₂
  have hi : i < len := by simpa using h₁
  rw [getElem_read, write_zero (show off + i < bs.length by omega)]
  simp

end Mem

/-! ## Machine arithmetic -/

/-- A sum as `size_t` holds it. -/
def sizeT (n : ℕ) : ℕ := n % 2 ^ 64

/-- A difference as `size_t` holds it, wrapping below zero. -/
def sizeSub (a b : ℕ) : ℕ := (a + (2 ^ 64 - b % 2 ^ 64)) % 2 ^ 64

/-- The conversion of a size to `int`. -/
def toInt (n : ℕ) : Int := (n : Int).bmod (2 ^ 32)

theorem sizeT_of_lt {n : ℕ} (h : n < 2 ^ 64) : sizeT n = n := Nat.mod_eq_of_lt h

theorem sizeSub_of_le {a b : ℕ} (h : b ≤ a) (ha : a < 2 ^ 64) : sizeSub a b = a - b := by
  unfold sizeSub
  omega

theorem toInt_of_lt {n : ℕ} (h : n < 2 ^ 31) : toInt n = n := by
  unfold toInt
  rw [Int.bmod_eq_of_le] <;> omega

/-- The conversion keeps the low 32 bits, as a number with a sign. -/
theorem toInt_bounds (n : ℕ) :
    toInt n % 2 ^ 32 = (n : Int) % 2 ^ 32 ∧ -2 ^ 31 ≤ toInt n ∧ toInt n < 2 ^ 31 :=
  ⟨Int.bmod_emod, Int.le_bmod (by decide), Int.bmod_lt (by decide)⟩

/-! ## Little-endian words -/

/-- The bytes of a 16-bit word, low byte first. -/
def le16 (x : UInt16) : List UInt8 := [UInt8.ofNat x.toNat, UInt8.ofNat (x.toNat / 256)]

/-- The 16-bit word of two bytes. -/
def ofLe16 (a b : UInt8) : UInt16 := UInt16.ofNat (a.toNat + 256 * b.toNat)

/-- The bytes of a 32-bit word, low byte first. -/
def le32 (x : UInt32) : List UInt8 :=
  [UInt8.ofNat x.toNat, UInt8.ofNat (x.toNat / 256), UInt8.ofNat (x.toNat / 65536),
    UInt8.ofNat (x.toNat / 16777216)]

/-- The 32-bit word of four bytes. -/
def ofLe32 (a b c d : UInt8) : UInt32 :=
  UInt32.ofNat (a.toNat + 256 * b.toNat + 65536 * c.toNat + 16777216 * d.toNat)

@[simp] theorem ofLe16_le16 (x : UInt16) :
    ofLe16 (UInt8.ofNat x.toNat) (UInt8.ofNat (x.toNat / 256)) = x := by
  -- compare as numbers, where the low and high byte are remainder and quotient
  apply UInt16.toNat_inj.mp
  have hx := x.toNat_lt
  simp only [ofLe16, UInt16.toNat_ofNat', UInt8.toNat_ofNat']
  omega

@[simp] theorem le16_ofLe16 (a b : UInt8) : le16 (ofLe16 a b) = [a, b] := by
  have ha := a.toNat_lt
  have hb := b.toNat_lt
  simp only [le16, ofLe16, UInt16.toNat_ofNat', List.cons.injEq, and_true]
  constructor <;> apply UInt8.toNat_inj.mp <;> simp only [UInt8.toNat_ofNat'] <;> omega

@[simp] theorem ofLe32_le32 (x : UInt32) :
    ofLe32 (UInt8.ofNat x.toNat) (UInt8.ofNat (x.toNat / 256)) (UInt8.ofNat (x.toNat / 65536))
      (UInt8.ofNat (x.toNat / 16777216)) = x := by
  apply UInt32.toNat_inj.mp
  have hx := x.toNat_lt
  simp only [ofLe32, UInt32.toNat_ofNat', UInt8.toNat_ofNat']
  omega

@[simp] theorem le32_ofLe32 (a b c d : UInt8) : le32 (ofLe32 a b c d) = [a, b, c, d] := by
  have ha := a.toNat_lt
  have hb := b.toNat_lt
  have hc := c.toNat_lt
  have hd := d.toNat_lt
  simp only [le32, ofLe32, UInt32.toNat_ofNat', List.cons.injEq, and_true]
  refine ⟨?_, ?_, ?_, ?_⟩ <;> apply UInt8.toNat_inj.mp <;> simp only [UInt8.toNat_ofNat'] <;> omega

/-! ## C strings -/

/-- A C string: its bytes before the terminator. -/
@[ext] structure CString where
  bytes : List UInt8
  noNul : 0 ∉ bytes
  deriving DecidableEq

namespace CString

/-- `strlen`. -/
def strlen (s : CString) : ℕ := s.bytes.length

/-- The empty string. -/
def empty : CString := ⟨[], by simp⟩

/-- The string that an array of `size` bytes holds: its bytes up to the first NUL. -/
def ofMem (m : Mem) (size : ℕ) : CString :=
  ⟨(m.read 0 size).takeWhile (· != 0), fun h => by simpa using List.mem_takeWhile_imp h⟩

/-- `strncpy` into an array of `n + 1` bytes that is then terminated: the first `n` bytes. -/
def take (n : ℕ) (s : CString) : CString :=
  ⟨s.bytes.take n, fun h => s.noNul (List.mem_of_mem_take h)⟩

/-- With a terminator at offset `n`, the string ends there or at an earlier NUL. -/
theorem bytes_ofMem {m : Mem} {n size : ℕ} (hn : m n = 0) (h : n < size) :
    (ofMem m size).bytes = (m.read 0 n).takeWhile (· != 0) := by
  -- the array is what stands before the terminator, the terminator, and the rest
  obtain ⟨k, rfl⟩ : ∃ k, size = n + (k + 1) := ⟨size - n - 1, by omega⟩
  simp only [ofMem, Mem.read_add, Nat.zero_add, Mem.read_succ, hn]
  rw [List.takeWhile_append]
  split
  -- no NUL before the terminator
  · rename_i hc
    rw [(List.takeWhile_prefix _).eq_of_length hc]
    simp
  · rfl

theorem bytes_ofMem_of_noNul {m : Mem} {n size : ℕ} (hn : m n = 0) (h : n < size)
    (h0 : 0 ∉ m.read 0 n) : (ofMem m size).bytes = m.read 0 n := by
  rw [bytes_ofMem hn h]
  apply List.takeWhile_eq_self_iff.mpr
  intro b hb
  simp only [bne_iff_ne, ne_eq]
  rintro rfl
  exact h0 hb

/-- A string written with its terminator is the string that the array holds. -/
theorem ofMem_write (m : Mem) {t : CString} {size : ℕ} (h : t.strlen < size) :
    ofMem (m.write 0 (t.bytes ++ [0])) size = t ∧ m.write 0 (t.bytes ++ [0]) t.strlen = 0 := by
  have hn : m.write 0 (t.bytes ++ [0]) t.strlen = 0 := by
    show m.write 0 (t.bytes ++ [0]) t.bytes.length = 0
    rw [Mem.write_zero (by simp), List.getElem_append_right (by simp)]
    simp
  have hread : (m.write 0 (t.bytes ++ [0])).read 0 t.strlen = t.bytes := by
    rw [Mem.read_write_of_le _ (by simp [strlen]), List.drop_zero]
    exact List.take_left' rfl
  refine ⟨CString.ext ?_, hn⟩
  rw [bytes_ofMem_of_noNul hn h (by rw [hread]; exact t.noNul), hread]

theorem strlen_ofMem_le {m : Mem} {n size : ℕ} (hn : m n = 0) (h : n < size) :
    (ofMem m size).strlen ≤ n := by
  rw [strlen, bytes_ofMem hn h]
  simpa using (List.takeWhile_sublist (l := m.read 0 n) (· != 0)).length_le

/-- The array's string is as long as the array says exactly when no byte before is NUL. -/
theorem strlen_ofMem_eq_iff {m : Mem} {n size : ℕ} (hn : m n = 0) (h : n < size) :
    (ofMem m size).strlen = n ↔ 0 ∉ m.read 0 n := by
  constructor
  · intro he h0
    rw [strlen, bytes_ofMem hn h] at he
    -- the string would have ended at the NUL byte
    have hself : (m.read 0 n).takeWhile (· != 0) = m.read 0 n :=
      (List.takeWhile_prefix _).eq_of_length (by simp [he])
    have := List.takeWhile_eq_self_iff.mp hself 0 h0
    simp at this
  · intro h0
    rw [strlen, bytes_ofMem_of_noNul hn h h0, Mem.length_read]

end CString

end Buffer
