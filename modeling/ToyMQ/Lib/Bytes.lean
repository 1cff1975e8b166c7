import Mathlib.Tactic.Ring
import Mathlib.Tactic.NormNum
import Mathlib.Data.List.Basic

/-!
# Little-endian integers in byte strings

Byte strings are lists of `UInt8`. `leBytes w v` writes the `w` low bytes of `v`, lowest first,
and `leNat` reads such a string back: what it reads is the value modulo the width
(`leNat_leBytes`), and what was read is written back as it stood (`leBytes_leNat`).
-/

namespace ToyMQ.Lib

open List

/-- A byte string. -/
abbrev Bytes := List UInt8

/-- The `w` low bytes of `v`, lowest first; the bits above them are dropped. -/
def leBytes : ℕ → ℕ → Bytes
  | 0, _ => []
  | w + 1, v => UInt8.ofNat v :: leBytes w (v / 256)

/-- The integer whose bytes, lowest first, are the given ones. -/
def leNat : Bytes → ℕ
  | [] => 0
  | b :: bs => b.toNat + 256 * leNat bs

/-- `leBytes` writes exactly `w` bytes. -/
@[simp]
theorem length_leBytes (w v : ℕ) : (leBytes w v).length = w := by
  induction w generalizing v with
  | zero => rfl
  | succ w ih => rw [leBytes, length_cons, ih]

/-- Reading back what `leBytes` wrote gives the value modulo the width. -/
theorem leNat_leBytes (w v : ℕ) : leNat (leBytes w v) = v % 256 ^ w := by
  induction w generalizing v with
  | zero => rw [leBytes, leNat, pow_zero, Nat.mod_one]
  | succ w ih =>
    have hbyte : (UInt8.ofNat v).toNat = v % 256 := UInt8.toNat_ofNat'
    rw [leBytes, leNat, ih, hbyte, pow_succ', Nat.mod_mul]

variable {w v : ℕ}

/-- A value that fits the width is read back unchanged. -/
theorem leNat_leBytes_of_lt (h : v < 256 ^ w) : leNat (leBytes w v) = v := by
  rw [leNat_leBytes, Nat.mod_eq_of_lt h]

/-- What bytes stand for is below the bound of their width. -/
theorem leNat_lt (bs : Bytes) : leNat bs < 256 ^ bs.length := by
  induction bs with
  | nil => exact Nat.one_pos
  | cons b bs ih =>
    have hb : b.toNat < 256 := b.toNat_lt
    rw [leNat, length_cons, pow_succ']
    omega

/-- Writing back what was read gives the same bytes. -/
theorem leBytes_leNat (bs : Bytes) : leBytes bs.length (leNat bs) = bs := by
  induction bs with
  | nil => rfl
  | cons b bs ih =>
    have hb : b.toNat < 256 := b.toNat_lt
    have hlow : UInt8.ofNat (b.toNat + 256 * leNat bs) = b := by
      apply UInt8.toNat_inj.mp
      rw [UInt8.toNat_ofNat']
      omega
    have hhigh : (b.toNat + 256 * leNat bs) / 256 = leNat bs := by omega
    rw [leNat, length_cons, leBytes, hlow, hhigh, ih]

/-- Only zero bytes stand for zero. -/
theorem leNat_eq_zero_iff (bs : Bytes) : leNat bs = 0 ↔ bs = List.replicate bs.length 0 := by
  induction bs with
  | nil => simp [leNat]
  | cons b bs ih =>
    rw [leNat, length_cons, replicate_succ, List.cons.injEq, ← ih, ← UInt8.toNat_inj]
    simp

/-! ## Fields at an offset -/

/-- The `n` bytes at offset `off`; fewer when the string ends before. -/
def slice (bs : Bytes) (off n : ℕ) : Bytes := (bs.drop off).take n

/-- The little-endian integer of width `w` at offset `off`. -/
def leAt (bs : Bytes) (off w : ℕ) : ℕ := leNat (slice bs off w)

variable {off n : ℕ}

/-- A slice that starts after `pre` and has the length of `mid` is `mid`. -/
theorem slice_append {pre mid : Bytes} (post : Bytes) (hoff : pre.length = off)
    (hn : mid.length = n) : slice (pre ++ (mid ++ post)) off n = mid := by
  rw [slice, ← hoff, ← hn, drop_left, take_left]

/-- The integer written after `pre` is read back at that offset, modulo its width. -/
theorem leAt_append (pre : Bytes) (w v : ℕ) (post : Bytes) (hoff : pre.length = off) :
    leAt (pre ++ (leBytes w v ++ post)) off w = v % 256 ^ w := by
  rw [leAt, slice_append post hoff (length_leBytes w v), leNat_leBytes]

/-- A slice whose bounds are checked: nothing when it runs past the end. -/
def slice? (bs : Bytes) (off n : ℕ) : Option Bytes :=
  if off + n ≤ bs.length then some (slice bs off n) else none

/-- An integer whose bounds are checked. -/
def leAt? (bs : Bytes) (off w : ℕ) : Option ℕ := (slice? bs off w).map leNat

variable {bs : Bytes}

theorem slice?_eq (h : off + n ≤ bs.length) : slice? bs off n = some (slice bs off n) :=
  if_pos h

theorem leAt?_eq (h : off + w ≤ bs.length) : leAt? bs off w = some (leAt bs off w) := by
  rw [leAt?, slice?_eq h]
  rfl

/-- A slice that ends within the string has the length asked for. -/
theorem length_slice (h : off + n ≤ bs.length) : (slice bs off n).length = n := by
  rw [slice, length_take, length_drop]
  omega

/-- From an offset on, a string is a slice and what stands after it. -/
theorem slice_append_drop (bs : Bytes) (off n : ℕ) :
    slice bs off n ++ bs.drop (off + n) = bs.drop off := by
  rw [slice, ← drop_drop, take_append_drop]

/-- The bytes of the integer at an offset are those that stand there. -/
theorem leBytes_leAt (h : off + w ≤ bs.length) : leBytes w (leAt bs off w) = slice bs off w := by
  have hwrite := leBytes_leNat (slice bs off w)
  rwa [length_slice h] at hwrite

/-- The integer at an offset is below the bound of its width. -/
theorem leAt_lt (bs : Bytes) (off w : ℕ) : leAt bs off w < 256 ^ w := by
  have hlen : (slice bs off w).length ≤ w := length_take_le ..
  exact (leNat_lt _).trans_le (Nat.pow_le_pow_right (by decide) hlen)

/-! ## Fields read off the front

A reader that goes through a string once takes a field off its front and goes on with what is left.
Each of the two readers undoes its writer when anything at all follows (`takeNat_append`,
`takeField_append`), which is what makes a sequence of fields readable. -/

/-- The little-endian integer of width `w` at the front of a string, and what is left. -/
def takeNat (w : ℕ) (bs : Bytes) : Option (ℕ × Bytes) :=
  if bs.length < w then none else some (leNat (bs.take w), bs.drop w)

/-- A string behind its length, which has width `w`. -/
def field (w : ℕ) (bs : Bytes) : Bytes := leBytes w bs.length ++ bs

/-- The string behind its length at the front of another, and what is left. -/
def takeField (w : ℕ) (bs : Bytes) : Option (Bytes × Bytes) := do
  let (n, bs) ← takeNat w bs
  if bs.length < n then none else some (bs.take n, bs.drop n)

@[simp]
theorem length_field (w : ℕ) (bs : Bytes) : (field w bs).length = w + bs.length := by
  rw [field, length_append, length_leBytes]

/-- An integer is read back modulo its width. -/
theorem takeNat_append (w v : ℕ) (rest : Bytes) :
    takeNat w (leBytes w v ++ rest) = some (v % 256 ^ w, rest) := by
  have hlen : (leBytes w v).length = w := length_leBytes w v
  have hge : ¬ (leBytes w v ++ rest).length < w := by
    rw [length_append, hlen]
    omega
  rw [takeNat, if_neg hge, take_left' hlen, drop_left' hlen, leNat_leBytes]

/-- A string whose length fits the width is read back. -/
theorem takeField_append (h : bs.length < 256 ^ w) (rest : Bytes) :
    takeField w (field w bs ++ rest) = some (bs, rest) := by
  have hge : ¬ (bs ++ rest).length < bs.length := by
    rw [length_append]
    omega
  rw [takeField, field, append_assoc, takeNat_append, Nat.mod_eq_of_lt h]
  exact (if_neg hge).trans (by rw [take_left, drop_left])

variable {rest : Bytes}

/-- What is read as an integer stood there as its bytes. -/
theorem of_takeNat (h : takeNat w bs = some (v, rest)) :
    bs = leBytes w v ++ rest ∧ v < 256 ^ w := by
  unfold takeNat at h
  split_ifs at h with hshort
  obtain ⟨rfl, rfl⟩ := Prod.mk.inj (Option.some.inj h)
  have hlen : (bs.take w).length = w := length_take_of_le (Nat.le_of_not_lt hshort)
  have hwrite := leBytes_leNat (bs.take w)
  have hbound := leNat_lt (bs.take w)
  rw [hlen] at hwrite hbound
  exact ⟨by rw [hwrite, take_append_drop], hbound⟩

/-- What is read as a string stood there behind its length. -/
theorem of_takeField {s : Bytes} (h : takeField w bs = some (s, rest)) :
    bs = field w s ++ rest := by
  obtain ⟨⟨n, tail⟩, hnat, hcut⟩ := Option.bind_eq_some_iff.mp h
  obtain ⟨rfl, -⟩ := of_takeNat hnat
  dsimp only at hcut
  split_ifs at hcut with hshort
  obtain ⟨rfl, rfl⟩ := Prod.mk.inj (Option.some.inj hcut)
  have hlen : (tail.take n).length = n := length_take_of_le (Nat.le_of_not_lt hshort)
  rw [field, hlen, append_assoc, take_append_drop]

end ToyMQ.Lib
