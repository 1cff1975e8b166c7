import Mathlib.Data.Nat.Digits.Lemmas
import ToyMQ.Lib.Bytes

/-!
# Decimal numerals in byte strings

`paddedDecimal w n` is the numeral of `n` with leading zeros up to the width `w`, as the format
`%0wd` prints it, and `digitsValue` is the number that a string of digits denotes. Reading a
padded numeral gives the number back (`digitsValue_paddedDecimal`), so padding loses nothing; a
numeral has exactly `w` digits when the number is below `10 ^ w`, and more otherwise.
`parseBelow` reads a numeral and refuses anything else.
-/

namespace ToyMQ.Lib

open List

/-- The byte of a digit. -/
def digit (d : ℕ) : UInt8 := UInt8.ofNat (48 + d)

/-- Whether a byte is a decimal digit. -/
def isDigit (b : UInt8) : Bool := 48 ≤ b.toNat && b.toNat ≤ 57

/-- The number that a string of digits denotes. -/
def digitsValue (bs : Bytes) : ℕ := bs.foldl (fun acc b => 10 * acc + (b.toNat - 48)) 0

/-- The numeral of `n` with leading zeros up to the width `w`. -/
def paddedDecimal (w n : ℕ) : Bytes :=
  List.leftpad w (digit 0) ((Nat.digits 10 n).reverse.map digit)

theorem toNat_digit {d : ℕ} (h : d < 10) : (digit d).toNat = 48 + d := by
  rw [digit, UInt8.toNat_ofNat', Nat.mod_eq_of_lt (by omega)]

variable {w n : ℕ}

/-- Every byte of a numeral is a digit. -/
theorem isDigit_of_mem_paddedDecimal {b : UInt8} (h : b ∈ paddedDecimal w n) :
    isDigit b = true := by
  have hdigit : ∀ d < 10, isDigit (digit d) = true := fun d hd => by
    simp only [isDigit, toNat_digit hd, Bool.and_eq_true, decide_eq_true_eq]
    omega
  rw [paddedDecimal, List.leftpad, mem_append] at h
  rcases h with hpad | hnum
  · rw [eq_of_mem_replicate hpad]
    exact hdigit 0 (by omega)
  · obtain ⟨d, hd, rfl⟩ := List.mem_map.mp hnum
    exact hdigit d (Nat.digits_lt_base (by omega) (mem_reverse.mp hd))

/-- The length of a numeral. -/
theorem length_paddedDecimal (w n : ℕ) :
    (paddedDecimal w n).length = max w (Nat.digits 10 n).length := by
  rw [paddedDecimal, length_leftpad, length_map, length_reverse]

/-- A number below `10 ^ w` has a numeral of exactly `w` digits. -/
theorem length_paddedDecimal_of_lt (h : n < 10 ^ w) : (paddedDecimal w n).length = w := by
  rw [length_paddedDecimal, max_eq_left ((Nat.digits_length_le_iff (by omega) n).mpr h)]

/-- A number from `10 ^ w` on has a numeral of more than `w` digits. -/
theorem lt_length_paddedDecimal (h : 10 ^ w ≤ n) : w < (paddedDecimal w n).length := by
  rw [length_paddedDecimal, lt_max_iff]
  right
  rw [← Nat.not_le, Nat.digits_length_le_iff (by omega) n]
  omega

/-- Leading zeros do not change the value. -/
theorem digitsValue_replicate_append (k : ℕ) (bs : Bytes) :
    digitsValue (List.replicate k (digit 0) ++ bs) = digitsValue bs := by
  induction k with
  | zero => rfl
  | succ k ih =>
    rw [replicate_succ, cons_append, ← ih]
    rfl

/-- The value of the digits of a number, most significant first. -/
theorem digitsValue_map_reverse {ds : List ℕ} (h : ∀ d ∈ ds, d < 10) :
    digitsValue (ds.reverse.map digit) = Nat.ofDigits 10 ds := by
  induction ds with
  | nil => rfl
  | cons d ds ih =>
    have hd : d < 10 := h d mem_cons_self
    have ih' := ih fun e he => h e (mem_cons_of_mem d he)
    unfold digitsValue at ih' ⊢
    rw [reverse_cons, map_append, foldl_append, ih', Nat.ofDigits_cons]
    simp only [map_cons, map_nil, foldl_cons, foldl_nil, toNat_digit hd]
    omega

/-- Reading a padded numeral gives the number back. -/
theorem digitsValue_paddedDecimal (w n : ℕ) : digitsValue (paddedDecimal w n) = n := by
  rw [paddedDecimal, List.leftpad, digitsValue_replicate_append,
    digitsValue_map_reverse fun d hd => Nat.digits_lt_base (by omega) hd, Nat.ofDigits_digits]

/-- The number that a numeral below `bound` denotes; none when it is not one. -/
def parseBelow (bound : ℕ) (bs : Bytes) : Option ℕ :=
  if bs ≠ [] ∧ bs.all isDigit ∧ digitsValue bs < bound then some (digitsValue bs) else none

theorem paddedDecimal_ne_nil (n : ℕ) : paddedDecimal 1 n ≠ [] := by
  intro hnil
  have hlen := length_paddedDecimal 1 n
  rw [hnil, length_nil] at hlen
  exact absurd (le_max_left 1 (Nat.digits 10 n).length) (by omega)

/-- A numeral without needless zeros is read back. -/
theorem parseBelow_paddedDecimal {bound : ℕ} (h : n < bound) :
    parseBelow bound (paddedDecimal 1 n) = some n := by
  have hdigits : (paddedDecimal 1 n).all isDigit = true :=
    List.all_eq_true.mpr fun b hb => isDigit_of_mem_paddedDecimal hb
  unfold parseBelow
  rw [digitsValue_paddedDecimal, if_pos ⟨paddedDecimal_ne_nil n, hdigits, h⟩]

end ToyMQ.Lib
