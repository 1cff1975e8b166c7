import ToyMQ.Lib.Decimal

/-!
# Lexically cleaned paths

A `Path` is a cleaned path, by its elements. `Path.join` appends a text to it and cleans the
result: the text is split at the separators, empty elements and `.` are passed over and `..` takes
the last element back. The file system is not looked at.

An element that is `Plain` is appended as it is (`join_of_plain`). What lies in two children of one
directory lies in the same child (`eq_of_children`), which is how two places are told apart.
-/

namespace ToyMQ.Lib

open List

/-- The byte between the elements of a path. -/
def separator : UInt8 := 47

/-- The element `.`. -/
def dot : Bytes := [46]

/-- The element `..`. -/
def dotDot : Bytes := [46, 46]

/-- A cleaned path: whether it starts at the root, and its elements. -/
structure Path where
  rooted : Bool
  elems : List Bytes
deriving DecidableEq, Repr

namespace Path

/-- The directory above. There is none above the root, and a relative path that has no element to
take back goes further up. -/
def up (p : Path) : Path :=
  match p.elems.getLast? with
  | none => if p.rooted then p else { p with elems := [dotDot] }
  | some last =>
    if last = dotDot then { p with elems := p.elems ++ [dotDot] }
    else { p with elems := p.elems.dropLast }

/-- One element appended. -/
def push (p : Path) (elem : Bytes) : Path :=
  if elem = [] ∨ elem = dot then p
  else if elem = dotDot then p.up
  else { p with elems := p.elems ++ [elem] }

/-- A text appended behind a separator. -/
def join (p : Path) (text : Bytes) : Path := (text.splitOn separator).foldl push p

/-- The path that a text denotes; the empty text is the current directory. -/
def clean (text : Bytes) : Path := join ⟨text.head? == some separator, []⟩ text

-- Repeated separators, `.` and `..`, the last also above the start of a relative path.
example : clean [47, 97, 47, 47, 98, 47, 46, 46, 47, 46, 47, 99] = ⟨true, [[97], [99]]⟩ ∧
    clean [97, 47, 46, 46, 47, 46, 46] = ⟨false, [dotDot]⟩ ∧
    clean [47, 46, 46] = ⟨true, []⟩ := by decide +kernel

/-! ## Places above one another -/

/-- The path `p` is `q` or a directory above it. -/
def AtOrAbove (p q : Path) : Prop := p.rooted = q.rooted ∧ p.elems <+: q.elems

instance (p q : Path) : Decidable (p.AtOrAbove q) :=
  inferInstanceAs (Decidable (p.rooted = q.rooted ∧ p.elems <+: q.elems))

theorem AtOrAbove.refl (p : Path) : p.AtOrAbove p := ⟨rfl, prefix_rfl⟩

theorem AtOrAbove.trans {p q r : Path} (h : p.AtOrAbove q) (h' : q.AtOrAbove r) :
    p.AtOrAbove r :=
  ⟨h.1.trans h'.1, h.2.trans h'.2⟩

/-- The name of the entry of `p` that is `q` or leads to it. -/
def entryToward (p q : Path) : Option Bytes :=
  if p.AtOrAbove q then q.elems[p.elems.length]? else none

end Path

/-- An element that names an entry of a directory. -/
structure Plain (elem : Bytes) : Prop where
  ne_nil : elem ≠ []
  single : separator ∉ elem
  ne_dot : elem ≠ dot
  ne_dotDot : elem ≠ dotDot

/-- A numeral is a name. -/
theorem plain_paddedDecimal {w : ℕ} (h : 0 < w) (n : ℕ) : Plain (paddedDecimal w n) := by
  have hdigit : ∀ b ∈ paddedDecimal w n, isDigit b = true := fun b =>
    isDigit_of_mem_paddedDecimal
  have hdots : ∀ elem : Bytes, (46 : UInt8) ∈ elem → paddedDecimal w n ≠ elem :=
    fun elem hmem heq => absurd (hdigit 46 (heq ▸ hmem)) (by decide)
  refine ⟨?_, fun hmem => absurd (hdigit _ hmem) (by decide), hdots dot (by decide),
    hdots dotDot (by decide)⟩
  intro hnil
  have hlen := length_paddedDecimal w n
  rw [hnil, length_nil] at hlen
  omega

namespace Path

variable {p q : Path} {elem elem' : Bytes}

/-- A name is appended as it is. -/
theorem join_of_plain (p : Path) (h : Plain elem) :
    p.join elem = { p with elems := p.elems ++ [elem] } := by
  have hsplit : elem.splitOn separator = [elem] :=
    splitOnP_eq_singleton fun b hb => beq_false_of_ne fun heq => h.single (heq ▸ hb)
  rw [join, hsplit, foldl_cons, foldl_nil, push,
    if_neg (not_or.mpr ⟨h.ne_nil, h.ne_dot⟩), if_neg h.ne_dotDot]

/-- A directory is above its entries. -/
theorem atOrAbove_join (p : Path) (h : Plain elem) : p.AtOrAbove (p.join elem) := by
  rw [join_of_plain p h]
  exact ⟨rfl, prefix_append _ _⟩

/-- No entry of a directory is above it. -/
theorem not_join_atOrAbove (p : Path) (h : Plain elem) : ¬ (p.join elem).AtOrAbove p := by
  intro habove
  have hlen := habove.2.length_le
  rw [join_of_plain p h, length_append, length_singleton] at hlen
  omega

/-- The entry on the way to what lies in an entry is that entry. -/
theorem entryToward_of_join (h : Plain elem) (habove : (p.join elem).AtOrAbove q) :
    p.entryToward q = some elem := by
  have hp : p.AtOrAbove q := (atOrAbove_join p h).trans habove
  rw [join_of_plain p h] at habove
  obtain ⟨-, tail, htail⟩ := habove
  rw [entryToward, if_pos hp, ← htail, append_assoc, getElem?_append_right le_rfl,
    Nat.sub_self]
  rfl

/-- What lies in two entries of one directory lies in the same entry. -/
theorem eq_of_children (h : Plain elem) (h' : Plain elem') (habove : (p.join elem).AtOrAbove q)
    (habove' : (p.join elem').AtOrAbove q) : elem = elem' := by
  rw [← Option.some_inj, ← entryToward_of_join h habove, entryToward_of_join h' habove']

end Path

end ToyMQ.Lib
