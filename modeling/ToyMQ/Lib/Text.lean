import ToyMQ.Lib.Decimal

/-!
# Words, lines and numbers in byte strings

The operations on text that a line protocol is read with. `splitLine` takes the first line off a
stream, `fields` splits a line at white space, `cut` splits a word at its first separator, and
`parseUint` and `atoi` read numbers of 64 bits. A text is a byte string that need not be valid
UTF-8: white space is recognised by the encodings of its characters, which never begin in the
middle of another one.

A stream that starts with a line is split behind it (`splitLine_line`), and no word is empty
(`ne_nil_of_mem_fields`). Words without white space (`IsToken`), joined by blanks, are split again
into the same words (`fields_unwords`), and numerals are read back (`parseUint_paddedDecimal`,
`atoi_paddedDecimal`).
-/

namespace ToyMQ.Lib

open List Option

/-! ## Lines -/

/-- The first line of a stream with its newline, and what follows; none without a newline. -/
def splitLine : Bytes → Option (Bytes × Bytes)
  | [] => none
  | b :: bs => if b = 10 then some ([b], bs) else (splitLine bs).map fun s => (b :: s.1, s.2)

/-- The text without the bytes of `cutset` at its end. -/
def trimRight (cutset : List UInt8) (text : Bytes) : Bytes :=
  (text.reverse.dropWhile (· ∈ cutset)).reverse

theorem length_trimRight_le (cutset : List UInt8) (text : Bytes) :
    (trimRight cutset text).length ≤ text.length := by
  rw [trimRight, length_reverse]
  exact (dropWhile_suffix _).length_le.trans length_reverse.le

/-- A line is taken off a stream as a whole. -/
theorem splitLine_line {text : Bytes} (h : 10 ∉ text) (rest : Bytes) :
    splitLine (text ++ 10 :: rest) = some (text ++ [10], rest) := by
  induction text with
  | nil => rfl
  | cons b text ih =>
    rw [mem_cons, not_or] at h
    rw [cons_append, splitLine, if_neg (Ne.symm h.1), ih h.2]
    rfl

/-- Nothing but its newline is trimmed off a line that does not end in a carriage return. -/
theorem trimRight_line {text : Bytes} (h : 10 ∉ text) (hcr : text.getLast? ≠ some 13) :
    trimRight [13, 10] (text ++ [10]) = text := by
  unfold trimRight
  rw [reverse_append, reverse_singleton, singleton_append,
    dropWhile_cons_of_pos (by simp)]
  rcases eq_nil_or_concat text with rfl | ⟨front, last, rfl⟩
  · rfl
  · rw [concat_eq_append, getLast?_append, getLast?_singleton] at hcr
    have hlast : ¬ decide (last ∈ [13, 10]) = true := by
      have hne : last ≠ 10 := fun he => h (by simp [he])
      have hne' : last ≠ 13 := fun he => hcr (by simp [he])
      simp [hne, hne']
    have hdrop : (last :: front.reverse).dropWhile (· ∈ [13, 10]) = last :: front.reverse :=
      dropWhile_cons_of_neg hlast
    rw [concat_eq_append, reverse_append, reverse_singleton, singleton_append,
      hdrop, reverse_cons, reverse_reverse]

/-! ## Words -/

/-- The encodings of the characters that are white space. -/
def spaces : List Bytes :=
  [[9], [10], [11], [12], [13], [32], [0xC2, 0x85], [0xC2, 0xA0], [0xE1, 0x9A, 0x80]] ++
    (List.range 11).map (fun i => [0xE2, 0x80, 0x80 + UInt8.ofNat i]) ++
    [[0xE2, 0x80, 0xA8], [0xE2, 0x80, 0xA9], [0xE2, 0x80, 0xAF], [0xE2, 0x81, 0x9F],
      [0xE3, 0x80, 0x80]]

/-- The length of the white-space character at the front of a text; 0 when there is none. -/
def spaceLen (text : Bytes) : ℕ :=
  ((spaces.find? fun space => space.isPrefixOf text).map List.length).getD 0

/-- The words of a text, where `word` is the one that is being read, backwards, and `skip` bytes
of a white-space character are still to be passed over. -/
def fieldsFrom : ℕ → Bytes → Bytes → List Bytes
  | _, word, [] => if word = [] then [] else [word.reverse]
  | skip + 1, word, _ :: text => fieldsFrom skip word text
  | 0, word, b :: text =>
    match spaceLen (b :: text) with
    | 0 => fieldsFrom 0 (b :: word) text
    | n + 1 => (if word = [] then [] else [word.reverse]) ++ fieldsFrom n [] text

/-- The words of a text, split at white space. -/
def fields (text : Bytes) : List Bytes := fieldsFrom 0 [] text

variable {word w : Bytes}

/-- A word that is read to its end is not empty, and not longer than what was read. -/
theorem of_mem_fieldsFrom {skip : ℕ} {text : Bytes} (h : w ∈ fieldsFrom skip word text) :
    w ≠ [] ∧ w.length ≤ word.length + text.length := by
  have hflush : ∀ word : Bytes, w ∈ (if word = [] then [] else [word.reverse]) →
      w ≠ [] ∧ w.length ≤ word.length := by
    intro word hw
    split_ifs at hw with hnil
    · cases hw
    · rw [mem_singleton.mp hw, length_reverse]
      exact ⟨fun hrev => hnil (reverse_eq_nil_iff.mp hrev), le_rfl⟩
  induction text generalizing skip word with
  | nil => exact hflush word h
  | cons b text ih =>
    rw [length_cons]
    cases skip with
    | succ =>
      obtain ⟨hne, hlen⟩ := ih h
      exact ⟨hne, by omega⟩
    | zero =>
      rw [fieldsFrom] at h
      split at h
      · obtain ⟨hne, hlen⟩ := ih h
        rw [length_cons] at hlen
        exact ⟨hne, by omega⟩
      · rcases mem_append.mp h with h | h
        · obtain ⟨hne, hlen⟩ := hflush word h
          exact ⟨hne, by omega⟩
        · obtain ⟨hne, hlen⟩ := ih h
          rw [length_nil] at hlen
          exact ⟨hne, by omega⟩

/-- No word is empty. -/
theorem ne_nil_of_mem_fields {text : Bytes} (h : w ∈ fields text) : w ≠ [] :=
  (of_mem_fieldsFrom h).1

/-- No word is longer than the text. -/
theorem length_le_of_mem_fields {text : Bytes} (h : w ∈ fields text) : w.length ≤ text.length := by
  have hlen := (of_mem_fieldsFrom h).2
  rwa [length_nil, Nat.zero_add] at hlen

/-- The words together are not longer than the text. -/
theorem sum_length_fieldsFrom_le (skip : ℕ) (word text : Bytes) :
    ((fieldsFrom skip word text).map List.length).sum ≤ word.length + text.length := by
  have hflush : ∀ word : Bytes,
      ((if word = [] then [] else [word.reverse]).map List.length).sum ≤ word.length := by
    intro word
    split_ifs <;> simp
  induction text generalizing skip word with
  | nil => exact hflush word
  | cons b text ih =>
    rw [length_cons]
    cases skip with
    | succ skip =>
      have hrest := ih skip word
      rw [fieldsFrom]
      omega
    | zero =>
      rw [fieldsFrom]
      split
      · have hrest := ih 0 (b :: word)
        rw [length_cons] at hrest
        omega
      next n _ =>
        have hrest := ih n []
        have hword := hflush word
        rw [map_append, sum_append]
        rw [length_nil] at hrest
        omega

theorem sum_length_fields_le (text : Bytes) :
    ((fields text).map List.length).sum ≤ text.length := by
  have hsum := sum_length_fieldsFrom_le 0 [] text
  rwa [length_nil, Nat.zero_add] at hsum

-- White space of one, two and three bytes.
example : fields [32, 65, 66, 9, 67, 0xC2, 0xA0, 68, 0xE2, 0x80, 0x83, 0xE2, 0x80] =
    [[65, 66], [67], [68], [0xE2, 0x80]] := by decide +kernel

/-! ## Tokens -/

/-- No white-space character begins anywhere in the text. -/
def SpaceFree : Bytes → Prop
  | [] => True
  | b :: text => spaceLen (b :: text) = 0 ∧ SpaceFree text

instance : DecidablePred SpaceFree
  | [] => .isTrue trivial
  | _ :: text =>
    have := instDecidablePredBytesSpaceFree text
    inferInstanceAs (Decidable (_ ∧ _))

/-- A word that white space leaves alone. -/
structure IsToken (w : Bytes) : Prop where
  nonempty : w ≠ []
  spaceFree : SpaceFree w

instance : DecidablePred IsToken := fun w =>
  decidable_of_iff (w ≠ [] ∧ SpaceFree w) ⟨fun h => ⟨h.1, h.2⟩, fun h => ⟨h.1, h.2⟩⟩

theorem spaceLen_eq_zero_iff {text : Bytes} :
    spaceLen text = 0 ↔ ∀ space ∈ spaces, ¬ space <+: text := by
  have hpos : ∀ space ∈ spaces, space.length ≠ 0 := by decide
  unfold spaceLen
  cases hfind : spaces.find? fun space => space.isPrefixOf text with
  | none =>
    rw [find?_eq_none] at hfind
    simpa using hfind
  | some space =>
    have hmem := mem_of_find?_eq_some hfind
    have hpre := find?_some hfind
    refine iff_of_false (hpos space hmem) fun hnone => hnone space hmem ?_
    exact isPrefixOf_iff_prefix.mp hpre

variable {b c : UInt8} {rest : Bytes}

/-- White space is made of one byte, or of bytes above the ASCII range. -/
theorem spaceLen_append_of_ascii {text : Bytes} (hc : c < 128) (rest : Bytes)
    (h : spaceLen (b :: text) = 0) : spaceLen (b :: text ++ c :: rest) = 0 := by
  have htail : ∀ space ∈ spaces, space.tail.all fun x => decide (128 ≤ x) := by decide
  rw [spaceLen_eq_zero_iff] at h ⊢
  intro space hmem hpre
  -- A character that is not in the text would go on with `c`, behind its first byte.
  rcases prefix_or_prefix_of_prefix hpre (prefix_append (b :: text) (c :: rest)) with
    hin | ⟨tail, rfl⟩
  · exact h space hmem hin
  · have htl : tail <+: c :: rest := (prefix_append_right_inj _).mp hpre
    cases tail with
    | nil => exact h _ hmem (by rw [append_nil])
    | cons x =>
      obtain ⟨rfl, -⟩ := cons_prefix_cons.mp htl
      have hbig : (128 : UInt8) ≤ x := by
        simpa using List.all_eq_true.mp (htail _ hmem) x (by simp)
      exact absurd hc (UInt8.not_lt.mpr hbig)

/-- ASCII characters that print are no white space. -/
theorem spaceFree_of_printing (h : ∀ b ∈ w, 32 < b ∧ b < 127) : SpaceFree w := by
  have hhead : ∀ space ∈ spaces, space.head?.all fun b => decide (b ≤ 32 ∨ 127 ≤ b) := by decide
  have hne : ∀ space ∈ spaces, space ≠ [] := by decide
  induction w with
  | nil => trivial
  | cons b w ih =>
    refine ⟨spaceLen_eq_zero_iff.mpr fun space hmem hpre => ?_,
      ih fun x hx => h x (mem_cons_of_mem b hx)⟩
    obtain ⟨hlow, hhigh⟩ := h b mem_cons_self
    cases space with
    | nil => exact hne [] hmem rfl
    | cons =>
      obtain ⟨rfl, -⟩ := cons_prefix_cons.mp hpre
      rcases of_decide_eq_true (hhead _ hmem) with hle | hge
      · exact absurd hlow (UInt8.not_lt.mpr hle)
      · exact absurd hhigh (UInt8.not_lt.mpr hge)

/-- An ASCII character that prints keeps two texts without white space apart. -/
theorem SpaceFree.append {text : Bytes} (h : SpaceFree text) (hc : c < 128)
    (hrest : SpaceFree (c :: rest)) : SpaceFree (text ++ c :: rest) := by
  induction text with
  | nil => exact hrest
  | cons b text ih => exact ⟨spaceLen_append_of_ascii hc rest h.1, ih h.2⟩

theorem fieldsFrom_spaceFree (hw : SpaceFree w) (acc : Bytes) :
    fieldsFrom 0 acc w = if w.reverse ++ acc = [] then [] else [(w.reverse ++ acc).reverse] := by
  induction w generalizing acc with
  | nil => rfl
  | cons b w ih =>
    rw [fieldsFrom, hw.1]
    rw [ih hw.2, reverse_cons, append_assoc, singleton_append]

theorem fieldsFrom_blank (hw : SpaceFree w) (acc rest : Bytes) :
    fieldsFrom 0 acc (w ++ 32 :: rest) =
      (if w.reverse ++ acc = [] then [] else [(w.reverse ++ acc).reverse]) ++ fields rest := by
  induction w generalizing acc with
  | nil => rfl
  | cons b w ih =>
    rw [cons_append, fieldsFrom, ← cons_append,
      spaceLen_append_of_ascii (by decide) rest hw.1]
    rw [ih hw.2, reverse_cons, append_assoc, singleton_append]

namespace IsToken

variable {w : Bytes}

theorem fields_eq (h : IsToken w) : fields w = [w] := by
  rw [fields, fieldsFrom_spaceFree h.spaceFree, append_nil,
    if_neg fun hnil => h.nonempty (reverse_eq_nil_iff.mp hnil), reverse_reverse]

/-- A token that a blank follows is the first word. -/
theorem fields_cons (h : IsToken w) (rest : Bytes) :
    fields (w ++ 32 :: rest) = w :: fields rest := by
  rw [fields, fieldsFrom_blank h.spaceFree, append_nil,
    if_neg fun hnil => h.nonempty (reverse_eq_nil_iff.mp hnil), reverse_reverse]
  rfl

end IsToken

/-- White space of one byte does not occur. -/
theorem SpaceFree.notMem (h : SpaceFree w) (hb : [b] ∈ spaces) : b ∉ w := by
  induction w with
  | nil => exact not_mem_nil
  | cons x w ih =>
    intro hmem
    rcases mem_cons.mp hmem with rfl | hmem
    · exact spaceLen_eq_zero_iff.mp h.1 [b] hb (by simp)
    · exact ih h.2 hmem

/-- No white-space character begins in `text`, not even one that goes on in `rest`. -/
def SpaceFreeBefore : Bytes → Bytes → Prop
  | [], _ => True
  | b :: text, rest => spaceLen (b :: text ++ rest) = 0 ∧ SpaceFreeBefore text rest

theorem SpaceFreeBefore.spaceFree {text : Bytes} (h : SpaceFreeBefore text rest) :
    SpaceFree text := by
  induction text with
  | nil => trivial
  | cons b text ih =>
    refine ⟨?_, ih h.2⟩
    have hnone := spaceLen_eq_zero_iff.mp h.1
    exact spaceLen_eq_zero_iff.mpr fun space hmem hpre =>
      hnone space hmem (hpre.trans (prefix_append _ _))

theorem SpaceFreeBefore.snoc {text : Bytes} (h : SpaceFreeBefore text (b :: rest))
    (hb : spaceLen (b :: rest) = 0) : SpaceFreeBefore (text ++ [b]) rest := by
  induction text with
  | nil => exact ⟨hb, trivial⟩
  | cons x text ih =>
    refine ⟨?_, ih h.2⟩
    have hx := h.1
    rw [append_cons] at hx
    exact hx

/-- A word is free of white space, if what is read of it so far is, in view of what is to come. -/
theorem spaceFree_of_mem_fieldsFrom {skip : ℕ} {text : Bytes} (h : w ∈ fieldsFrom skip word text)
    (hword : SpaceFreeBefore word.reverse text) (hskip : skip = 0 ∨ word = []) : SpaceFree w := by
  have hflush : ∀ word text : Bytes, SpaceFreeBefore word.reverse text →
      w ∈ (if word = [] then [] else [word.reverse]) → SpaceFree w := by
    intro word text hword hw
    split_ifs at hw
    · cases hw
    · rw [mem_singleton.mp hw]
      exact hword.spaceFree
  induction text generalizing skip word with
  | nil => exact hflush word [] hword h
  | cons b text ih =>
    have hnext : ∀ n, w ∈ fieldsFrom n [] text → SpaceFree w := fun n hw =>
      ih hw trivial (.inr rfl)
    cases skip with
    | succ skip =>
      obtain rfl := hskip.resolve_left (Nat.succ_ne_zero skip)
      exact hnext skip h
    | zero =>
      rw [fieldsFrom] at h
      split at h
      next hlen =>
        refine ih h ?_ (.inl rfl)
        rw [reverse_cons]
        exact hword.snoc hlen
      next n _ =>
        rcases mem_append.mp h with hw | hw
        · exact hflush word (b :: text) hword hw
        · exact hnext n hw

/-- Every word of a text is a token. -/
theorem isToken_of_mem_fields {text : Bytes} (h : w ∈ fields text) : IsToken w :=
  ⟨ne_nil_of_mem_fields h, spaceFree_of_mem_fieldsFrom h trivial (.inl rfl)⟩

/-- Words with a blank between each two of them. -/
def unwords (ws : List Bytes) : Bytes := List.intercalate [32] ws

theorem unwords_cons_cons (w x : Bytes) (ws : List Bytes) :
    unwords (w :: x :: ws) = w ++ 32 :: unwords (x :: ws) := by
  simp [unwords]

variable {ws : List Bytes}

/-- A line of tokens has no white space but its blanks. -/
theorem notMem_unwords (h : ∀ w ∈ ws, IsToken w) (hb : [b] ∈ spaces) (hne : b ≠ 32) :
    b ∉ unwords ws := by
  induction ws with
  | nil => exact not_mem_nil
  | cons w ws ih =>
    have hw := (h w mem_cons_self).spaceFree.notMem hb
    have hws := ih fun x hx => h x (mem_cons_of_mem w hx)
    cases ws with
    | nil => simpa [unwords] using hw
    | cons =>
      rw [unwords_cons_cons, mem_append, mem_cons]
      rintro (hin | hin | hin)
      · exact hw hin
      · exact hne hin
      · exact hws hin

/-- Tokens are read back from the line that they make. -/
theorem fields_unwords (h : ∀ w ∈ ws, IsToken w) : fields (unwords ws) = ws := by
  induction ws with
  | nil => rfl
  | cons w ws ih =>
    have hw := h w mem_cons_self
    have hws := ih fun x hx => h x (mem_cons_of_mem w hx)
    cases ws with
    | nil => simpa [unwords] using hw.fields_eq
    | cons => rw [unwords_cons_cons, hw.fields_cons, hws]

/-- The text before the first `sep` and the text after it; none when there is no `sep`. -/
def cut (sep : UInt8) : Bytes → Option (Bytes × Bytes)
  | [] => none
  | b :: text => if b = sep then some ([], text) else (cut sep text).map fun s => (b :: s.1, s.2)

variable {sep : UInt8}

/-- The parts of a text that is cut. -/
theorem eq_of_cut {text before after : Bytes} (h : cut sep text = some (before, after)) :
    text = before ++ sep :: after := by
  induction text generalizing before with
  | nil => cases h
  | cons b text ih =>
    rw [cut] at h
    split_ifs at h with hb
    · cases h
      rw [hb, nil_append]
    · obtain ⟨s, hs, heq⟩ := map_eq_some_iff.mp h
      cases heq
      rw [ih hs, cons_append]

theorem cut_eq_none {text : Bytes} (h : sep ∉ text) : cut sep text = none := by
  induction text with
  | nil => rfl
  | cons b text ih =>
    rw [mem_cons, not_or] at h
    rw [cut, if_neg (Ne.symm h.1), ih h.2]
    rfl

theorem notMem_of_cut_eq_none {text : Bytes} (h : cut sep text = none) : sep ∉ text := by
  induction text with
  | nil => exact not_mem_nil
  | cons b text ih =>
    rw [cut] at h
    split_ifs at h with hb
    rw [mem_cons, not_or]
    exact ⟨Ne.symm hb, ih (map_eq_none_iff.mp h)⟩

/-- What comes before the first separator has none. -/
theorem notMem_of_cut {text before after : Bytes} (h : cut sep text = some (before, after)) :
    sep ∉ before := by
  induction text generalizing before with
  | nil => cases h
  | cons b text ih =>
    rw [cut] at h
    split_ifs at h with hb
    · cases h
      exact not_mem_nil
    · obtain ⟨s, hs, heq⟩ := map_eq_some_iff.mp h
      cases heq
      rw [mem_cons, not_or]
      exact ⟨Ne.symm hb, ih hs⟩

/-- A text is cut at its first separator. -/
theorem cut_append {before : Bytes} (h : sep ∉ before) (after : Bytes) :
    cut sep (before ++ sep :: after) = some (before, after) := by
  induction before with
  | nil => exact if_pos rfl
  | cons b before ih =>
    rw [mem_cons, not_or] at h
    rw [cons_append, cut, if_neg (Ne.symm h.1), ih h.2]
    rfl

/-- The text behind `head`, when it starts with that. -/
def stripStart (head text : Bytes) : Option Bytes :=
  if head.isPrefixOf text then some (text.drop head.length) else none

theorem stripStart_append (head rest : Bytes) : stripStart head (head ++ rest) = some rest := by
  unfold stripStart
  rw [if_pos (List.isPrefixOf_iff_prefix.mpr (prefix_append head rest)), drop_left]

theorem stripStart_eq_none (hne : b ≠ c) (head text : Bytes) :
    stripStart (b :: head) (c :: text) = none := by
  unfold stripStart
  rw [if_neg]
  rw [List.isPrefixOf_iff_prefix, cons_prefix_cons]
  exact fun h => hne h.1

/-! ## Numbers -/

/-- What is wrong with a number. -/
inductive NumError where
  | badSyntax
  | outOfRange
deriving DecidableEq, Repr

/-- The number that digits denote after `n`; the first digit that makes it too large ends it. -/
def parseUintFrom (n : ℕ) : Bytes → Except NumError ℕ
  | [] => .ok n
  | b :: bs =>
    if ¬ isDigit b then .error .badSyntax
    else if 2 ^ 64 ≤ 10 * n + (b.toNat - 48) then .error .outOfRange
    else parseUintFrom (10 * n + (b.toNat - 48)) bs

/-- An unsigned number of 64 bits. -/
def parseUint (bs : Bytes) : Except NumError ℕ :=
  if bs = [] then .error .badSyntax else parseUintFrom 0 bs

variable {bs : Bytes} {n : ℕ}

/-- A number that is read has the value of its digits. -/
theorem eq_of_parseUint (h : parseUint bs = .ok n) : n = digitsValue bs := by
  have hfrom : ∀ (bs : Bytes) (m : ℕ), parseUintFrom m bs = .ok n →
      n = bs.foldl (fun acc b => 10 * acc + (b.toNat - 48)) m := by
    intro bs
    induction bs with
    | nil =>
      intro m hm
      cases hm
      rfl
    | cons b bs ih =>
      intro m hm
      rw [parseUintFrom] at hm
      split_ifs at hm
      exact ih _ hm
  unfold parseUint at h
  split_ifs at h
  exact hfrom bs 0 h

/-- Digits are read as their number when it has 64 bits. -/
theorem parseUint_eq_ok (hne : bs ≠ []) (hdigits : ∀ b ∈ bs, isDigit b = true)
    (hlt : digitsValue bs < 2 ^ 64) : parseUint bs = .ok (digitsValue bs) := by
  have hgrows : ∀ (bs : Bytes) (m : ℕ),
      m ≤ bs.foldl (fun acc b => 10 * acc + (b.toNat - 48)) m := by
    intro bs
    induction bs with
    | nil => exact fun m => le_rfl
    | cons b bs ih => exact fun m => le_trans (by omega) (ih (10 * m + (b.toNat - 48)))
  have hfrom : ∀ (bs : Bytes) (m : ℕ), (∀ b ∈ bs, isDigit b = true) →
      bs.foldl (fun acc b => 10 * acc + (b.toNat - 48)) m < 2 ^ 64 →
      parseUintFrom m bs = .ok (bs.foldl (fun acc b => 10 * acc + (b.toNat - 48)) m) := by
    intro bs
    induction bs with
    | nil => exact fun m _ _ => rfl
    | cons b bs ih =>
      intro m hall hsmall
      rw [foldl_cons] at hsmall ⊢
      have hstep := hgrows bs (10 * m + (b.toNat - 48))
      rw [parseUintFrom, if_neg (not_not_intro (hall b mem_cons_self)),
        if_neg (Nat.not_le.mpr (lt_of_le_of_lt hstep hsmall))]
      exact ih _ (fun x hx => hall x (mem_cons_of_mem b hx)) hsmall
  rw [parseUint, if_neg hne]
  exact hfrom bs 0 hdigits hlt

/-- The numeral of a number of 64 bits is read back. -/
theorem parseUint_paddedDecimal (h : n < 2 ^ 64) : parseUint (paddedDecimal 1 n) = .ok n := by
  have hparsed := parseUint_eq_ok (paddedDecimal_ne_nil n)
    (fun b hb => isDigit_of_mem_paddedDecimal hb) (by rwa [digitsValue_paddedDecimal])
  rwa [digitsValue_paddedDecimal] at hparsed

/-- A signed number of 64 bits. -/
def atoi (bs : Bytes) : Option ℤ :=
  if bs.head? = some 45 then (parseBelow (2 ^ 63 + 1) bs.tail).map fun n : ℕ => -(n : ℤ)
  else (parseBelow (2 ^ 63) (if bs.head? = some 43 then bs.tail else bs)).map fun n : ℕ => (n : ℤ)

/-- What is read is a number of 64 bits. -/
theorem lt_of_atoi {v : ℤ} (h : atoi bs = some v) : v < 2 ^ 63 := by
  have hbelow : ∀ {bound n : ℕ} {ds : Bytes}, parseBelow bound ds = some n → n < bound := by
    intro bound n ds hn
    unfold parseBelow at hn
    split_ifs at hn with hds
    cases hn
    exact hds.2.2
  unfold atoi at h
  split_ifs at h
  · obtain ⟨n, -, rfl⟩ := map_eq_some_iff.mp h
    omega
  all_goals
    obtain ⟨n, hn, rfl⟩ := map_eq_some_iff.mp h
    have hlt := hbelow hn
    omega

/-- The numeral of a number of 63 bits is read back. -/
theorem atoi_paddedDecimal (h : n < 2 ^ 63) : atoi (paddedDecimal 1 n) = some (n : ℤ) := by
  have hsign : ∀ b : UInt8, isDigit b = false → (paddedDecimal 1 n).head? ≠ some b := by
    intro b hb hhead
    have hdigit := isDigit_of_mem_paddedDecimal (mem_of_mem_head? hhead)
    rw [hb] at hdigit
    cases hdigit
  unfold atoi
  rw [if_neg (hsign 45 (by decide)), if_neg (hsign 43 (by decide)), parseBelow_paddedDecimal h]
  rfl

/-- The characters of a numeral print. -/
theorem printing_of_mem_paddedDecimal {w : ℕ} (hb : b ∈ paddedDecimal w n) : 32 < b ∧ b < 127 := by
  have hdigit := isDigit_of_mem_paddedDecimal hb
  simp only [isDigit, Bool.and_eq_true, decide_eq_true_eq] at hdigit
  rw [UInt8.lt_iff_toNat_lt, UInt8.lt_iff_toNat_lt]
  change 32 < b.toNat ∧ b.toNat < 127
  omega

/-- A numeral is a token. -/
theorem isToken_paddedDecimal (n : ℕ) : IsToken (paddedDecimal 1 n) :=
  ⟨paddedDecimal_ne_nil n, spaceFree_of_printing fun _ hb => printing_of_mem_paddedDecimal hb⟩

end ToyMQ.Lib
