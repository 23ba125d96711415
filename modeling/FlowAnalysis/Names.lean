import FlowAnalysis.Pieces

/-!
# Names

Names are made of ASCII letters, digits, underscores and dollar signs.  Where a name stands in a
text, and nothing of the kind follows, it can be read off.

## Main definitions

- `isNameChar` — the characters that names are made of
- `IsWord` — texts that are made of them
- `word`, `afterWord` — the word in front of a text, and what follows it
- `readInt` — the integer that a numeral stands for

## Main statements

- `IsWord.word_append`, `IsWord.afterWord_append` — a word is read off the front of a text
- `IsWord.append_inj` — texts with a word in front are the same only if the words are
- `readInt_repr` — a numeral can be read back
-/

namespace FlowAnalysis

/-- An ASCII letter, a digit, an underscore or a dollar sign. -/
def isNameChar (c : Char) : Bool := c.isAlphanum || c = '_' || c = '$'

/-- A text that is not empty and made of such characters only. -/
structure IsWord (s : String) : Prop where
  ne_empty : s ≠ ""
  all_chars : ∀ c ∈ s.toList, isNameChar c = true

instance (s : String) : Decidable (IsWord s) :=
  decidable_of_iff (s ≠ "" ∧ s.toList.all isNameChar = true)
    ⟨fun h => ⟨h.1, List.all_eq_true.mp h.2⟩, fun h => ⟨h.1, List.all_eq_true.mpr h.2⟩⟩

/-- The word that stands in front of a text. -/
def word (cs : List Char) : String := String.ofList (cs.takeWhile isNameChar)

/-- What follows the word in front of a text. -/
def afterWord (cs : List Char) : List Char := cs.dropWhile isNameChar

/-- Nothing that a word could go on with stands in front. -/
def EndsWord (cs : List Char) : Prop := ∀ c ∈ cs.head?, isNameChar c = false

theorem EndsWord.nil : EndsWord [] := nofun

theorem EndsWord.cons {c : Char} (h : isNameChar c = false) (cs : List Char) : EndsWord (c :: cs) :=
  fun _ hd => Option.some.inj hd ▸ h

theorem EndsWord.takeWhile_eq_nil {cs : List Char} (h : EndsWord cs) :
    cs.takeWhile isNameChar = [] := by
  cases cs with
  | nil => rfl
  | cons c cs => rw [List.takeWhile_cons_of_neg (by simp [h c rfl])]

theorem EndsWord.word_eq_empty {cs : List Char} (h : EndsWord cs) : word cs = "" := by
  rw [word, h.takeWhile_eq_nil]

theorem EndsWord.afterWord_eq_self {cs : List Char} (h : EndsWord cs) : afterWord cs = cs := by
  cases cs with
  | nil => rfl
  | cons c cs => rw [afterWord, List.dropWhile_cons_of_neg (by simp [h c rfl])]

namespace IsWord

variable {s t : String} {cs ds : List Char}

theorem not_mem (h : IsWord s) {c : Char} (hc : isNameChar c = false) : c ∉ s.toList := by
  intro hmem
  rw [h.all_chars c hmem] at hc
  cases hc

/-- A word is read off the front of a text. -/
theorem word_append (h : IsWord s) (hcs : EndsWord cs) : word (s.toList ++ cs) = s := by
  rw [word, List.takeWhile_append_of_pos h.all_chars, hcs.takeWhile_eq_nil, List.append_nil,
    String.ofList_toList]

theorem afterWord_append (h : IsWord s) (hcs : EndsWord cs) : afterWord (s.toList ++ cs) = cs := by
  rw [afterWord, List.dropWhile_append_of_pos h.all_chars]
  exact hcs.afterWord_eq_self

/-- Of texts that a word stands in front of, each part can be told. -/
theorem append_inj (hs : IsWord s) (ht : IsWord t) (hcs : EndsWord cs) (hds : EndsWord ds)
    (h : s.toList ++ cs = t.toList ++ ds) : s = t ∧ cs = ds := by
  constructor
  · rw [← hs.word_append hcs, h, ht.word_append hds]
  · rw [← hs.afterWord_append hcs, h, ht.afterWord_append hds]

end IsWord

/-! ## Numerals -/

theorem isNameChar_of_isDigit {c : Char} (h : c.isDigit = true) : isNameChar c = true := by
  simp [isNameChar, Char.isAlphanum, h]

theorem isDigit_of_mem_repr {n : Nat} {c : Char} (h : c ∈ n.repr.toList) : c.isDigit = true := by
  rw [Nat.toList_repr] at h
  exact Nat.isDigit_of_mem_toDigits (by decide) (by decide) h

theorem isWord_repr (n : Nat) : IsWord n.repr where
  ne_empty := Nat.repr_ne_empty
  all_chars _ h := isNameChar_of_isDigit (isDigit_of_mem_repr h)

/-- In a numeral there are digits, and perhaps a sign. -/
theorem eq_or_isDigit_of_mem_repr {i : Int} {c : Char} (h : c ∈ i.repr.toList) :
    c = '-' ∨ c.isDigit = true := by
  rw [Int.repr_eq_if] at h
  split at h
  · exact .inr (isDigit_of_mem_repr h)
  · rw [String.toList_append, List.mem_append] at h
    exact h.imp List.mem_singleton.mp isDigit_of_mem_repr

/-- The integer that a numeral stands for. -/
def readInt : List Char → Int
  | '-' :: cs => -Nat.ofDigitChars 10 cs 0
  | cs => Nat.ofDigitChars 10 cs 0

theorem ofDigitChars_repr (n : Nat) : Nat.ofDigitChars 10 n.repr.toList 0 = n := by
  rw [Nat.toList_repr]
  exact Nat.ofDigitChars_toDigits (by decide) (by decide)

/-- A numeral can be read back. -/
@[simp]
theorem readInt_repr (i : Int) : readInt i.repr.toList = i := by
  rw [Int.repr_eq_if]
  split
  · next hi =>
    have hnat : readInt i.toNat.repr.toList = Nat.ofDigitChars 10 i.toNat.repr.toList 0 := by
      unfold readInt
      split
      · next cs hcs =>
        have hminus : '-' ∈ i.toNat.repr.toList := hcs ▸ List.mem_cons_self
        exact absurd (isDigit_of_mem_repr hminus) (by decide)
      · rfl
    rw [hnat, ofDigitChars_repr, Int.toNat_of_nonneg hi]
  · next hi =>
    have hneg : readInt ("-" ++ (-i).toNat.repr).toList =
        -Nat.ofDigitChars 10 (-i).toNat.repr.toList 0 := by
      rw [String.toList_append]
      rfl
    rw [hneg, ofDigitChars_repr]
    omega

theorem repr_inj {i j : Int} : i.repr = j.repr ↔ i = j := by
  refine ⟨fun h => ?_, congrArg Int.repr⟩
  rw [← readInt_repr i, h, readInt_repr]

end FlowAnalysis
