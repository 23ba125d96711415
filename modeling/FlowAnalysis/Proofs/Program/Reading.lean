import FlowAnalysis.Program.Reading
import Mathlib.Logic.Basic

/-!
# Reading expressions back

If names are names and not words that stand for something else, an expression can be read back from
its text, but for the types that fields are declared with.

## Main definitions

- `IsName`, `IsClassName` — what variables, methods and fields, and what classes may be called
- `Expr.WellNamed` — expressions with such names only
- `Expr.shown` — what the text of an expression shows

## Main statements

- `Expr.read?_of_isIdentifier`, `Expr.read?_literal` — how a text is read that starts with a name or
  with a numeral
- `Expr.read?_text` — what is shown can be read back
-/

namespace FlowAnalysis

/-! ## Names -/

/-- A word that does not start with a digit. -/
structure IsIdentifier (s : String) : Prop extends IsWord s where
  not_startsWithDigit : startsWithDigit s.toList = false

instance (s : String) : Decidable (IsIdentifier s) :=
  decidable_of_iff (IsWord s ∧ startsWithDigit s.toList = false)
    ⟨fun h => ⟨h.1, h.2⟩, fun h => ⟨h.1, h.2⟩⟩

/-- The words that are no names, although they are made like them. -/
def reservedWords : List String := ["nop", "return", "goto", "if", "cmp", "cmpl", "cmpg"]

/-- What a variable, a method or a field may be called. -/
structure IsName (s : String) : Prop extends IsIdentifier s where
  not_reserved : s ∉ reservedWords

instance (s : String) : Decidable (IsName s) :=
  decidable_of_iff (IsIdentifier s ∧ s ∉ reservedWords) ⟨fun h => ⟨h.1, h.2⟩, fun h => ⟨h.1, h.2⟩⟩

/-- What a class may be called: identifiers with dots between them, and no name of a built-in
type. -/
def IsClassName (s : String) : Prop :=
  (∃ ids : List String, ids ≠ [] ∧ (∀ i ∈ ids, IsIdentifier i) ∧ s = ".".intercalate ids) ∧
    s ∉ Ty.builtIn.map Ty.name

/-- If the type is a class, it is called what a class may be called. -/
def Ty.WellNamed : Ty → Prop
  | reference c => IsClassName c
  | _ => True

def Call.WellNamed (c : Call String) : Prop := IsName c.method ∧ ∀ a ∈ c.args, IsName a

def FieldRef.WellNamed (r : FieldRef String) : Prop := IsName r.base ∧ IsName r.field

/-- All names in an expression are names; those of the types of fields do not matter. -/
def Expr.WellNamed : Expr String → Prop
  | var v | neg v => IsName v
  | int _ | long _ => True
  | binary _ a b => IsName a ∧ IsName b
  | cast t a => t.WellNamed ∧ IsName a
  | invoke c => c.WellNamed
  | field r => r.WellNamed

/-! ## What is shown -/

/-- A field without the type it is declared with. -/
def FieldRef.shown (r : FieldRef String) : FieldRef String := { r with type := .void }

/-- An expression as its text shows it: without the type that a field is declared with. -/
def Expr.shown : Expr String → Expr String
  | field r => field r.shown
  | e => e

/-! ## Types and operators -/

theorem Ty.ofName_name {t : Ty} (h : t.WellNamed) : ofName t.name = t := by
  cases t with
  | reference c =>
    have hfind : builtIn.find? (·.name = c) = none := by
      refine List.find?_eq_none.mpr fun t ht htc => h.2 ?_
      exact List.mem_map.mpr ⟨t, ht, of_decide_eq_true htc⟩
    rw [ofName, name, hfind]
    rfl
  | _ => rfl

theorem not_mem_intercalate {α : Type} {x : α} {sep : List α} {ls : List (List α)}
    (hsep : x ∉ sep) (hls : ∀ l ∈ ls, x ∉ l) : x ∉ sep.intercalate ls := by
  induction ls with
  | nil => simp
  | cons l ls ih =>
    have hl := hls l List.mem_cons_self
    have hrest := ih fun l' hl' => hls l' (List.mem_cons_of_mem l hl')
    cases ls with
    | nil => simpa using hl
    | cons l' ls => simp [List.intercalate_cons_cons, hl, hsep, hrest]

theorem IsClassName.rparen_not_mem {c : String} (h : IsClassName c) : ')' ∉ c.toList := by
  obtain ⟨⟨ids, -, hids, rfl⟩, -⟩ := h
  rw [String.toList_intercalate]
  refine not_mem_intercalate (by decide) fun l hl => ?_
  obtain ⟨i, hi, rfl⟩ := List.mem_map.mp hl
  exact (hids i hi).not_mem (by decide)

theorem Ty.rparen_not_mem_name {t : Ty} (h : t.WellNamed) : ')' ∉ t.name.toList := by
  cases t with
  | reference c => exact h.rparen_not_mem
  | _ => decide

theorem BinaryOp.ofSymbol?_symbol (op : BinaryOp) : ofSymbol? op.symbol = some op := by
  cases op with
  | arith op => cases op <;> rfl
  | cond op => cases op <;> rfl
  | shift op => cases op <;> rfl
  | bit op => cases op <;> rfl
  | cmp op => cases op <;> rfl

theorem BinaryOp.blank_not_mem_symbol (op : BinaryOp) : ' ' ∉ op.symbol.toList := by
  cases op with
  | arith op => cases op <;> decide
  | cond op => cases op <;> decide
  | shift op => cases op <;> decide
  | bit op => cases op <;> decide
  | cmp op => cases op <;> decide

/-! ## Fronts of texts -/

section

variable {α : Type} [DecidableEq α] {xs : List α} {x : α}

theorem takeWhile_ne_append (h : x ∉ xs) (ys : List α) :
    (xs ++ x :: ys).takeWhile (· ≠ x) = xs := by
  have hne : ∀ y ∈ xs, decide (y ≠ x) = true :=
    fun y hy => decide_eq_true fun hyx => h (hyx ▸ hy)
  rw [List.takeWhile_append_of_pos hne, List.takeWhile_cons_of_neg (by simp), List.append_nil]

theorem dropWhile_ne_append (h : x ∉ xs) (ys : List α) :
    (xs ++ x :: ys).dropWhile (· ≠ x) = x :: ys := by
  have hne : ∀ y ∈ xs, decide (y ≠ x) = true :=
    fun y hy => decide_eq_true fun hyx => h (hyx ▸ hy)
  rw [List.dropWhile_append_of_pos hne, List.dropWhile_cons_of_neg (by simp)]

end

theorem IsWord.append_ne_cons {s : String} (h : IsWord s) {c : Char} (hc : isNameChar c = false)
    (cs ds : List Char) : s.toList ++ cs ≠ c :: ds := by
  obtain ⟨b, bs, hs⟩ := List.exists_cons_of_ne_nil (mt String.toList_eq_nil_iff.mp h.ne_empty)
  intro heq
  rw [hs, List.cons_append] at heq
  have hmem : c ∈ s.toList := hs ▸ (List.cons.inj heq).1 ▸ List.mem_cons_self
  exact h.not_mem hc hmem

theorem IsIdentifier.startsWithDigit_append {s : String} (h : IsIdentifier s) (cs : List Char) :
    startsWithDigit (s.toList ++ cs) = false := by
  obtain ⟨b, bs, hs⟩ := List.exists_cons_of_ne_nil (mt String.toList_eq_nil_iff.mp h.ne_empty)
  have hdigit := h.not_startsWithDigit
  rw [hs] at hdigit ⊢
  exact hdigit

/-- In front of a numeral there is a sign, or else it is a word. -/
theorem repr_cases (i : Int) : (∃ n : Nat, i.repr = n.repr) ∨
    ∃ n : Nat, i.repr.toList = '-' :: n.repr.toList := by
  rw [Int.repr_eq_if]
  split
  · exact .inl ⟨_, rfl⟩
  · exact .inr ⟨_, String.toList_append⟩

theorem startsWithDigit_repr (n : Nat) (cs : List Char) :
    startsWithDigit (n.repr.toList ++ cs) = true := by
  obtain ⟨b, bs, hs⟩ :=
    List.exists_cons_of_ne_nil (mt String.toList_eq_nil_iff.mp (Nat.repr_ne_empty (n := n)))
  rw [hs]
  exact isDigit_of_mem_repr (n := n) (hs ▸ List.mem_cons_self)

namespace Expr

/-- A text that starts with an identifier is read on behind it. -/
theorem read?_of_isIdentifier {s : String} (h : IsIdentifier s) {cs : List Char}
    (hcs : EndsWord cs) : read? (s.toList ++ cs) = readNamed? s cs := by
  rw [read?, if_neg (by simp [h.startsWithDigit_append]), h.word_append hcs, h.afterWord_append hcs]
  · exact fun ds => h.append_ne_cons (by decide) cs ds
  · exact fun ds => h.append_ne_cons (by decide) cs ds

/-- A text that starts with a numeral is read as a literal. -/
theorem read?_literal (i : Int) (cs : List Char) :
    read? (i.repr.toList ++ cs) = some (readLiteral (i.repr.toList ++ cs)) := by
  obtain ⟨n, hn⟩ | ⟨n, hn⟩ := repr_cases i
  · unfold read?
    rw [hn, if_pos (startsWithDigit_repr n cs)]
  · rw [hn, List.cons_append]
    simp only [read?, startsWithDigit_repr, if_true]
    rfl

theorem readLiteral_int (n : Int32) : readLiteral n.toInt.repr.toList = int n := by
  have hlast : n.toInt.repr.toList.getLast? ≠ some 'L' := by
    intro h
    obtain h | h := eq_or_isDigit_of_mem_repr (List.mem_of_getLast? h)
    · exact absurd h (by decide)
    · exact absurd h (by decide)
  rw [readLiteral, if_neg hlast, readInt_repr, Int32.ofInt_toInt]

theorem readLiteral_long (n : Int64) : readLiteral (n.toInt.repr.toList ++ ['L']) = long n := by
  rw [readLiteral, if_pos (by simp), List.dropLast_concat, readInt_repr, Int64.ofInt_toInt]

theorem readCast_text {t : Ty} (h : t.WellNamed) (a : String) :
    readCast (t.name.toList ++ ')' :: ' ' :: a.toList) = cast t a := by
  have hp := t.rparen_not_mem_name h
  rw [readCast, takeWhile_ne_append hp, dropWhile_ne_append hp, String.ofList_toList,
    Ty.ofName_name h]
  simp

theorem toList_text_binary (op : BinaryOp) (a b : String) : (binary op a b).text.toList =
    a.toList ++ ' ' :: (op.symbol.toList ++ ' ' :: b.toList) := by
  simp [text]

theorem toList_text_cast (t : Ty) (a : String) : (cast t a).text.toList =
    '(' :: (t.name.toList ++ ')' :: ' ' :: a.toList) := by
  simp [text]

theorem toList_text_invoke (c : Call String) : (invoke c).text.toList =
    c.method.toList ++ '(' :: ((", ".intercalate c.args).toList ++ [')']) := by
  simp [text, Call.text]

theorem toList_text_field (r : FieldRef String) :
    (field r).text.toList = r.base.toList ++ '.' :: r.field.toList := by
  simp [text, FieldRef.text]

/-- What the text of an expression shows can be read back. -/
theorem read?_text {e : Expr String} (h : e.WellNamed) : read? e.text.toList = some e.shown := by
  cases e with
  | var v => simpa [readNamed?, text, shown] using read?_of_isIdentifier h.toIsIdentifier .nil
  | int n =>
    have hread := read?_literal n.toInt []
    rw [List.append_nil, readLiteral_int] at hread
    exact hread
  | long n =>
    rw [text, String.toList_append]
    exact (read?_literal n.toInt ['L']).trans (congrArg some (readLiteral_long n))
  | binary op a b =>
    have hop := op.blank_not_mem_symbol
    rw [toList_text_binary, read?_of_isIdentifier h.1.toIsIdentifier (.cons (by decide) _),
      readNamed?, takeWhile_ne_append hop, dropWhile_ne_append hop, String.ofList_toList,
      BinaryOp.ofSymbol?_symbol]
    simp [shown]
  | neg a =>
    have hdigit : startsWithDigit a.toList = false := h.not_startsWithDigit
    have hminus : (neg a).text.toList = '-' :: a.toList := String.toList_append
    have hread : read? ('-' :: a.toList) = some (neg (String.ofList a.toList)) := by
      simp only [read?, hdigit]
      rfl
    rw [hminus, hread, String.ofList_toList]
    rfl
  | cast t a =>
    rw [toList_text_cast]
    exact congrArg some (readCast_text h.1 a)
  | invoke c =>
    have hargs : ∀ a ∈ c.args, a ≠ "" ∧ ',' ∉ a.toList ∧ ' ' ∉ a.toList := fun a ha =>
      ⟨(h.2 a ha).ne_empty, (h.2 a ha).not_mem (by decide), (h.2 a ha).not_mem (by decide)⟩
    rw [toList_text_invoke, read?_of_isIdentifier h.1.toIsIdentifier (.cons (by decide) _),
      readNamed?, List.dropLast_concat, pieces_intercalate hargs]
    rfl
  | field r =>
    rw [toList_text_field, read?_of_isIdentifier h.1.toIsIdentifier (.cons (by decide) _),
      readNamed?, String.ofList_toList]
    rfl

end Expr

end FlowAnalysis
