import FlowAnalysis.Constants.Value
import FlowAnalysis.Program.Method

/-!
# Facts about the values of variables

A fact says of every variable what is known of its value.  All but finitely many variables are
`undef`; only the others are stored, each once and in the order of their positions, so that two
facts are equal exactly when they say the same of every variable (`Fact.ext_get`).

## Main definitions

- `Fact` — what is known of all variables
- `Fact.get`, `Fact.set`, `Fact.remove` — reading and writing one variable
- `Fact.merge` — merging one fact into another, variable by variable
- `Fact.text` — how a fact is written
-/

namespace FlowAnalysis.Constants

/-- What is known of the values of all variables. -/
structure Fact where
  entries : List (VarId × Value)
  sorted : entries.Pairwise (·.1 < ·.1)
  ne_undef : ∀ e ∈ entries, e.2 ≠ .undef
  deriving DecidableEq

namespace Fact

/-! ## Entries -/

/-- The value in the first entry of a variable. -/
def lookup (v : VarId) : List (VarId × Value) → Value
  | [] => .undef
  | e :: es => if e.1 = v then e.2 else lookup v es

/-- Writes an entry in its place among entries in the order of their variables. -/
def write (v : VarId) (x : Value) : List (VarId × Value) → List (VarId × Value)
  | [] => [(v, x)]
  | e :: es =>
    if v < e.1 then (v, x) :: e :: es
    else if e.1 = v then (v, x) :: es
    else e :: write v x es

def erase (v : VarId) (es : List (VarId × Value)) : List (VarId × Value) :=
  es.filter (·.1 ≠ v)

theorem eq_or_mem_of_mem_write {v : VarId} {x : Value} {es : List (VarId × Value)}
    {d : VarId × Value} (h : d ∈ write v x es) : d = (v, x) ∨ d ∈ es := by
  induction es with
  | nil => simpa [write] using h
  | cons e es ih =>
    rw [write] at h
    split at h
    · simpa using h
    · split at h
      · obtain h | h := List.mem_cons.mp h
        · exact .inl h
        · exact .inr (List.mem_cons_of_mem e h)
      · obtain h | h := List.mem_cons.mp h
        · exact .inr (h ▸ List.mem_cons_self)
        · exact (ih h).imp_right (List.mem_cons_of_mem e)

theorem pairwise_write (v : VarId) (x : Value) {es : List (VarId × Value)}
    (h : es.Pairwise (·.1 < ·.1)) : (write v x es).Pairwise (·.1 < ·.1) := by
  induction es with
  | nil => exact List.pairwise_singleton _ _
  | cons e es ih =>
    obtain ⟨he, hes⟩ := List.pairwise_cons.mp h
    rw [write]
    split
    · next hv =>
      refine List.pairwise_cons.mpr ⟨fun d hd => ?_, h⟩
      obtain rfl | hd := List.mem_cons.mp hd
      · exact hv
      · exact Nat.lt_trans hv (he d hd)
    · next hv =>
      split
      · next hev => exact List.pairwise_cons.mpr ⟨fun d hd => hev ▸ he d hd, hes⟩
      · next hev =>
        refine List.pairwise_cons.mpr ⟨fun d hd => ?_, ih hes⟩
        obtain rfl | hd := eq_or_mem_of_mem_write hd
        · exact Nat.lt_of_le_of_ne (Nat.le_of_not_lt hv) hev
        · exact he d hd

theorem lookup_write (v w : VarId) (x : Value) (es : List (VarId × Value)) :
    lookup w (write v x es) = if v = w then x else lookup w es := by
  induction es with
  | nil => simp [write, lookup]
  | cons e es ih =>
    rw [write]
    split
    · rw [lookup]
    · split
      · next hev => simp only [lookup, hev]; split <;> rfl
      · next hev =>
        simp only [lookup, ih]
        by_cases hv : v = w
        · simp [hv, hv ▸ hev]
        · simp [hv]

theorem lookup_erase (v w : VarId) (es : List (VarId × Value)) :
    lookup w (erase v es) = if v = w then .undef else lookup w es := by
  induction es with
  | nil => simp [erase, lookup]
  | cons e es ih =>
    rw [erase] at ih ⊢
    by_cases he : e.1 = v
    · rw [List.filter_cons_of_neg (by simpa using he), ih, lookup]
      by_cases hv : v = w
      · simp [hv]
      · simp [hv, he]
    · rw [List.filter_cons_of_pos (by simpa using he), lookup, ih, lookup]
      by_cases hv : v = w
      · simp [hv, hv ▸ he]
      · simp [hv]

theorem lookup_eq_undef {v : VarId} {es : List (VarId × Value)} (h : ∀ e ∈ es, e.1 ≠ v) :
    lookup v es = .undef := by
  induction es with
  | nil => rfl
  | cons e es ih =>
    rw [lookup, if_neg (h e List.mem_cons_self)]
    exact ih fun d hd => h d (List.mem_cons_of_mem e hd)

theorem lookup_of_mem {e : VarId × Value} {es : List (VarId × Value)}
    (hs : es.Pairwise (·.1 < ·.1)) (h : e ∈ es) : lookup e.1 es = e.2 := by
  induction es with
  | nil => cases h
  | cons d es ih =>
    obtain ⟨hd, hes⟩ := List.pairwise_cons.mp hs
    obtain rfl | h := List.mem_cons.mp h
    · simp [lookup]
    · rw [lookup, if_neg (Nat.ne_of_lt (hd e h))]
      exact ih hes h

/-! ## Facts -/

/-- The fact of which no variable has been assigned. -/
def empty : Fact := ⟨[], .nil, by simp⟩

instance : EmptyCollection Fact := ⟨empty⟩

instance : Inhabited Fact := ⟨empty⟩

def get (f : Fact) (v : VarId) : Value := lookup v f.entries

/-- Forgets a variable, which is `undef` afterwards. -/
def remove (f : Fact) (v : VarId) : Fact where
  entries := erase v f.entries
  sorted := f.sorted.filter _
  ne_undef := fun e he => f.ne_undef e ((List.mem_filter.mp he).1)

/-- Sets what is known of a variable; one that is set to `undef` is not stored. -/
def set (f : Fact) (v : VarId) (x : Value) : Fact :=
  if h : x = .undef then f.remove v else
  { entries := write v x f.entries
    sorted := pairwise_write v x f.sorted
    ne_undef := by
      intro e he
      obtain rfl | he := eq_or_mem_of_mem_write he
      · exact h
      · exact f.ne_undef e he }

def setAll (f : Fact) (es : List (VarId × Value)) : Fact := es.foldl (fun f e => f.set e.1 e.2) f

def size (f : Fact) : Nat := f.entries.length

def isEmpty (f : Fact) : Bool := f.entries.isEmpty

/-- Merges entries into a fact, one after the other. -/
def mergeEntries (es : List (VarId × Value)) (target : Fact) : Fact :=
  es.foldl (fun t e => t.set e.1 (e.2.join (t.get e.1))) target

/-- Merges a fact into another, variable by variable.  A variable that only the target says
something of is as it was. -/
def merge (f target : Fact) : Fact := mergeEntries f.entries target

@[simp]
theorem get_empty (v : VarId) : (∅ : Fact).get v = .undef := rfl

/-- A forgotten variable is `undef`, and the others are as they were. -/
theorem get_remove (f : Fact) (v w : VarId) :
    (f.remove v).get w = if v = w then .undef else f.get w := lookup_erase v w f.entries

/-- A variable is what it was set to, and the others are as they were. -/
theorem get_set (f : Fact) (v w : VarId) (x : Value) :
    (f.set v x).get w = if v = w then x else f.get w := by
  unfold set
  split
  · next h => rw [get_remove, h]
  · exact lookup_write v w x f.entries

theorem get_of_mem {f : Fact} {e : VarId × Value} (h : e ∈ f.entries) : f.get e.1 = e.2 :=
  lookup_of_mem f.sorted h

/-- The variables with an entry are those that are not `undef`. -/
theorem mem_map_fst_entries {f : Fact} {v : VarId} :
    v ∈ f.entries.map Prod.fst ↔ f.get v ≠ .undef := by
  constructor
  · intro h
    obtain ⟨e, he, rfl⟩ := List.mem_map.mp h
    rw [get_of_mem he]
    exact f.ne_undef e he
  · intro h
    refine Classical.not_not.mp fun hv => h (lookup_eq_undef fun e he hev => hv ?_)
    exact List.mem_map.mpr ⟨e, he, hev⟩

/-- A variable has one entry, unless it is `undef`. -/
theorem mem_entries {f : Fact} {v : VarId} {x : Value} :
    (v, x) ∈ f.entries ↔ f.get v = x ∧ x ≠ .undef := by
  constructor
  · intro h
    exact ⟨get_of_mem h, f.ne_undef _ h⟩
  · rintro ⟨rfl, hne⟩
    obtain ⟨e, he, rfl⟩ := List.mem_map.mp (mem_map_fst_entries.mpr hne)
    exact get_of_mem he ▸ he

private theorem entries_eq {es ds : List (VarId × Value)} (hes : es.Pairwise (·.1 < ·.1))
    (hds : ds.Pairwise (·.1 < ·.1)) (hmem : ∀ e, e ∈ es ↔ e ∈ ds) : es = ds := by
  induction es generalizing ds with
  | nil =>
    cases ds with
    | nil => rfl
    | cons d ds => exact absurd ((hmem d).mpr List.mem_cons_self) (by simp)
  | cons e es ih =>
    cases ds with
    | nil => exact absurd ((hmem e).mp List.mem_cons_self) (by simp)
    | cons d ds =>
      obtain ⟨he, hes⟩ := List.pairwise_cons.mp hes
      obtain ⟨hd, hds'⟩ := List.pairwise_cons.mp hds
      have hed : e = d := by
        obtain h | h := List.mem_cons.mp ((hmem e).mp List.mem_cons_self)
        · exact h
        · obtain h' | h' := List.mem_cons.mp ((hmem d).mpr List.mem_cons_self)
          · exact h'.symm
          · exact absurd (hd e h) (Nat.lt_asymm (he d h'))
      subst hed
      refine congrArg (e :: ·) (ih hes hds' fun c => ?_)
      constructor
      · intro hc
        obtain rfl | h := List.mem_cons.mp ((hmem c).mp (List.mem_cons_of_mem e hc))
        · exact absurd (he c hc) (Nat.lt_irrefl _)
        · exact h
      · intro hc
        obtain rfl | h := List.mem_cons.mp ((hmem c).mpr (List.mem_cons_of_mem e hc))
        · exact absurd (hd c hc) (Nat.lt_irrefl _)
        · exact h

/-- Facts that say the same of every variable are equal. -/
theorem ext_get {f g : Fact} (h : ∀ v, f.get v = g.get v) : f = g := by
  have key : ∀ (f g : Fact), (∀ v, f.get v = g.get v) → ∀ e ∈ f.entries, e ∈ g.entries := by
    intro f g h e he
    have hv : g.get e.1 = e.2 := by rw [← h, get_of_mem he]
    have hm : e.1 ∈ g.entries.map Prod.fst :=
      mem_map_fst_entries.mpr (hv ▸ f.ne_undef e he)
    obtain ⟨d, hd, hde⟩ := List.mem_map.mp hm
    have : d = e := Prod.ext hde (by rw [← get_of_mem hd, hde, hv])
    exact this ▸ hd
  have hes : f.entries = g.entries :=
    entries_eq f.sorted g.sorted fun e => ⟨key f g h e, key g f (fun v => (h v).symm) e⟩
  cases f
  cases g
  congr

/-! ## Text -/

/-- Entries are written in the order of the names of their variables, and variables of one name in
the order of their positions. -/
def comesBefore (name : VarId → String) (d e : VarId × Value) : Bool :=
  name d.1 < name e.1 || (name d.1 = name e.1 && d.1 ≤ e.1)

def entryText (name : VarId → String) (e : VarId × Value) : String :=
  name e.1 ++ "=" ++ e.2.text

/-- How a fact is written; variables that are `undef` are left out. -/
def text (name : VarId → String) (f : Fact) : String :=
  let sorted := f.entries.mergeSort (comesBefore name)
  "\x7b" ++ ", ".intercalate (sorted.map (entryText name)) ++ "\x7d"

end Fact

end FlowAnalysis.Constants
