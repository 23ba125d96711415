/-!
# Finite sets of integers

A set is stored as its elements in ascending order, so that two sets are equal exactly when they
have the same elements.

## Main definitions

- `IntSet` — finite sets of integers
- `IntSet.insert`, `IntSet.filter` — the operations that the others are made of
- `IntSet.union`, `IntSet.inter`, `IntSet.diff` — what is in either set, in both, in the first only
-/

namespace FlowAnalysis

/-- A finite set of integers: its elements, in ascending order. -/
structure IntSet where
  elems : List Int
  sorted : elems.Pairwise (· < ·)
  deriving DecidableEq

namespace IntSet

/-- Puts an integer into its place in an ascending list, unless it is there already. -/
def place (x : Int) : List Int → List Int
  | [] => [x]
  | y :: ys => if x < y then x :: y :: ys else if x = y then y :: ys else y :: place x ys

theorem mem_place {x z : Int} {ys : List Int} : z ∈ place x ys ↔ z = x ∨ z ∈ ys := by
  induction ys with
  | nil => simp [place]
  | cons y ys ih =>
    rw [place]
    split
    · simp
    · split
      · next h => simp [h]
      · simp only [List.mem_cons, ih]
        exact or_left_comm

theorem pairwise_place (x : Int) {ys : List Int} (h : ys.Pairwise (· < ·)) :
    (place x ys).Pairwise (· < ·) := by
  induction ys with
  | nil => exact List.pairwise_singleton _ _
  | cons y ys ih =>
    obtain ⟨hy, hys⟩ := List.pairwise_cons.mp h
    rw [place]
    split
    · next hx =>
      refine List.pairwise_cons.mpr ⟨fun z hz => ?_, h⟩
      obtain rfl | hz := List.mem_cons.mp hz
      · exact hx
      · exact Int.lt_trans hx (hy z hz)
    · next hx =>
      split
      · exact h
      · next hxy =>
        refine List.pairwise_cons.mpr ⟨fun z hz => ?_, ih hys⟩
        obtain rfl | hz := mem_place.mp hz
        · omega
        · exact hy z hz

def empty : IntSet := ⟨[], .nil⟩

instance : EmptyCollection IntSet := ⟨empty⟩

instance : Inhabited IntSet := ⟨empty⟩

instance : Membership Int IntSet := ⟨fun s x => x ∈ s.elems⟩

instance (x : Int) (s : IntSet) : Decidable (x ∈ s) := inferInstanceAs (Decidable (x ∈ s.elems))

def insert (s : IntSet) (x : Int) : IntSet := ⟨place x s.elems, pairwise_place x s.sorted⟩

def filter (s : IntSet) (p : Int → Bool) : IntSet := ⟨s.elems.filter p, s.sorted.filter p⟩

def erase (s : IntSet) (x : Int) : IntSet := s.filter (· ≠ x)

def ofList (xs : List Int) : IntSet := xs.foldl insert ∅

def union (s t : IntSet) : IntSet := t.elems.foldl insert s

def inter (s t : IntSet) : IntSet := s.filter (· ∈ t)

def diff (s t : IntSet) : IntSet := s.filter (· ∉ t)

theorem mem_insert {s : IntSet} {x z : Int} : z ∈ s.insert x ↔ z = x ∨ z ∈ s := mem_place

theorem mem_filter {s : IntSet} {p : Int → Bool} {z : Int} : z ∈ s.filter p ↔ z ∈ s ∧ p z :=
  List.mem_filter

theorem mem_union {s t : IntSet} {z : Int} : z ∈ s.union t ↔ z ∈ s ∨ z ∈ t := by
  have key : ∀ (xs : List Int) (s : IntSet), z ∈ xs.foldl insert s ↔ z ∈ s ∨ z ∈ xs := by
    intro xs
    induction xs with
    | nil => simp
    | cons x xs ih =>
      intro s
      rw [List.foldl_cons, ih, mem_insert, List.mem_cons, or_comm (a := z = x), or_assoc]
  exact key t.elems s

theorem mem_inter {s t : IntSet} {z : Int} : z ∈ s.inter t ↔ z ∈ s ∧ z ∈ t := by
  simp [inter, mem_filter]

theorem mem_diff {s t : IntSet} {z : Int} : z ∈ s.diff t ↔ z ∈ s ∧ z ∉ t := by
  simp [diff, mem_filter]

end IntSet

end FlowAnalysis
