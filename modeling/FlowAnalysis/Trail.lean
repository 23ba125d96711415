/-!
# Trails

A trail is a list that grows at its end.  It is stored with the newest element first, so that a new
element is added in constant time, and it is read in the order in which the elements came.

## Main definitions

- `Trail` — trails of elements of `α`
- `Trail.toList` — the elements in the order in which they came
- `Trail.push`, `Trail.append` — what adds to a trail

The lemmas `Trail.toList_push` and `Trail.toList_append` say what adding does to the list, and by
`Trail.ext_toList` the list is all there is to a trail.
-/

namespace FlowAnalysis

/-- A list that grows at its end. -/
structure Trail (α : Type) where
  newestFirst : List α := []
  deriving DecidableEq

namespace Trail

variable {α : Type}

instance : EmptyCollection (Trail α) := ⟨{}⟩

instance : Inhabited (Trail α) := ⟨∅⟩

/-- The elements, in the order in which they came. -/
def toList (t : Trail α) : List α := t.newestFirst.reverse

def size (t : Trail α) : Nat := t.newestFirst.length

def push (t : Trail α) (a : α) : Trail α := ⟨a :: t.newestFirst⟩

/-- Adds the elements of a list at the end, in their order. -/
def append (t : Trail α) (as : List α) : Trail α := ⟨as.reverse ++ t.newestFirst⟩

@[simp]
theorem toList_empty : (∅ : Trail α).toList = [] := rfl

@[simp]
theorem toList_push (t : Trail α) (a : α) : (t.push a).toList = t.toList ++ [a] :=
  List.reverse_cons

@[simp]
theorem toList_append (t : Trail α) (as : List α) : (t.append as).toList = t.toList ++ as := by
  simp [toList, append]

@[simp]
theorem length_toList (t : Trail α) : t.toList.length = t.size := List.length_reverse

theorem ext_toList {s t : Trail α} (h : s.toList = t.toList) : s = t := by
  obtain ⟨xs⟩ := s
  obtain ⟨ys⟩ := t
  exact congrArg mk (List.reverse_inj.mp h)

end Trail

end FlowAnalysis
