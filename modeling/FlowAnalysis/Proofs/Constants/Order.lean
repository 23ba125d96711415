import FlowAnalysis.Constants.Analysis
import Mathlib.Algebra.BigOperators.Group.Finset.Basic
import Mathlib.Algebra.Order.BigOperators.Group.Finset
import Mathlib.Order.Lattice

/-!
# The order of facts

Values form a lattice of three levels, and facts are ordered variable by variable.  Merging a fact
into another is the join of the two.  The levels of the variables add up to the level of a fact, and
a fact that rises gets to a higher one.

## Main definitions

- `Value.rank` — the level of a value
- `Fact.Tracks` — only variables of a set have entries
- `Fact.level` — how high a fact about finitely many variables stands

## Main statements

- `Fact.get_merge` — merging joins the values of each variable
- `Fact.level_lt` — a fact that rises gets to a higher level
-/

namespace FlowAnalysis.Constants

/-! ## Values -/

namespace Value

theorem le_iff {x y : Value} : x ≤ y ↔ x = undef ∨ y = nac ∨ x = y := by
  constructor
  · rintro (_ | _ | _)
    · exact .inl rfl
    · exact .inr (.inl rfl)
    · exact .inr (.inr rfl)
  · rintro (rfl | rfl | rfl)
    · exact .undef_le y
    · exact .le_nac x
    · exact .refl x

instance : PartialOrder Value where
  le_refl := AtMost.refl
  le_trans x y z hxy hyz := by
    cases hxy with
    | undef_le => exact .undef_le z
    | le_nac =>
      cases hyz with
      | le_nac => exact .le_nac x
      | refl => exact .le_nac x
    | refl => exact hyz
  le_antisymm x y hxy hyx := by
    cases hxy with
    | undef_le => cases hyx <;> rfl
    | le_nac => cases hyx <;> rfl
    | refl => rfl

theorem le_join_left (x y : Value) : x ≤ x.join y := by
  cases x <;> cases y <;> grind [join, le_iff]

theorem le_join_right (x y : Value) : y ≤ x.join y := by
  cases x <;> cases y <;> grind [join, le_iff]

theorem join_le {x y z : Value} (hx : x ≤ z) (hy : y ≤ z) : x.join y ≤ z := by
  rw [le_iff] at hx hy
  cases x <;> cases y <;> grind [join, le_iff]

instance : SemilatticeSup Value where
  sup := join
  le_sup_left := le_join_left
  le_sup_right := le_join_right
  sup_le _ _ _ := join_le

theorem undef_le (x : Value) : undef ≤ x := AtMost.undef_le x

theorem le_nac (x : Value) : x ≤ nac := AtMost.le_nac x

theorem eq_nac_of_le {x : Value} (h : nac ≤ x) : x = nac := by
  simpa [le_iff, eq_comm] using h

theorem eq_undef_of_le {x : Value} (h : x ≤ undef) : x = undef := by
  simpa [le_iff] using h

/-- The level of a value: nothing assigned, one integer, any integer. -/
def rank : Value → Nat
  | undef => 0
  | const _ => 1
  | nac => 2

theorem rank_le_two (x : Value) : x.rank ≤ 2 := by cases x <;> simp [rank]

theorem rank_le_rank {x y : Value} (h : x ≤ y) : x.rank ≤ y.rank := by
  obtain rfl | rfl | rfl := le_iff.mp h
  · exact Nat.zero_le _
  · exact rank_le_two x
  · exact le_rfl

theorem rank_lt_rank {x y : Value} (h : x ≤ y) (hne : x ≠ y) : x.rank < y.rank := by
  obtain rfl | rfl | rfl := le_iff.mp h
  · cases y <;> simp_all [rank]
  · cases x <;> simp_all [rank]
  · exact absurd rfl hne

end Value

/-! ## Facts -/

namespace Fact

theorem get_mergeEntries {es : List (VarId × Value)} (h : es.Pairwise (·.1 < ·.1)) (target : Fact)
    (v : VarId) : (mergeEntries es target).get v = (lookup v es).join (target.get v) := by
  induction es generalizing target with
  | nil => simp [mergeEntries, lookup]
  | cons e es ih =>
    obtain ⟨he, hes⟩ := List.pairwise_cons.mp h
    have hstep : mergeEntries (e :: es) target =
        mergeEntries es (target.set e.1 (e.2.join (target.get e.1))) := rfl
    rw [hstep, ih hes, get_set, lookup]
    by_cases hv : e.1 = v
    · -- No later entry is about the same variable.
      have hrest : lookup v es = .undef :=
        lookup_eq_undef fun d hd => Nat.ne_of_gt (hv ▸ he d hd)
      rw [if_pos hv, if_pos hv, hrest, Value.undef_join, hv]
    · rw [if_neg hv, if_neg hv]

/-- Merging joins the values of each variable. -/
theorem get_merge (f target : Fact) (v : VarId) :
    (f.merge target).get v = (f.get v).join (target.get v) :=
  get_mergeEntries f.sorted target v

instance : LE Fact := ⟨fun f g => ∀ v, f.get v ≤ g.get v⟩

instance : PartialOrder Fact where
  le_refl f v := le_refl (f.get v)
  le_trans _ _ _ hfg hgh v := (hfg v).trans (hgh v)
  le_antisymm _ _ hfg hgf := ext_get fun v => (hfg v).antisymm (hgf v)

instance : SemilatticeSup Fact where
  sup := merge
  le_sup_left f g v := by
    rw [get_merge]
    exact le_sup_left (a := f.get v)
  le_sup_right f g v := by
    rw [get_merge]
    exact le_sup_right (b := g.get v)
  sup_le f g h hf hg v := by
    rw [get_merge]
    exact sup_le (hf v) (hg v)

theorem empty_le (f : Fact) : ∅ ≤ f := fun v => Value.undef_le (f.get v)

/-- Only variables of a set have a value other than `undef`. -/
def Tracks (f : Fact) (S : Set VarId) : Prop := ∀ v, f.get v ≠ .undef → v ∈ S

theorem tracks_empty (S : Set VarId) : (∅ : Fact).Tracks S := fun _ h => absurd rfl h

theorem Tracks.set {f : Fact} {S : Set VarId} (h : f.Tracks S) {v : VarId} (hv : v ∈ S)
    (x : Value) : (f.set v x).Tracks S := by
  intro w hw
  rw [get_set] at hw
  split at hw
  · next hvw => exact hvw ▸ hv
  · exact h w hw

theorem Tracks.merge {f g : Fact} {S : Set VarId} (hf : f.Tracks S) (hg : g.Tracks S) :
    (f.merge g).Tracks S := by
  intro v hv
  rw [get_merge, Ne, Value.join_eq_undef_iff, not_and_or] at hv
  exact hv.elim (hf v) (hg v)

theorem Tracks.ext {f g : Fact} {S : Set VarId} (hf : f.Tracks S) (hg : g.Tracks S)
    (h : ∀ v ∈ S, f.get v = g.get v) : f = g := by
  apply ext_get
  intro v
  by_cases hv : v ∈ S
  · exact h v hv
  · rw [not_not.mp (mt (hf v) hv), not_not.mp (mt (hg v) hv)]

/-- The sum of the levels of the variables before a position. -/
def level (k : Nat) (f : Fact) : Nat := ∑ v ∈ Finset.range k, (f.get v).rank

/-- A fact that rises, and is only about variables before a position, gets to a higher level. -/
theorem level_lt {k : Nat} {f g : Fact} (hg : g.Tracks {v | v < k}) (h : f < g) :
    f.level k < g.level k := by
  obtain ⟨v, hv⟩ : ∃ v, f.get v ≠ g.get v :=
    not_forall.mp fun heq => h.ne (ext_get heq)
  -- The variable counts, because it has a value in the higher fact.
  have hne : g.get v ≠ .undef := by
    intro hu
    have hle := h.le v
    rw [hu] at hle
    exact hv (by rw [hu, Value.eq_undef_of_le hle])
  exact Finset.sum_lt_sum (fun w _ => Value.rank_le_rank (h.le w))
    ⟨v, Finset.mem_range.mpr (hg v hne), Value.rank_lt_rank (h.le v) hv⟩

end Fact

end FlowAnalysis.Constants
