import FlowAnalysis.Constants.Bindings
import FlowAnalysis.Proofs.Constants.Order
import Mathlib.Data.List.Nodup
import Mathlib.Data.Set.Card

/-!
# Bindings and facts

Bindings say of each variable what it is, but the same can be said by bindings that compare unequal:
in one list a variable may be bound twice, or to `undef`.  As long as neither is the case, bindings
are told apart exactly by what they say, and they are the entries of a fact in some order.

## Main definitions

- `Bindings.Canonical` — no variable is bound twice or to `undef`
- `Bindings.Stores` — bindings are those of a fact

## Main statements

- `Bindings.get_update`, `Bindings.Canonical.update` — what writing a variable does
- `Bindings.Canonical.update_changes_iff` — whether it changes anything
- `Bindings.Canonical.perm_iff`, `Bindings.Canonical.equals_iff` — when bindings are the same
- `Bindings.Stores.update`, `Bindings.Stores.equals_eq` — bindings and facts in step
-/

namespace FlowAnalysis.Constants

theorem Value.isUndef_iff {x : Value} : x.isUndef = true ↔ x = .undef := by
  cases x <;> simp [isUndef]

theorem Fact.set_eq_self_iff {f : Fact} {v : VarId} {x : Value} : f.set v x = f ↔ f.get v = x := by
  constructor
  · intro h
    rw [← h, get_set, if_pos rfl]
  · rintro rfl
    apply ext_get
    intro w
    rw [get_set]
    split
    · next hvw => rw [hvw]
    · rfl

namespace Bindings

variable {es ds : Bindings} {v w : VarId} {x : Value}

/-- No variable is bound twice, and none is bound to `undef`. -/
structure Canonical (es : Bindings) : Prop where
  nodup : (es.map Prod.fst).Nodup
  ne_undef : ∀ e ∈ es, e.2 ≠ .undef

theorem Canonical.nil : Canonical [] := ⟨List.nodup_nil, nofun⟩

theorem binds_iff : es.binds v = true ↔ v ∈ es.map Prod.fst := by
  simp [binds]

theorem get_eq_undef (h : v ∉ es.map Prod.fst) : es.get v = .undef :=
  Fact.lookup_eq_undef fun e he hev => h (List.mem_map.mpr ⟨e, he, hev⟩)

theorem get_of_mem (h : (es.map Prod.fst).Nodup) {e : VarId × Value} (he : e ∈ es) :
    es.get e.1 = e.2 := by
  induction es with
  | nil => cases he
  | cons d es ih =>
    obtain ⟨hd, hes⟩ := List.nodup_cons.mp h
    rw [get, Fact.lookup]
    obtain rfl | he := List.mem_cons.mp he
    · exact if_pos rfl
    · rw [if_neg]
      · exact ih hes he
      · intro hde
        exact hd (List.mem_map.mpr ⟨e, he, hde.symm⟩)

namespace Canonical

theorem mem_iff (h : es.Canonical) : (v, x) ∈ es ↔ es.get v = x ∧ x ≠ .undef := by
  constructor
  · intro he
    exact ⟨get_of_mem h.nodup he, h.ne_undef _ he⟩
  · rintro ⟨rfl, hne⟩
    have hv : v ∈ es.map Prod.fst := by
      by_contra hv
      exact hne (get_eq_undef hv)
    obtain ⟨e, he, rfl⟩ := List.mem_map.mp hv
    rwa [get_of_mem h.nodup he]

theorem mem_keys_iff (h : es.Canonical) : v ∈ es.map Prod.fst ↔ es.get v ≠ .undef := by
  constructor
  · intro hv
    obtain ⟨e, he, rfl⟩ := List.mem_map.mp hv
    rw [get_of_mem h.nodup he]
    exact h.ne_undef e he
  · intro hne
    by_contra hv
    exact hne (get_eq_undef hv)

theorem perm (h : es.Canonical) (hp : ds.Perm es) : ds.Canonical where
  nodup := (hp.map Prod.fst).nodup_iff.mpr h.nodup
  ne_undef e he := h.ne_undef e (hp.mem_iff.mp he)

/-- Bindings say the same of all variables exactly if they differ in their order only. -/
theorem perm_iff (h : es.Canonical) (h' : ds.Canonical) :
    es.Perm ds ↔ ∀ v, es.get v = ds.get v := by
  rw [List.perm_ext_iff_of_nodup h.nodup.of_map h'.nodup.of_map]
  constructor
  · intro hmem v
    by_cases hv : es.get v = .undef
    · by_contra hne
      have hd : (v, ds.get v) ∈ ds := h'.mem_iff.mpr ⟨rfl, fun hu => hne (hv.trans hu.symm)⟩
      exact hne (h.mem_iff.mp ((hmem _).mpr hd)).1
    · have he : (v, es.get v) ∈ es := h.mem_iff.mpr ⟨rfl, hv⟩
      exact (h'.mem_iff.mp ((hmem _).mp he)).1.symm
  · rintro hget ⟨v, x⟩
    rw [h.mem_iff, h'.mem_iff, hget]

end Canonical

/-! ## Writing -/

theorem get_remove (es : Bindings) (v w : VarId) :
    (es.remove v).1.get w = if v = w then .undef else es.get w := Fact.lookup_erase v w es

private theorem get_overwrite_self (x : Value) (h : v ∈ es.map Prod.fst) :
    Fact.lookup v (es.map fun e => if e.1 = v then (v, x) else e) = x := by
  induction es with
  | nil => cases h
  | cons e es ih =>
    rw [List.map_cons, Fact.lookup]
    by_cases he : e.1 = v
    · simp [he]
    · rw [if_neg he, if_neg he]
      exact ih ((List.mem_cons.mp h).resolve_left fun hv => he hv.symm)

private theorem get_overwrite_of_ne (es : Bindings) (x : Value) (h : v ≠ w) :
    Fact.lookup w (es.map fun e => if e.1 = v then (v, x) else e) = es.get w := by
  induction es with
  | nil => rfl
  | cons e es ih =>
    rw [List.map_cons, Fact.lookup, ih]
    show _ = if e.1 = w then e.2 else get es w
    by_cases he : e.1 = v
    · have hw : e.1 ≠ w := fun hw => h (he.symm.trans hw)
      rw [if_pos he, if_neg h, if_neg hw]
    · rw [if_neg he]

/-- A variable is what it was set to, and the others are as they were. -/
theorem get_update (es : Bindings) (v w : VarId) (x : Value) :
    (es.update v x).1.get w = if v = w then x else es.get w := by
  unfold update
  split
  · next hx =>
    rw [get_remove, Value.isUndef_iff.mp hx]
  · split
    · rfl
    · next hbinds =>
      split
      · next hget =>
        split
        · next hvw => rw [← hvw, hget]
        · rfl
      · split
        · next hvw =>
          subst hvw
          exact get_overwrite_self x (binds_iff.mp (by simpa using hbinds))
        · next hvw => exact get_overwrite_of_ne es x hvw

namespace Canonical

theorem remove (h : es.Canonical) (v : VarId) : (es.remove v).1.Canonical where
  nodup := h.nodup.sublist (List.filter_sublist.map Prod.fst)
  ne_undef e he := h.ne_undef e (List.mem_filter.mp he).1

theorem update (h : es.Canonical) (v : VarId) (x : Value) : (es.update v x).1.Canonical := by
  unfold Bindings.update
  split
  · exact h.remove v
  · next hx =>
    have hne : x ≠ .undef := fun hu => hx (Value.isUndef_iff.mpr hu)
    split
    · next hbinds =>
      have hv : v ∉ es.map Prod.fst := by
        rw [← binds_iff]
        simpa using hbinds
      exact ⟨List.nodup_cons.mpr ⟨hv, h.nodup⟩, List.forall_mem_cons.mpr ⟨hne, h.ne_undef⟩⟩
    · split
      · exact h
      · constructor
        · have hkeys : (es.map fun e => if e.1 = v then (v, x) else e).map Prod.fst =
              es.map Prod.fst := by
            rw [List.map_map]
            refine List.map_congr_left fun e _ => ?_
            by_cases he : e.1 = v <;> simp [he]
          rw [hkeys]
          exact h.nodup
        · intro e he
          obtain ⟨d, hd, rfl⟩ := List.mem_map.mp he
          split
          · exact hne
          · exact h.ne_undef d hd

/-- Whether writing a variable changes anything is whether the variable was something else. -/
theorem update_changes_iff (h : es.Canonical) :
    (es.update v x).2 = true ↔ es.get v ≠ x := by
  unfold Bindings.update
  split
  · next hx =>
    rw [Value.isUndef_iff.mp hx]
    exact binds_iff.trans h.mem_keys_iff
  · next hx =>
    split
    · next hbinds =>
      have hv : es.get v = .undef := get_eq_undef fun hv => by simp [binds_iff.mpr hv] at hbinds
      have hne : .undef ≠ x := fun hu => hx (Value.isUndef_iff.mpr hu.symm)
      simp [hv, hne]
    · split
      · next hget => simp [hget]
      · next hget => simp [hget]

end Canonical

/-- Writing a variable what it is already leaves all bindings where they are. -/
theorem update_eq_self (h : es.get v = x) (hx : x ≠ .undef) : (es.update v x).1 = es := by
  have hbinds : es.binds v = true := by
    by_contra hv
    exact hx (h ▸ get_eq_undef fun hmem => hv (binds_iff.mpr hmem))
  have hundef : ¬ x.isUndef = true := fun hu => hx (Value.isUndef_iff.mp hu)
  simp [update, hundef, hbinds, h]

/-! ## Comparing -/

namespace Canonical

theorem equals_iff (h : es.Canonical) (h' : ds.Canonical) :
    es.equals ds = true ↔ ∀ v, es.get v = ds.get v := by
  have hall : es.equals ds = true ↔ es.length = ds.length ∧ es ⊆ ds := by
    simp only [equals, Bool.and_eq_true, decide_eq_true_eq, List.all_eq_true]
    refine and_congr_right fun _ => forall₂_congr fun e he => ?_
    rw [binds_iff, h'.mem_keys_iff, show e ∈ ds ↔ _ from h'.mem_iff, and_comm]
    exact and_congr_right fun hget => by rw [hget]
  rw [hall, ← perm_iff h h']
  constructor
  · rintro ⟨hlength, hsub⟩
    exact (h.nodup.of_map.subperm hsub).perm_of_length_le hlength.ge
  · intro hperm
    exact ⟨hperm.length_eq, hperm.subset⟩

/-- There are as many bindings as variables that are not `undef`. -/
theorem encard_eq_size (h : es.Canonical) : {v | es.get v ≠ .undef}.encard = es.size := by
  have hset : {v | es.get v ≠ .undef} = ↑(es.map Prod.fst).toFinset := by
    ext v
    rw [Set.mem_ofPred_eq, ← h.mem_keys_iff, List.coe_toFinset]
    rfl
  rw [hset, Set.encard_coe_eq_coe_finsetCard, List.toFinset_card_of_nodup h.nodup,
    List.length_map]
  rfl

theorem isEmpty_iff (h : es.Canonical) : es.isEmpty = true ↔ ∀ v, es.get v = .undef := by
  rw [isEmpty, List.isEmpty_iff]
  constructor
  · rintro rfl v
    rfl
  · intro hget
    refine List.eq_nil_iff_forall_not_mem.mpr fun e he => h.ne_undef e he ?_
    rw [← get_of_mem h.nodup he, hget]

end Canonical

/-! ## Facts -/

/-- Bindings are those of a fact, in whatever order. -/
structure Stores (es : Bindings) (f : Fact) : Prop where
  canonical : es.Canonical
  get_eq : ∀ v, es.get v = f.get v

theorem canonical_entries (f : Fact) : Canonical f.entries where
  nodup := List.pairwise_map.mpr (f.sorted.imp Nat.ne_of_lt)
  ne_undef := f.ne_undef

theorem get_setAll (h : (es.map Prod.fst).Nodup) (f : Fact) (v : VarId) :
    (f.setAll es).get v = if v ∈ es.map Prod.fst then es.get v else f.get v := by
  induction es generalizing f with
  | nil => rfl
  | cons e es ih =>
    obtain ⟨he, hes⟩ := List.nodup_cons.mp h
    have hstep : f.setAll (e :: es) = (f.set e.1 e.2).setAll es := rfl
    have hget : get (e :: es) v = if e.1 = v then e.2 else get es v := rfl
    rw [hstep, ih hes, Fact.get_set, hget]
    by_cases hv : v ∈ es.map Prod.fst
    · have hne : e.1 ≠ v := fun hev => he (hev ▸ hv)
      simp only [List.map_cons, List.mem_cons, hv, hne, or_true, if_true, if_false]
    · by_cases hev : e.1 = v
      · simp [hv, hev]
      · have hve : v ≠ e.1 := fun hve => hev hve.symm
        simp only [List.map_cons, List.mem_cons, hv, hev, hve, or_false, if_false]

theorem Canonical.stores_toFact (h : es.Canonical) : es.Stores es.toFact where
  canonical := h
  get_eq v := by
    rw [toFact, get_setAll h.nodup]
    split
    · rfl
    · next hv => rw [get_eq_undef hv, Fact.get_empty]

namespace Stores

variable {f g : Fact}

theorem nil : Stores [] ∅ := ⟨.nil, fun _ => rfl⟩

theorem perm_entries (h : es.Stores f) : es.Perm f.entries :=
  (h.canonical.perm_iff (canonical_entries f)).mpr h.get_eq

theorem of_perm (h : es.Stores f) (hp : ds.Perm es) : ds.Stores f where
  canonical := h.canonical.perm hp
  get_eq v := by
    rw [((h.canonical.perm hp).perm_iff h.canonical).mp hp, h.get_eq]

theorem update (h : es.Stores f) (v : VarId) (x : Value) :
    (es.update v x).1.Stores (f.set v x) where
  canonical := h.canonical.update v x
  get_eq w := by rw [get_update, Fact.get_set, h.get_eq]

theorem remove (h : es.Stores f) (v : VarId) : (es.remove v).1.Stores (f.remove v) where
  canonical := h.canonical.remove v
  get_eq w := by rw [get_remove, Fact.get_remove, h.get_eq]

theorem updateAll (h : es.Stores f) (ds : List (VarId × Value)) :
    (es.updateAll ds).Stores (f.setAll ds) := by
  induction ds generalizing es f with
  | nil => exact h
  | cons d ds ih => exact ih (h.update d.1 d.2)

/-- The bindings of a fact make this fact again. -/
theorem toFact_eq (h : es.Stores f) : es.toFact = f := by
  apply Fact.ext_get
  intro v
  rw [← h.canonical.stores_toFact.get_eq, h.get_eq]

/-- In the order of their variables the bindings are the entries of the fact. -/
theorem mergeSort_eq (h : es.Stores f) : es.mergeSort (fun d e => d.1 ≤ e.1) = f.entries := by
  have hsorted : (es.mergeSort fun d e => d.1 ≤ e.1).Pairwise fun d e => d.1 ≤ e.1 := by
    refine (List.pairwise_mergeSort ?_ ?_ es).imp of_decide_eq_true
    · intro a b c hab hbc
      exact decide_eq_true ((of_decide_eq_true hab).trans (of_decide_eq_true hbc))
    · intro a b
      simpa using Nat.le_total a.1 b.1
  have hperm : (es.mergeSort fun d e => d.1 ≤ e.1).Perm f.entries :=
    (es.mergeSort_perm _).trans h.perm_entries
  refine hperm.eq_of_pairwise ?_ hsorted (f.sorted.imp Nat.le_of_lt)
  intro d e hd he hde hed
  have hkey : d.1 = e.1 := Nat.le_antisymm hde hed
  exact Prod.ext hkey (by
    rw [← Fact.get_of_mem (hperm.mem_iff.mp hd), hkey, Fact.get_of_mem he])

/-- Writing a variable is reported as a change exactly if it makes another fact. -/
theorem update_changes_eq (h : es.Stores f) (v : VarId) (x : Value) :
    (es.update v x).2 = decide (f.set v x ≠ f) := by
  rw [Bool.eq_iff_iff, h.canonical.update_changes_iff, decide_eq_true_iff, h.get_eq]
  exact not_congr Fact.set_eq_self_iff.symm

theorem remove_changes_eq (h : es.Stores f) (v : VarId) :
    (es.remove v).2 = decide (f.remove v ≠ f) := h.update_changes_eq v .undef

theorem equals_eq (h : es.Stores f) (h' : ds.Stores g) : es.equals ds = decide (f = g) := by
  rw [Bool.eq_iff_iff, h.canonical.equals_iff h'.canonical, decide_eq_true_iff]
  simp only [h.get_eq, h'.get_eq]
  exact ⟨Fact.ext_get, fun hfg v => hfg ▸ rfl⟩

end Stores

end Bindings

end FlowAnalysis.Constants
