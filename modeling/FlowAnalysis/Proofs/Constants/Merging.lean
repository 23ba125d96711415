import FlowAnalysis.Proofs.Constants.Bindings
import FlowAnalysis.Proofs.Constants.Failure

/-!
# Merging facts

Merging goes through the bindings of one fact and changes another as it goes.  What comes of it does
not depend on the order of the bindings: it is the least fact above both, and it leaves the fact that
is merged as it was, even if that is the one that is changed.

## Main definitions

- `Bindings.Below` — the order of facts, as bindings
- `Family.mergeAll` — merging several facts into one, one after the other

## Main statements

- `Family.get_merge`, `Family.merge_of_ne` — what a merge makes of each fact
- `Family.merge_eq_self` — a fact that is below another is merged into it without any effect
- `Family.below_mergeAll_iff` — a sequence of merges gives the least fact above all
- `merging_joins_facts` — merging is the join of facts, in whatever order
-/

namespace FlowAnalysis.Constants

theorem Value.isLUB_join (x y : Value) : IsLUB {x, y} (x.join y) := isLUB_pair

theorem Value.join_eq_right {x y : Value} (h : x ≤ y) : x.join y = y := sup_eq_right.mpr h

theorem Value.join_le_iff {x y z : Value} : x.join y ≤ z ↔ x ≤ z ∧ y ≤ z := sup_le_iff

/-- No variable may be more in one fact than in another. -/
def Bindings.Below (es ds : Bindings) : Prop := ∀ v, es.get v ≤ ds.get v

theorem Bindings.Below.refl (es : Bindings) : es.Below es := fun _ => le_rfl

theorem Bindings.Canonical.equals_of_below_iff {es ds : Bindings} (h : es.Canonical)
    (h' : ds.Canonical) (hiff : ∀ cs, es.Below cs ↔ ds.Below cs) : es.equals ds = true := by
  refine (h.equals_iff h').mpr fun v => le_antisymm ?_ ?_
  · exact (hiff ds).mpr (.refl ds) v
  · exact (hiff es).mp (.refl es) v

namespace Family

variable {σ : Family} {r s q : Int} {v w : VarId}

/-! ## One fact of a family -/

@[simp]
theorem write_self (σ : Family) (r : Int) (es : Bindings) : σ.write r es r = es := if_pos rfl

theorem write_of_ne (σ : Family) (es : Bindings) (h : q ≠ r) : σ.write r es q = σ q := if_neg h

theorem write_eq_self (σ : Family) (r : Int) : σ.write r (σ r) = σ := by
  funext q
  by_cases h : q = r
  · rw [h, write_self]
  · rw [write_of_ne _ _ h]

/-! ## One variable -/

theorem join_of_ne (σ : Family) (s : Int) (v : VarId) (h : q ≠ r) : join r s σ v q = σ q :=
  write_of_ne _ _ h

theorem get_join (σ : Family) (r s : Int) (v w : VarId) : (join r s σ v r).get w =
    if v = w then ((σ s).get w).join ((σ r).get w) else (σ r).get w := by
  rw [join, write_self, Bindings.get_update]
  split
  · next hvw => rw [hvw]
  · rfl

/-- The fact that is merged still says the same, even if it is the one that is changed. -/
theorem get_join_source (σ : Family) (r s : Int) (v w : VarId) :
    (join r s σ v s).get w = (σ s).get w := by
  by_cases h : s = r
  · subst h
    rw [get_join, Value.join_self, ite_self]
  · rw [join_of_ne _ _ _ h]

/-- Nothing happens if the changed fact allows as much already. -/
theorem join_eq_self (h : (σ s).get v ≤ (σ r).get v) (hv : (σ s).get v ≠ .undef) :
    join r s σ v = σ := by
  have hne : (σ r).get v ≠ .undef := by
    intro hu
    rw [hu] at h
    exact hv (Value.eq_undef_of_le h)
  rw [join, Value.join_eq_right h, Bindings.update_eq_self rfl hne, write_eq_self]

theorem canonical_join (h : (σ r).Canonical) (s : Int) (v : VarId) :
    (join r s σ v r).Canonical := by
  rw [join, write_self]
  exact h.update v _

/-! ## A list of variables -/

private theorem foldl_join_of_ne (vs : List VarId) (σ : Family) (s : Int) (h : q ≠ r) :
    vs.foldl (join r s) σ q = σ q := by
  induction vs generalizing σ with
  | nil => rfl
  | cons v vs ih => rw [List.foldl_cons, ih, join_of_ne _ _ _ h]

private theorem get_foldl_join (vs : List VarId) (σ : Family) (r s : Int) (w : VarId) :
    (vs.foldl (join r s) σ r).get w =
      if w ∈ vs then ((σ s).get w).join ((σ r).get w) else (σ r).get w := by
  induction vs generalizing σ with
  | nil => rfl
  | cons v vs ih =>
    rw [List.foldl_cons, ih, get_join_source, get_join]
    by_cases hvw : v = w
    · -- Joining the same value once more, for a later occurrence, adds nothing.
      have hagain : ((σ s).get w).join (((σ s).get w).join ((σ r).get w)) =
          ((σ s).get w).join ((σ r).get w) := Value.join_eq_right (Value.le_join_left _ _)
      rw [if_pos hvw, hagain, ite_self, if_pos (hvw ▸ List.mem_cons_self)]
    · have hmem : w ∈ v :: vs ↔ w ∈ vs := by
        rw [List.mem_cons, or_iff_right fun hwv => hvw hwv.symm]
      simp only [if_neg hvw, hmem]

private theorem foldl_join_eq_self {vs : List VarId} (h : ∀ v ∈ vs, join r s σ v = σ) :
    vs.foldl (join r s) σ = σ := by
  induction vs with
  | nil => rfl
  | cons v vs ih =>
    obtain ⟨hv, hvs⟩ := List.forall_mem_cons.mp h
    rw [List.foldl_cons, hv, ih hvs]

private theorem canonical_foldl_join (vs : List VarId) (h : (σ r).Canonical) (s : Int) :
    (vs.foldl (join r s) σ r).Canonical := by
  induction vs generalizing σ with
  | nil => exact h
  | cons v vs ih => exact ih (canonical_join h s v)

/-! ## One merge -/

theorem merge_of_ne (σ : Family) (s : Int) (h : q ≠ r) : σ.merge r s q = σ q :=
  foldl_join_of_ne _ σ s h

/-- Each variable becomes the join of what the two facts say of it. -/
theorem get_merge (σ : Family) (r s : Int) (v : VarId) :
    (σ.merge r s r).get v = ((σ s).get v).join ((σ r).get v) := by
  rw [merge, get_foldl_join]
  split
  · rfl
  · next hv => rw [Bindings.get_eq_undef hv, Value.undef_join]

theorem canonical_merge (h : (σ r).Canonical) (s : Int) : (σ.merge r s r).Canonical :=
  canonical_foldl_join _ h s

theorem canonical_merge_at (hr : (σ r).Canonical) (s : Int) (hq : (σ q).Canonical) :
    (σ.merge r s q).Canonical := by
  by_cases h : q = r
  · exact h ▸ canonical_merge hr s
  · exact merge_of_ne σ s h ▸ hq

/-- A merge of bindings is a merge of the facts that they store. -/
theorem stores_merge {f g : Fact} (hs : (σ s).Stores f) (hr : (σ r).Stores g) :
    (σ.merge r s r).Stores (f.merge g) where
  canonical := canonical_merge hr.canonical s
  get_eq v := by rw [get_merge, Fact.get_merge, hs.get_eq, hr.get_eq]

/-- Merging leaves a fact as it is if the fact is above the one that is merged. -/
theorem merge_eq_self (hs : (σ s).Canonical) (h : (σ s).Below (σ r)) : σ.merge r s = σ :=
  foldl_join_eq_self fun v hv => join_eq_self (h v) (hs.mem_keys_iff.mp hv)

theorem below_merge_iff (σ : Family) (r s : Int) (es : Bindings) :
    (σ.merge r s r).Below es ↔ (σ s).Below es ∧ (σ r).Below es := by
  simp only [Bindings.Below, get_merge, Value.join_le_iff, forall_and]

/-- What is above the changed fact is above another fact after a merge exactly if it was before,
even if this is the changed fact. -/
theorem below_merge_congr {es : Bindings} (h : (σ.merge r s r).Below es) (q : Int) :
    (σ.merge r s q).Below es ↔ (σ q).Below es := by
  by_cases hq : q = r
  · rw [hq, iff_true_left h]
    exact ((below_merge_iff σ r s es).mp h).2
  · rw [merge_of_ne σ s hq]

theorem equals_merge_comm (hr : (σ r).Canonical) (hs : (σ s).Canonical) :
    (σ.merge r s r).equals (σ.merge s r s) = true := by
  refine (canonical_merge hr s).equals_of_below_iff (canonical_merge hs r) fun es => ?_
  rw [below_merge_iff, below_merge_iff, and_comm]

theorem equals_merge_assoc (hr : (σ r).Canonical) (hs : (σ s).Canonical) (t : Int) :
    ((σ.merge r s).merge r t r).equals ((σ.merge s t).merge r s r) = true := by
  have hr' : (σ.merge s t r).Canonical := canonical_merge_at hs t hr
  refine (canonical_merge (canonical_merge hr s) t).equals_of_below_iff (canonical_merge hr' s)
    fun es => ?_
  calc ((σ.merge r s).merge r t r).Below es
    _ ↔ (σ.merge r s r).Below es ∧ (σ.merge r s t).Below es := by rw [below_merge_iff, and_comm]
    _ ↔ (σ.merge r s r).Below es ∧ (σ t).Below es :=
      and_congr_right fun h => below_merge_congr h t
    _ ↔ (σ.merge s t s).Below es ∧ (σ r).Below es := by
      rw [below_merge_iff, below_merge_iff, and_right_comm, and_comm (a := (σ s).Below es)]
    _ ↔ (σ.merge s t s).Below es ∧ (σ.merge s t r).Below es :=
      and_congr_right fun h => (below_merge_congr h r).symm
    _ ↔ ((σ.merge s t).merge r s r).Below es := (below_merge_iff _ r s es).symm

/-- A fact that is merged once more has no effect. -/
theorem merge_merge_self (hr : (σ r).Canonical) (hs : (σ s).Canonical) :
    (σ.merge r s).merge r s = σ.merge r s := by
  have hbelow : (σ s).Below (σ.merge r s r) := ((below_merge_iff σ r s _).mp (.refl _)).1
  exact merge_eq_self (canonical_merge_at hr s hs) ((below_merge_congr (.refl _) s).mpr hbelow)

theorem merge_nil (h : σ s = []) (r : Int) : σ.merge r s = σ := by
  rw [merge, h]
  rfl

theorem equals_nil_merge (h : σ r = []) (hs : (σ s).Canonical) :
    (σ.merge r s r).equals (σ s) = true := by
  have hr : (σ r).Canonical := h ▸ .nil
  refine ((canonical_merge hr s).equals_iff hs).mpr fun v => ?_
  rw [get_merge, h]
  exact Value.join_undef _

/-! ## Sequences of merges -/

/-- Merges facts into one, one after the other. -/
def mergeAll (σ : Family) (r : Int) (ss : List Int) : Family :=
  ss.foldl (fun σ s => σ.merge r s) σ

theorem mergeAll_of_ne (σ : Family) (ss : List Int) (h : q ≠ r) : σ.mergeAll r ss q = σ q := by
  induction ss generalizing σ with
  | nil => rfl
  | cons s ss ih => exact (ih (σ.merge r s)).trans (merge_of_ne σ s h)

theorem canonical_mergeAll (h : (σ r).Canonical) (ss : List Int) :
    (σ.mergeAll r ss r).Canonical := by
  induction ss generalizing σ with
  | nil => exact h
  | cons s ss ih => exact ih (canonical_merge h s)

/-- A sequence of merges gives the least fact above all that are merged and the one before. -/
theorem below_mergeAll_iff (σ : Family) (r : Int) (ss : List Int) (es : Bindings) :
    (σ.mergeAll r ss r).Below es ↔ (σ r).Below es ∧ ∀ s ∈ ss, (σ s).Below es := by
  induction ss generalizing σ with
  | nil => simp [mergeAll]
  | cons s ss ih =>
    calc (σ.mergeAll r (s :: ss) r).Below es
      _ ↔ (σ.merge r s r).Below es ∧ ∀ q ∈ ss, (σ.merge r s q).Below es := ih (σ.merge r s)
      _ ↔ (σ.merge r s r).Below es ∧ ∀ q ∈ ss, (σ q).Below es :=
        and_congr_right fun h => forall₂_congr fun q _ => below_merge_congr h q
      _ ↔ (σ r).Below es ∧ (σ s).Below es ∧ ∀ q ∈ ss, (σ q).Below es := by
        rw [below_merge_iff, and_assoc, and_left_comm]
      _ ↔ (σ r).Below es ∧ ∀ q ∈ s :: ss, (σ q).Below es := by rw [List.forall_mem_cons]

/-- In which order facts are merged, how often, and in which order their bindings come makes no
difference. -/
theorem equals_mergeAll {τ : Family} (hσ : ∀ q, (σ q).Canonical)
    (hτ : ∀ q, (τ q).Perm (σ q)) {ss ts : List Int} (h : ∀ s, s ∈ ss ↔ s ∈ ts) (r : Int) :
    (σ.mergeAll r ss r).equals (τ.mergeAll r ts r) = true := by
  have hcanonical : ∀ q, (τ q).Canonical := fun q => (hσ q).perm (hτ q)
  refine (canonical_mergeAll (hσ r) ss).equals_of_below_iff (canonical_mergeAll (hcanonical r) ts)
    fun es => ?_
  have hbelow : ∀ q, (τ q).Below es ↔ (σ q).Below es := fun q =>
    forall_congr' fun v => by rw [((hcanonical q).perm_iff (hσ q)).mp (hτ q)]
  simp only [below_mergeAll_iff, h, hbelow]

end Family

/-- Any two values have a least value above both, and it is found without a fault.  So merging a fact
into another gives the least fact above both: it joins the values of each variable, stores those
variables that one of the facts stores, and leaves all other facts as they were, the merged one among
them; a fact that is merged into itself stays as it is.  Merging is commutative, associative and
idempotent, and the empty fact is neutral.  A sequence of merges gives the least fact above all,
whatever the order of the merges and of the bindings and however often a fact is merged, and no
variable is less afterwards. -/
theorem merging_joins_facts {σ : Family} (hσ : ∀ q, (σ q).Canonical) :
    (∀ x y, Checked.join x y = .ok (x.join y) ∧ IsLUB {x, y} (x.join y)) ∧
    (∀ r s, (∀ v, (σ.merge r s r).get v = ((σ s).get v).join ((σ r).get v)) ∧
      (∀ q, q ≠ r → σ.merge r s q = σ q) ∧
      (σ.merge r s r).Canonical ∧
      (∀ v, v ∈ (σ.merge r s r).map Prod.fst ↔
        v ∈ (σ s).map Prod.fst ∨ v ∈ (σ r).map Prod.fst) ∧
      (∀ es, (σ.merge r s r).Below es ↔ (σ s).Below es ∧ (σ r).Below es) ∧
      (σ.merge r s r).toFact = (σ s).toFact.merge (σ r).toFact) ∧
    (∀ r, σ.merge r r = σ) ∧
    (∀ r s, (σ.merge r s r).equals (σ.merge s r s) = true) ∧
    (∀ r s t, ((σ.merge r s).merge r t r).equals ((σ.merge s t).merge r s r) = true) ∧
    (∀ r s, (σ.merge r s).merge r s = σ.merge r s) ∧
    (∀ r s, σ s = [] → σ.merge r s = σ ∧ (σ.merge s r s).equals (σ r) = true) ∧
    (∀ r ss, (∀ q, q ≠ r → σ.mergeAll r ss q = σ q) ∧ (σ.mergeAll r ss r).Canonical ∧
      (∀ es, (σ.mergeAll r ss r).Below es ↔ (σ r).Below es ∧ ∀ s ∈ ss, (σ s).Below es) ∧
      (σ r).Below (σ.mergeAll r ss r)) ∧
    ∀ τ : Family, (∀ q, (τ q).Perm (σ q)) → ∀ r ss ts, (∀ s, s ∈ ss ↔ s ∈ ts) →
      (σ.mergeAll r ss r).equals (τ.mergeAll r ts r) = true := by
  refine ⟨fun x y => ⟨Checked.join_eq x y, Value.isLUB_join x y⟩, fun r s => ?_,
    fun r => Family.merge_eq_self (hσ r) (.refl _),
    fun r s => Family.equals_merge_comm (hσ r) (hσ s),
    fun r s => Family.equals_merge_assoc (hσ r) (hσ s),
    fun r s => Family.merge_merge_self (hσ r) (hσ s),
    fun r s hs => ⟨Family.merge_nil hs r, Family.equals_nil_merge hs (hσ r)⟩, fun r ss => ?_,
    fun τ hτ r ss ts h => Family.equals_mergeAll hσ hτ h r⟩
  · have hmerged := Family.canonical_merge (hσ r) s
    have hstores := Family.stores_merge (hσ s).stores_toFact (hσ r).stores_toFact
    refine ⟨Family.get_merge σ r s, fun q => Family.merge_of_ne σ s, hmerged, fun v => ?_,
      Family.below_merge_iff σ r s, hstores.toFact_eq⟩
    rw [hmerged.mem_keys_iff, (hσ s).mem_keys_iff, (hσ r).mem_keys_iff, Family.get_merge, Ne,
      Value.join_eq_undef_iff, not_and_or]
  · have hbelow := Family.below_mergeAll_iff σ r ss
    exact ⟨fun q => Family.mergeAll_of_ne σ ss, Family.canonical_mergeAll (hσ r) ss, hbelow,
      ((hbelow _).mp (.refl _)).1⟩

/-- Two facts that overlap in one variable, and say different things of it. -/
def overlapping : Family := fun r =>
  if r = 0 then [(2, .const 5), (0, .const 1)]
  else if r = 1 then [(1, .nac), (2, .const 7)]
  else []

theorem merging_joins_facts_overlapping :
    (∀ r, (overlapping r).Canonical) ∧
      (overlapping.merge 0 1 0).get 0 = .const 1 ∧ (overlapping.merge 0 1 0).get 1 = .nac ∧
      (overlapping.merge 0 1 0).get 2 = .nac ∧ overlapping.merge 0 1 1 = overlapping 1 ∧
      (overlapping.mergeAll 0 [1, 0, 1] 0).equals
        (Family.mergeAll (fun r => (overlapping r).reverse) 0 [0, 1] 0) = true := by
  have hcanonical : ∀ r, (overlapping r).Canonical := by
    intro r
    unfold overlapping
    split
    · exact ⟨by decide, by decide⟩
    · split
      · exact ⟨by decide, by decide⟩
      · exact .nil
  obtain ⟨-, hmerge, -, -, -, -, -, -, hsequence⟩ := merging_joins_facts hcanonical
  obtain ⟨hget, hframe, -⟩ := hmerge 0 1
  exact ⟨hcanonical, hget 0, hget 1, hget 2, hframe 1 (by decide),
    hsequence _ (fun q => List.reverse_perm _) 0 [1, 0, 1] [0, 1] (by simp [or_comm])⟩

end FlowAnalysis.Constants
