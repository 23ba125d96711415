/-!
# Tables

A table maps finitely many keys to values and remembers the order in which the keys came.

## Main definitions

- `Table` — tables from keys `K` to values `V`
- `Table.insert`, `Table.get?`, `Table.keys` — writing, reading and listing
- `Table.tabulate` — the table of a function on a list of keys
- `Table.agrees` — equality as maps, whatever the order of the keys

Reading after writing is `Table.get?_insert`; which keys a write leaves is `Table.keys_insert`.
-/

namespace FlowAnalysis

/-- A table from keys to values.  Every key has one entry, and the entries stand in the order in
which their keys were first written. -/
@[ext]
structure Table (K V : Type) where
  entries : List (K × V)
  keys_nodup : (entries.map Prod.fst).Nodup

namespace Table

variable {K V : Type}

/-- The keys, in the order in which they were first written. -/
def keys (t : Table K V) : List K := t.entries.map Prod.fst

def size (t : Table K V) : Nat := t.entries.length

def empty : Table K V := ⟨[], List.nodup_nil⟩

instance : EmptyCollection (Table K V) := ⟨empty⟩

instance : Inhabited (Table K V) := ⟨empty⟩

variable [DecidableEq K]

/-- The value in the first entry of a key. -/
def lookup (k : K) : List (K × V) → Option V
  | [] => none
  | e :: es => if e.1 = k then some e.2 else lookup k es

/-- Writes the value in the first entry of a key, or adds an entry at the end. -/
def write (k : K) (v : V) : List (K × V) → List (K × V)
  | [] => [(k, v)]
  | e :: es => if e.1 = k then (k, v) :: es else e :: write k v es

theorem map_fst_write (k : K) (v : V) (es : List (K × V)) :
    (write k v es).map Prod.fst =
      if k ∈ es.map Prod.fst then es.map Prod.fst else es.map Prod.fst ++ [k] := by
  induction es with
  | nil => simp [write]
  | cons e es ih =>
    rw [write]
    by_cases h : e.1 = k
    · simp [h]
    · have h' : ¬ k = e.1 := fun hk => h hk.symm
      simp only [h, if_false, List.map_cons, ih, List.mem_cons, h', false_or]
      split <;> simp

theorem nodup_write (k : K) (v : V) {es : List (K × V)} (h : (es.map Prod.fst).Nodup) :
    ((write k v es).map Prod.fst).Nodup := by
  rw [map_fst_write]
  split
  · exact h
  · next hk =>
    have hne : ∀ a ∈ es.map Prod.fst, a ≠ k := fun a ha hak => hk (hak ▸ ha)
    rw [List.nodup_append]
    exact ⟨h, by simp, fun a ha b hb => List.mem_singleton.mp hb ▸ hne a ha⟩

theorem lookup_write (k k' : K) (v : V) (es : List (K × V)) :
    lookup k' (write k v es) = if k = k' then some v else lookup k' es := by
  induction es with
  | nil => simp [write, lookup]
  | cons e es ih =>
    rw [write]
    by_cases h : e.1 = k
    · simp only [h, if_true, lookup]
      split <;> rfl
    · simp only [h, if_false, lookup, ih]
      by_cases hk : k = k'
      · have h' : ¬ e.1 = k' := fun he => h (he.trans hk.symm)
        simp [hk, h']
      · simp [hk]

theorem write_eq_self {k : K} {v : V} {es : List (K × V)} (h : lookup k es = some v) :
    write k v es = es := by
  induction es with
  | nil => cases h
  | cons e es ih =>
    rw [lookup] at h
    rw [write]
    by_cases he : e.1 = k
    · rw [if_pos he] at h ⊢
      rw [← he, ← Option.some.inj h]
    · rw [if_neg he] at h ⊢
      rw [ih h]

theorem lookup_isSome (k : K) (es : List (K × V)) :
    (lookup k es).isSome ↔ k ∈ es.map Prod.fst := by
  induction es with
  | nil => simp [lookup]
  | cons e es ih =>
    rw [lookup]
    by_cases h : e.1 = k
    · simp [h]
    · have h' : ¬ k = e.1 := fun hk => h hk.symm
      simp [h, h', ih]

def get? (t : Table K V) (k : K) : Option V := lookup k t.entries

/-- The value of a key, or a default if the key has none. -/
def getD (t : Table K V) (k : K) (default : V) : V := (t.get? k).getD default

def contains (t : Table K V) (k : K) : Bool := (t.get? k).isSome

def insert (t : Table K V) (k : K) (v : V) : Table K V :=
  ⟨write k v t.entries, nodup_write k v t.keys_nodup⟩

/-- The table of a function on a list of keys. -/
def tabulate (ks : List K) (f : K → V) : Table K V := ks.foldl (fun t k => t.insert k (f k)) ∅

/-- Whether two tables hold the same values for the same keys, in whatever order. -/
def agrees [DecidableEq V] (s t : Table K V) : Bool :=
  s.entries.all (fun e => t.get? e.1 = some e.2) && t.entries.all (fun e => s.get? e.1 = some e.2)

@[simp]
theorem get?_empty (k : K) : (∅ : Table K V).get? k = none := rfl

/-- A write is read back, and it touches no other key. -/
theorem get?_insert (t : Table K V) (k k' : K) (v : V) :
    (t.insert k v).get? k' = if k = k' then some v else t.get? k' :=
  lookup_write k k' v t.entries

/-- A write adds its key at the end, unless it is there already. -/
theorem keys_insert (t : Table K V) (k : K) (v : V) :
    (t.insert k v).keys = if k ∈ t.keys then t.keys else t.keys ++ [k] :=
  map_fst_write k v t.entries

/-- Writing what is there already changes nothing. -/
theorem insert_eq_self {t : Table K V} {k : K} {v : V} (h : t.get? k = some v) :
    t.insert k v = t := Table.ext (write_eq_self h)

/-- The keys are the points at which the table has a value. -/
theorem isSome_get?_iff {t : Table K V} {k : K} : (t.get? k).isSome ↔ k ∈ t.keys :=
  lookup_isSome k t.entries

theorem getD_insert (t : Table K V) (k k' : K) (v default : V) :
    (t.insert k v).getD k' default = if k = k' then v else t.getD k' default := by
  simp only [getD, get?_insert]
  split <;> rfl

theorem get?_eq_some_getD {t : Table K V} {k : K} (h : k ∈ t.keys) (default : V) :
    t.get? k = some (t.getD k default) := by
  obtain ⟨v, hv⟩ := Option.isSome_iff_exists.mp (isSome_get?_iff.mpr h)
  rw [getD, hv, Option.getD_some]

/-- Tables with the same keys hold the same values if they do so at their keys. -/
theorem get?_congr {s t : Table K V} (hkeys : ∀ k, k ∈ s.keys ↔ k ∈ t.keys) (default : V)
    (h : ∀ k ∈ s.keys, s.getD k default = t.getD k default) (k : K) : s.get? k = t.get? k := by
  by_cases hk : k ∈ s.keys
  · rw [get?_eq_some_getD hk default, get?_eq_some_getD ((hkeys k).mp hk) default, h k hk]
  · have hs : s.get? k = none := by simpa using mt isSome_get?_iff.mp hk
    have ht : t.get? k = none := by simpa using mt isSome_get?_iff.mp (mt (hkeys k).mpr hk)
    rw [hs, ht]

private theorem get?_foldl_insert (f : K → V) (ks : List K) (t : Table K V) (k : K) :
    (ks.foldl (fun t k => t.insert k (f k)) t).get? k =
      if k ∈ ks then some (f k) else t.get? k := by
  induction ks generalizing t with
  | nil => simp
  | cons a ks ih =>
    rw [List.foldl_cons, ih, get?_insert]
    by_cases hk : k ∈ ks
    · simp [hk]
    · by_cases ha : a = k
      · simp [ha]
      · have ha' : ¬ k = a := fun h => ha h.symm
        simp [hk, ha, ha']

/-- A tabulated function is read back on the list, and nowhere else. -/
theorem get?_tabulate (ks : List K) (f : K → V) (k : K) :
    (tabulate ks f).get? k = if k ∈ ks then some (f k) else none := by
  rw [tabulate, get?_foldl_insert, get?_empty]

private theorem keys_foldl_insert (f : K → V) {ks : List K} (h : ks.Nodup) (t : Table K V)
    (ht : ∀ k ∈ ks, k ∉ t.keys) :
    (ks.foldl (fun t k => t.insert k (f k)) t).keys = t.keys ++ ks := by
  induction ks generalizing t with
  | nil => simp
  | cons a ks ih =>
    obtain ⟨ha, hks⟩ := List.nodup_cons.mp h
    have hkeys : (t.insert a (f a)).keys = t.keys ++ [a] := by
      rw [keys_insert, if_neg (ht a List.mem_cons_self)]
    rw [List.foldl_cons, ih hks, hkeys, List.append_assoc, List.singleton_append]
    intro k hk
    rw [hkeys, List.mem_append, List.mem_singleton]
    rintro (hkt | rfl)
    · exact ht k (List.mem_cons_of_mem a hk) hkt
    · exact ha hk

theorem keys_tabulate {ks : List K} (h : ks.Nodup) (f : K → V) : (tabulate ks f).keys = ks :=
  keys_foldl_insert f h ∅ (by intro k _ hk; cases hk)

end Table

end FlowAnalysis
