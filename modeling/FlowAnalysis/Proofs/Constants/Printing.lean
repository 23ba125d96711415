import FlowAnalysis.Constants.Printing
import FlowAnalysis.Names
import FlowAnalysis.Proofs.Constants.Families

/-!
# Printed facts

However a method is built, its variables have different numbers.  So the bindings of a fact can be
sorted in one way only, and the fact is printed as one text.  From this text the fact can be read
back, if its variables have different names.

## Main definitions

- `Bindings.Over` — the bindings of variables that are declared

## Main statements

- `Method.numberIn_declarations` — the number of a variable is its position
- `Bindings.Stores.prints_iff` — a fact is printed as one text, in whatever order its bindings come
- `Bindings.print_inj` — what is printed can be read back
- `facts_print_canonically` — facts are printed as the same text exactly if they are the same
-/

namespace FlowAnalysis

/-! ## Declarations -/

namespace Method

variable {edits : List Edit}

theorem vars_edit (m : Method) (e : Edit) : (m.edit e).vars = m.vars ++ e.declared?.toList := by
  cases e <;>
    simp [edit, Edit.declared?, addVar, addParam, setReceiver, addStmt, setLine, setTarget]

theorem vars_foldl_edit (m : Method) (edits : List Edit) :
    (edits.foldl edit m).vars = m.vars ++ edits.filterMap Edit.declared? := by
  induction edits generalizing m with
  | nil => simp
  | cons e edits ih =>
    rw [List.foldl_cons, ih, vars_edit, List.append_assoc]
    cases h : e.declared? <;> simp [h]

theorem vars_build (name : String) (edits : List Edit) :
    (build name edits).vars = edits.filterMap Edit.declared? := vars_foldl_edit _ _

theorem foldl_declare (ds : List Declaration) (vs : List Var) :
    vs.foldl declare ds = ds ++ vs.mapIdx fun i v => ⟨v, ds.length + i⟩ := by
  induction vs generalizing ds with
  | nil => simp
  | cons v vs ih =>
    rw [List.foldl_cons, ih, declare, List.append_assoc, List.mapIdx_cons]
    simp [Nat.add_assoc, Nat.add_comm 1]

/-- A variable is declared with the number that is its position. -/
theorem getElem?_declarations (name : String) (edits : List Edit) (v : VarId) :
    (declarations edits)[v]? = ((build name edits).vars[v]?).map fun x => ⟨x, v⟩ := by
  rw [declarations, foldl_declare, vars_build, List.nil_append, List.getElem?_mapIdx]
  simp

theorem numberIn_declarations {name : String} {v : VarId} (h : v < (build name edits).vars.length) :
    Constants.Bindings.numberIn (declarations edits) v = v := by
  rw [Constants.Bindings.numberIn, getElem?_declarations name, List.getElem?_eq_getElem h]
  rfl

theorem nameIn_declarations (name : String) (edits : List Edit) (v : VarId) :
    Constants.Bindings.nameIn (declarations edits) v = (build name edits).nameOf v := by
  rw [Constants.Bindings.nameIn, getElem?_declarations name, nameOf]
  cases (build name edits).vars[v]? <;> rfl

/-- Variables have names that are words, and no two of them the same. -/
structure NamesApart (m : Method) (vs : List VarId) : Prop where
  isWord : ∀ v ∈ vs, IsWord (m.nameOf v)
  inj : ∀ v ∈ vs, ∀ w ∈ vs, m.nameOf v = m.nameOf w → v = w

end Method

namespace Constants

/-! ## The order of bindings -/

namespace Fact

variable {name : VarId → String} {d e : VarId × Value}

theorem comesBefore_iff : comesBefore name d e = true ↔
    name d.1 < name e.1 ∨ name d.1 = name e.1 ∧ d.1 ≤ e.1 := by
  simp [comesBefore]

theorem comesBefore_trans (c d e : VarId × Value) (hcd : comesBefore name c d = true)
    (hde : comesBefore name d e = true) : comesBefore name c e = true := by
  rw [comesBefore_iff] at *
  obtain hcd | ⟨hcd, hcd'⟩ := hcd
  · obtain hde | ⟨hde, -⟩ := hde
    · exact .inl (hcd.trans hde)
    · exact .inl (hde ▸ hcd)
  · obtain hde | ⟨hde, hde'⟩ := hde
    · exact .inl (hcd ▸ hde)
    · exact .inr ⟨hcd.trans hde, hcd'.trans hde'⟩

theorem comesBefore_total (d e : VarId × Value) :
    (comesBefore name d e || comesBefore name e d) = true := by
  rw [Bool.or_eq_true, comesBefore_iff, comesBefore_iff]
  obtain h | h | h := lt_trichotomy (name d.1) (name e.1)
  · exact .inl (.inl h)
  · exact (Nat.le_total d.1 e.1).imp (.inr ⟨h, ·⟩) (.inr ⟨h.symm, ·⟩)
  · exact .inr (.inl h)

end Fact

namespace Bindings

/-- All bindings are of variables that are declared. -/
def Over (es : Bindings) (m : Method) : Prop := ∀ e ∈ es, e.1 < m.vars.length

variable {name : String} {edits : List Method.Edit} {es ds : Bindings} {d e : VarId × Value}
  {text : String} {f g : Fact}

/-- Bindings of declared variables are told apart by the names of the variables and by their
positions. -/
theorem comesFirst_iff (hd : d.1 < (Method.build name edits).vars.length)
    (he : e.1 < (Method.build name edits).vars.length) :
    comesFirst (Method.declarations edits) d e = true ↔
      (Method.build name edits).nameOf d.1 < (Method.build name edits).nameOf e.1 ∨
        (Method.build name edits).nameOf d.1 = (Method.build name edits).nameOf e.1 ∧
          d.1 < e.1 := by
  rw [comesFirst, Method.numberIn_declarations hd, Method.numberIn_declarations he,
    Method.nameIn_declarations name, Method.nameIn_declarations name]
  split
  · next h =>
    rw [decide_eq_true_iff, bytes_lt_bytes_iff, or_iff_left]
    exact fun hn => h (congrArg bytes hn.1)
  · next h =>
    have heq := bytes_inj.mp (not_not.mp h)
    simp [heq]

theorem comesFirst_eq_false_iff (hd : d.1 < (Method.build name edits).vars.length)
    (he : e.1 < (Method.build name edits).vars.length) :
    comesFirst (Method.declarations edits) e d = false ↔
      Fact.comesBefore (Method.build name edits).nameOf d e = true := by
  rw [← Bool.not_eq_true, comesFirst_iff he hd, Fact.comesBefore_iff]
  obtain h | h | h := lt_trichotomy ((Method.build name edits).nameOf d.1)
    ((Method.build name edits).nameOf e.1)
  · simp [h, h.ne', h.asymm]
  · simp [h]
  · simp [h, h.ne', h.asymm]

/-- Of two different bindings of declared variables one comes first. -/
theorem Canonical.comesFirst_of_ne (h : es.Canonical) (ho : es.Over (Method.build name edits))
    (hd : d ∈ es) (he : e ∈ es) (hne : d ≠ e)
    (hb : Fact.comesBefore (Method.build name edits).nameOf d e = true) :
    comesFirst (Method.declarations edits) d e = true := by
  have hkey : d.1 ≠ e.1 := fun hk => hne (Prod.ext hk (by
    rw [← get_of_mem h.nodup hd, hk, get_of_mem h.nodup he]))
  rw [comesFirst_iff (ho d hd) (ho e he)]
  exact (Fact.comesBefore_iff.mp hb).imp_right (And.imp_right (Nat.lt_of_le_of_ne · hkey))

/-! ## One text for each fact -/

theorem print_eq (name : String) (edits : List Method.Edit) (es : Bindings) :
    print (Method.declarations edits) es = "\x7b" ++ ", ".intercalate
      (es.map (Fact.entryText (Method.build name edits).nameOf)) ++ "\x7d" := by
  rw [print, funext (Method.nameIn_declarations name edits)]

/-- Bindings of declared variables can be sorted in one way only. -/
theorem Canonical.eq_of_sorted (h : es.Canonical) (ho : es.Over (Method.build name edits))
    {xs ys : Bindings} (hxs : xs.Perm es) (hys : ys.Perm es)
    (hx : xs.Pairwise fun d e => comesFirst (Method.declarations edits) e d = false)
    (hy : ys.Pairwise fun d e => comesFirst (Method.declarations edits) e d = false) :
    xs = ys := by
  refine (hxs.trans hys.symm).eq_of_pairwise (fun d e hd he hde hed => ?_) hx hy
  by_contra hne
  have hd := hxs.mem_iff.mp hd
  have he := hys.mem_iff.mp he
  have hfirst := h.comesFirst_of_ne ho hd he hne
    ((comesFirst_eq_false_iff (ho d hd) (ho e he)).mp hde)
  rw [hed] at hfirst
  cases hfirst

/-- The bindings of a fact in the order of the names of their variables. -/
def inOrder (m : Method) (f : Fact) : Bindings := f.entries.mergeSort (Fact.comesBefore m.nameOf)

theorem Stores.inOrder_perm (h : es.Stores f) (m : Method) : (inOrder m f).Perm es :=
  (List.mergeSort_perm _ _).trans h.perm_entries.symm

theorem pairwise_comesBefore_inOrder (m : Method) (f : Fact) :
    (inOrder m f).Pairwise fun d e => Fact.comesBefore m.nameOf d e = true :=
  List.pairwise_mergeSort Fact.comesBefore_trans Fact.comesBefore_total _

theorem Stores.inOrder_over (h : es.Stores f) {m : Method} (ho : es.Over m) :
    (inOrder m f).Over m :=
  fun e he => ho e ((h.inOrder_perm m).mem_iff.mp he)

/-- Each binding of a fact comes before all that follow it. -/
theorem Stores.pairwise_inOrder (h : es.Stores f) (ho : es.Over (Method.build name edits)) :
    (inOrder (Method.build name edits) f).Pairwise
      fun d e => comesFirst (Method.declarations edits) d e = true := by
  have hcanonical := h.canonical.perm (h.inOrder_perm (Method.build name edits))
  refine ((pairwise_comesBefore_inOrder _ f).and hcanonical.nodup.of_map).imp_of_mem ?_
  exact fun hd he hde => hcanonical.comesFirst_of_ne (h.inOrder_over ho) hd he hde.2 hde.1

theorem print_inOrder (name : String) (edits : List Method.Edit) (f : Fact) :
    print (Method.declarations edits) (inOrder (Method.build name edits) f) =
      f.text (Method.build name edits).nameOf := print_eq name edits _

/-- A fact is printed as one text, in whatever order its bindings come. -/
theorem Stores.prints_iff (h : es.Stores f) (ho : es.Over (Method.build name edits)) :
    es.Prints (Method.declarations edits) text ↔
      text = f.text (Method.build name edits).nameOf := by
  have hperm := h.inOrder_perm (Method.build name edits)
  have hsorted : (inOrder (Method.build name edits) f).Pairwise
      fun d e => comesFirst (Method.declarations edits) e d = false :=
    (pairwise_comesBefore_inOrder _ f).imp_of_mem fun hd he =>
      (comesFirst_eq_false_iff (h.inOrder_over ho _ hd) (h.inOrder_over ho _ he)).mpr
  rw [← print_inOrder]
  constructor
  · rintro ⟨xs, hxs, hx, rfl⟩
    rw [h.canonical.eq_of_sorted ho hxs hperm hx hsorted]
  · rintro rfl
    exact ⟨_, hperm, hsorted, rfl⟩

end Bindings

/-! ## Reading back -/

theorem Value.mem_text {x : Value} {c : Char} (h : c ∈ x.text.toList) :
    isNameChar c = true ∨ c = '-' := by
  cases x with
  | undef => exact .inl (List.all_eq_true.mp (by decide : "UNDEF".toList.all isNameChar = true) c h)
  | nac => exact .inl (List.all_eq_true.mp (by decide : "NAC".toList.all isNameChar = true) c h)
  | const a => exact (eq_or_isDigit_of_mem_repr h).symm.imp_left isNameChar_of_isDigit

theorem Value.text_ne_of_letter {a : Int32} {s : String} {c : Char} (hc : c ∈ s.toList)
    (h : (c == '-' || c.isDigit) = false) : a.toInt.repr ≠ s := by
  rintro rfl
  obtain rfl | hd := eq_or_isDigit_of_mem_repr hc
  · cases h
  · simp [hd] at h

theorem Value.text_inj {x y : Value} : x.text = y.text ↔ x = y := by
  refine ⟨fun h => ?_, congrArg text⟩
  cases x with
  | undef =>
    cases y with
    | undef => rfl
    | const b => exact absurd h.symm (text_ne_of_letter (c := 'U') (by decide) (by decide))
    | nac => exact absurd h (by decide)
  | const a =>
    cases y with
    | undef => exact absurd h (text_ne_of_letter (c := 'U') (by decide) (by decide))
    | const b => exact congrArg const (Int32.toInt_inj.mp (repr_inj.mp h))
    | nac => exact absurd h (text_ne_of_letter (c := 'N') (by decide) (by decide))
  | nac =>
    cases y with
    | undef => exact absurd h (by decide)
    | const b => exact absurd h.symm (text_ne_of_letter (c := 'N') (by decide) (by decide))
    | nac => rfl

namespace Fact

variable {name : VarId → String} {d e : VarId × Value}

theorem toList_entryText (name : VarId → String) (e : VarId × Value) :
    (entryText name e).toList = (name e.1).toList ++ '=' :: e.2.text.toList := by
  simp [entryText]

theorem entryText_inj (hd : IsWord (name d.1)) (he : IsWord (name e.1))
    (h : entryText name d = entryText name e) : name d.1 = name e.1 ∧ d.2 = e.2 := by
  have hlist := congrArg String.toList h
  rw [toList_entryText, toList_entryText] at hlist
  obtain ⟨hname, hvalue⟩ := hd.append_inj he (.cons (by decide) _) (.cons (by decide) _) hlist
  exact ⟨hname, Value.text_inj.mp (String.toList_inj.mp (List.cons.inj hvalue).2)⟩

/-- No comma and no blank stands in an entry. -/
theorem entryText_is_piece (he : IsWord (name e.1)) : entryText name e ≠ "" ∧
    ',' ∉ (entryText name e).toList ∧ ' ' ∉ (entryText name e).toList := by
  have hnot : ∀ c, isNameChar c = false → c ≠ '=' → c ≠ '-' → c ∉ (entryText name e).toList := by
    intro c hc heq hminus hmem
    rw [toList_entryText, List.mem_append, List.mem_cons] at hmem
    obtain hmem | rfl | hmem := hmem
    · exact he.not_mem hc hmem
    · exact heq rfl
    · obtain h | h := Value.mem_text hmem
      · rw [hc] at h
        cases h
      · exact hminus h
  refine ⟨fun h => ?_, hnot _ (by decide) (by decide) (by decide),
    hnot _ (by decide) (by decide) (by decide)⟩
  have hlist := congrArg String.toList h
  simp [toList_entryText] at hlist

end Fact

namespace Bindings

variable {ds : List Declaration} {xs ys : Bindings}

/-- Of entries that are printed the same, each can be read back. -/
theorem map_entryText_of_print (hxs : ∀ e ∈ xs, IsWord (nameIn ds e.1)) :
    pieces (((print ds xs).toList.tail.dropLast).filter (· ≠ ' ')) =
      xs.map (Fact.entryText (nameIn ds)) := by
  have hprint : (print ds xs).toList =
      '\x7b' :: ((", ".intercalate (xs.map (Fact.entryText (nameIn ds)))).toList ++ ['\x7d']) := by
    rw [print, String.toList_append, String.toList_append]
    rfl
  rw [hprint, List.tail_cons, List.dropLast_concat]
  refine pieces_intercalate fun p hp => ?_
  obtain ⟨e, he, rfl⟩ := List.mem_map.mp hp
  exact Fact.entryText_is_piece (hxs e he)

/-- Bindings of variables with different names are printed the same only if they are the same. -/
theorem print_inj (hxs : ∀ e ∈ xs, IsWord (nameIn ds e.1)) (hys : ∀ e ∈ ys, IsWord (nameIn ds e.1))
    (hinj : ∀ d ∈ xs, ∀ e ∈ ys, nameIn ds d.1 = nameIn ds e.1 → d.1 = e.1)
    (h : print ds xs = print ds ys) : xs = ys := by
  have hmap : xs.map (Fact.entryText (nameIn ds)) = ys.map (Fact.entryText (nameIn ds)) := by
    rw [← map_entryText_of_print hxs, h, map_entryText_of_print hys]
  clear h
  induction xs generalizing ys with
  | nil => exact (List.map_eq_nil_iff.mp hmap.symm).symm
  | cons d xs ih =>
    cases ys with
    | nil => cases hmap
    | cons e ys =>
      obtain ⟨hhead, htail⟩ := List.cons.inj hmap
      obtain ⟨hname, hvalue⟩ :=
        Fact.entryText_inj (hxs d List.mem_cons_self) (hys e List.mem_cons_self) hhead
      have hkey := hinj d List.mem_cons_self e List.mem_cons_self hname
      have hrest := ih (fun c hc => hxs c (List.mem_cons_of_mem d hc))
        (fun c hc => hys c (List.mem_cons_of_mem e hc))
        (fun c hc c' hc' => hinj c (List.mem_cons_of_mem d hc) c' (List.mem_cons_of_mem e hc'))
        htail
      rw [Prod.ext hkey hvalue, hrest]

end Bindings

open Bindings in
/-- However a method is built, no two of its variables have the same number.  So a fact over its
variables is printed as one text, whatever commands have led to it and in whatever order its
bindings come: each binding once, and each before all that follow by the bytes of its name or, if
the names are the same, by its number.  Facts that are equal are printed as the same text, and, if
their variables have different names that are words, only those are. -/
theorem facts_print_canonically (name : String) (edits : List Method.Edit) :
    let m := Method.build name edits
    let ds := Method.declarations edits
    (∀ v < m.vars.length, ∀ w < m.vars.length, numberIn ds v = numberIn ds w → v = w) ∧
    (∀ cs σ, Family.Reached cs σ → ∀ r, (σ r).Canonical) ∧
    (∀ es : Bindings, es.Canonical → es.Over m →
      (∀ text, es.Prints ds text ↔ text = es.toFact.text m.nameOf) ∧
      ∃ sorted : Bindings, sorted.Perm es ∧ sorted.Nodup ∧
        sorted.Pairwise (fun d e => comesFirst ds d e = true) ∧
        es.toFact.text m.nameOf = print ds sorted) ∧
    (∀ es es' : Bindings, es.Canonical → es'.Canonical → es.Over m → es'.Over m →
      es.equals es' = true → ∀ t t', es.Prints ds t → es'.Prints ds t' → t = t') ∧
    ∀ es es' : Bindings, es.Canonical → es'.Canonical → es.Over m → es'.Over m →
      m.NamesApart ((es ++ es').map Prod.fst) →
      ∀ t, es.Prints ds t → es'.Prints ds t → es.equals es' = true := by
  intro m ds
  have hprints : ∀ es : Bindings, es.Canonical → es.Over m → ∀ text,
      es.Prints ds text ↔ text = es.toFact.text m.nameOf :=
    fun es hes ho text => hes.stores_toFact.prints_iff ho
  refine ⟨?_, fun cs σ h r => (h.stores r).canonical, fun es hes ho => ⟨hprints es hes ho, ?_⟩,
    ?_, ?_⟩
  · intro v hv w hw h
    rwa [Method.numberIn_declarations hv, Method.numberIn_declarations hw] at h
  · have hstores := hes.stores_toFact
    have hperm := hstores.inOrder_perm m
    exact ⟨inOrder m es.toFact, hperm, hperm.nodup_iff.mpr hes.nodup.of_map,
      hstores.pairwise_inOrder ho, (print_inOrder name edits _).symm⟩
  · intro es es' hes hes' ho ho' hequals t t' ht ht'
    have hfact : es.toFact = es'.toFact := by
      simpa [hes.stores_toFact.equals_eq hes'.stores_toFact] using hequals
    rw [(hprints es hes ho t).mp ht, (hprints es' hes' ho' t').mp ht', hfact]
  · rintro es es' hes hes' - - hnames t ⟨xs, hxs, -, rfl⟩ ⟨ys, hys, -, htext⟩
    have hmem : ∀ e, e ∈ xs ∨ e ∈ ys → e.1 ∈ (es ++ es').map Prod.fst := by
      intro e he
      rw [List.map_append, List.mem_append]
      exact he.imp (fun h => List.mem_map_of_mem (hxs.mem_iff.mp h))
        fun h => List.mem_map_of_mem (hys.mem_iff.mp h)
    have hword : ∀ e, e ∈ xs ∨ e ∈ ys → IsWord (nameIn ds e.1) := by
      intro e he
      rw [Method.nameIn_declarations name]
      exact hnames.isWord e.1 (hmem e he)
    have heq : xs = ys := by
      refine print_inj (fun e he => hword e (.inl he)) (fun e he => hword e (.inr he)) ?_ htext
      intro d hd e he h
      rw [Method.nameIn_declarations name, Method.nameIn_declarations name] at h
      exact hnames.inj d.1 (hmem d (.inl hd)) e.1 (hmem e (.inr he)) h
    rw [hes.equals_iff hes', ← hes.perm_iff hes']
    exact (heq ▸ hxs.symm).trans hys

/-- A method with two variables of one name. -/
def twins : List Method.Edit :=
  [.newParam ⟨"x", .int⟩, .newReceiver .int, .newVar ⟨"x", .int⟩]

open Bindings in
theorem facts_print_canonically_twins :
    let ds := Method.declarations twins
    let es : Bindings := [(2, .nac), (1, .const (-5)), (0, .const 7)]
    let text := "\x7bthis=-5, x=7, x=NAC\x7d"
    es ≠ es.reverse ∧ equals es es.reverse = true ∧ (∀ t, Prints ds es t ↔ t = text) ∧
      (∀ t, Prints ds es.reverse t → t = text) ∧
      ∃ t, Prints ds [(1, .nac), (2, .const 0)] t ∧ Prints ds [(2, .const 0), (1, .nac)] t ∧
        equals [(1, .nac), (2, .const 0)] [(2, .const 0), (1, .nac)] = true := by
  intro ds es text
  obtain ⟨-, -, hprints, hequal, hback⟩ := facts_print_canonically "twins" twins
  have hover : ∀ es : Bindings, (∀ e ∈ es, e.1 < 3) → es.Over (Method.build "twins" twins) :=
    fun _ h => h
  have hes : Canonical es := ⟨by decide, by decide⟩
  have ho := hover es (by decide)
  have ho' := hover es.reverse (by decide)
  have htext : Prints ds es text :=
    ⟨[(1, .const (-5)), (0, .const 7), (2, .nac)], by decide, by decide, by decide⟩
  refine ⟨by decide, by decide, fun t => ?_, fun t ht => ?_, "\x7bthis=NAC, x=0\x7d", ?_⟩
  · rw [(hprints es hes ho).1, ← ((hprints es hes ho).1 text).mp htext]
  · exact hequal _ es (hes.perm (List.reverse_perm es)) hes ho' ho (by decide) t text ht htext
  · have hleft : Prints ds [(1, .nac), (2, .const 0)] "\x7bthis=NAC, x=0\x7d" :=
      ⟨[(1, .nac), (2, .const 0)], .refl _, by decide, by decide⟩
    have hright : Prints ds [(2, .const 0), (1, .nac)] "\x7bthis=NAC, x=0\x7d" :=
      ⟨[(1, .nac), (2, .const 0)], by decide, by decide, by decide⟩
    exact ⟨hleft, hright, hback _ _ ⟨by decide, by decide⟩ ⟨by decide, by decide⟩
      (hover _ (by decide)) (hover _ (by decide)) ⟨by decide, by decide⟩ _ hleft hright⟩

end Constants

end FlowAnalysis
