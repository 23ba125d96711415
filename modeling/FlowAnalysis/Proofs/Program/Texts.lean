import FlowAnalysis.Proofs.Program.Reading

/-!
# Texts of expressions and statements

A statement starts with a word that only statements start with, or else it is a definition, and its
place shows at the equals sign.  So it can be read back from its text, as its expressions can, and
texts tell expressions and statements apart, but for what they do not show.

## Main definitions

- `Stmt.WellNamed` — statements in which all names are names
- `Stmt.shown` — what the text of a statement shows

## Main statements

- `Expr.front_text` — how the text of an expression starts
- `Expr.word_text_not_reserved` — no expression starts with a word that only statements start with
- `Stmt.readPlace_text`, `Stmt.readPlace_place` — whether a place stands in front shows
- `Stmt.read?_text` — what is shown can be read back
- `texts_tell_apart` — two texts are the same exactly if they show the same
-/

namespace FlowAnalysis

/-! ## Names and what is shown -/

def Place.WellNamed : Place String → Prop
  | var v => IsName v
  | field r => r.WellNamed

structure Definition.WellNamed (d : Definition String) : Prop where
  place : ∀ p ∈ d.place, p.WellNamed
  value : d.value.WellNamed

/-- All names in a statement are names. -/
def Stmt.WellNamed : Stmt String → Prop
  | nop | jump _ => True
  | assign result e => (∀ v ∈ result, IsName v) ∧ e.WellNamed
  | store r v => r.WellNamed ∧ IsName v
  | call result c => (∀ v ∈ result, IsName v) ∧ c.WellNamed
  | branch c _ => IsName c.left ∧ IsName c.right
  | ret v => ∀ x ∈ v, IsName x

def Place.shown : Place String → Place String
  | field r => field r.shown
  | p => p

/-- A statement as its text shows it: without the types that fields are declared with, and without
the kind of a statement that makes a call, which is shown as a call whether it is one or an
assignment. -/
def Stmt.shown : Stmt String → Stmt String
  | assign result (.invoke c) => call result c
  | assign result e => assign result e.shown
  | store r v => store r.shown v
  | s => s

/-! ## Words in front -/

theorem EndsWord.word_not_reserved {cs : List Char} (h : EndsWord cs) :
    word cs ∉ reservedWords := by
  rw [h.word_eq_empty]
  decide

theorem IsName.word_append_not_reserved {s : String} (h : IsName s) {cs : List Char}
    (hcs : EndsWord cs) : word (s.toList ++ cs) ∉ reservedWords := by
  rw [h.word_append hcs]
  exact h.not_reserved

theorem word_not_reserved_of_startsWithDigit {cs : List Char} (h : startsWithDigit cs = true) :
    word cs ∉ reservedWords := by
  have hword : startsWithDigit (word cs).toList = true := by
    cases cs with
    | nil => cases h
    | cons c cs =>
      have hc : c.isDigit = true := h
      rw [word, String.toList_ofList, List.takeWhile_cons_of_pos (isNameChar_of_isDigit hc)]
      exact hc
  have hreserved : ∀ w ∈ reservedWords, startsWithDigit w.toList = false := by decide
  intro hmem
  rw [hreserved _ hmem] at hword
  cases hword

theorem symbol_append_ne (op : BinaryOp) (cs ds : List Char) :
    op.symbol.toList ++ ' ' :: cs ≠ '=' :: ' ' :: ds := by
  intro h
  have htake := congrArg (List.takeWhile (· ≠ ' ')) h
  rw [takeWhile_ne_append op.blank_not_mem_symbol] at htake
  have hsymbol : op.symbol = "=" := String.toList_inj.mp htake
  have hread := op.ofSymbol?_symbol
  rw [hsymbol] at hread
  cases hread

/-- What follows the first word of a text does not make the word the start of a place with an equals
sign behind it. -/
structure NoPlace (cs : List Char) : Prop where
  not_var : ∀ ds, cs ≠ ' ' :: '=' :: ' ' :: ds
  not_field : ∀ ds, cs = '.' :: ds → afterWord ds = []

namespace Expr

/-- How the text of an expression may start. -/
inductive Front (cs : List Char) : Prop
  /-- With a name, and no place. -/
  | name (s : String) (ds : List Char) (hs : IsName s) (hds : EndsWord ds) (hplace : NoPlace ds)
    (h : cs = s.toList ++ ds)
  /-- With a sign or a parenthesis. -/
  | mark (c : Char) (ds : List Char) (hc : isNameChar c = false) (hblank : c ≠ ' ') (hdot : c ≠ '.')
    (h : cs = c :: ds)
  /-- With a digit; then there is nothing but a literal. -/
  | digit (s : String) (hs : IsWord s) (hdigit : startsWithDigit s.toList = true)
    (h : cs = s.toList)

theorem front_numeral (i : Int) {s : String} (hs : ∀ c ∈ s.toList, isNameChar c = true) :
    Front (i.repr ++ s).toList := by
  obtain ⟨n, hn⟩ | ⟨n, hn⟩ := repr_cases i
  · refine .digit (n.repr ++ s) ⟨by simp [Nat.repr_ne_empty], fun c hc => ?_⟩ ?_ (by rw [hn])
    · rw [String.toList_append, List.mem_append] at hc
      exact hc.elim ((isWord_repr n).all_chars c) (hs c)
    · rw [String.toList_append]
      exact startsWithDigit_repr n s.toList
  · rw [String.toList_append, hn]
    exact .mark '-' _ (by decide) (by decide) (by decide) rfl

theorem front_text {e : Expr String} (h : e.WellNamed) : Front e.text.toList := by
  cases e with
  | var v => exact .name v [] h .nil ⟨nofun, nofun⟩ (List.append_nil _).symm
  | int n => simpa [text] using front_numeral n.toInt (s := "") (by simp)
  | long n => exact front_numeral n.toInt (s := "L") (by simp [isNameChar])
  | binary op a b =>
    refine .name a _ h.1 (.cons (by decide) _) ⟨fun ds hds => ?_, by simp⟩
      (toList_text_binary op a b)
    exact symbol_append_ne op b.toList ds (List.cons.inj hds).2
  | neg a => exact .mark '-' a.toList (by decide) (by decide) (by decide) String.toList_append
  | cast t a => exact .mark '(' _ (by decide) (by decide) (by decide) (toList_text_cast t a)
  | invoke c =>
    exact .name c.method _ h.1 (.cons (by decide) _) ⟨by simp, by simp⟩ (toList_text_invoke c)
  | field r =>
    refine .name r.base _ h.1 (.cons (by decide) _) ⟨by simp, fun ds hds => ?_⟩
      (toList_text_field r)
    rw [← (List.cons.inj hds).2, ← List.append_nil r.field.toList, h.2.afterWord_append .nil]

/-- No text of an expression starts with a word that only statements start with. -/
theorem word_text_not_reserved {e : Expr String} (h : e.WellNamed) :
    word e.text.toList ∉ reservedWords := by
  cases front_text h with
  | name s ds hs hds _ htext => exact htext ▸ hs.word_append_not_reserved hds
  | mark c ds hc _ _ htext => exact htext ▸ (EndsWord.cons hc ds).word_not_reserved
  | digit s _ hdigit htext => exact htext ▸ word_not_reserved_of_startsWithDigit hdigit

end Expr

namespace Stmt

/-! ## Definitions -/

theorem readPlace_eq_none {cs : List Char} (h : NoPlace (afterWord cs)) :
    readPlace cs = (none, cs) := by
  unfold readPlace
  split
  · next ds hds => exact absurd hds (h.not_var ds)
  · next ds hds => rw [h.not_field ds hds]
  · rfl

/-- No place stands in front of an expression. -/
theorem readPlace_text {e : Expr String} (h : e.WellNamed) :
    readPlace e.text.toList = (none, e.text.toList) := by
  apply readPlace_eq_none
  cases Expr.front_text h with
  | name s ds hs hds hplace htext =>
    rw [htext, hs.afterWord_append hds]
    exact hplace
  | mark c ds hc hblank hdot htext =>
    rw [htext, (EndsWord.cons hc ds).afterWord_eq_self]
    exact ⟨fun _ hds => hblank (List.cons.inj hds).1,
      fun _ hds => absurd (List.cons.inj hds).1 hdot⟩
  | digit s hs _ htext =>
    rw [htext, ← List.append_nil s.toList, hs.afterWord_append .nil]
    exact ⟨nofun, nofun⟩

theorem toList_text_field (r : FieldRef String) (cs : List Char) :
    (Place.field r).text.toList ++ cs = r.base.toList ++ '.' :: (r.field.toList ++ cs) := by
  simp [Place.text, FieldRef.text]

theorem word_place_not_reserved {p : Place String} (h : p.WellNamed) (cs : List Char) :
    word (p.text.toList ++ ' ' :: cs) ∉ reservedWords := by
  cases p with
  | var v => exact IsName.word_append_not_reserved h (.cons (by decide) _)
  | field r =>
    rw [toList_text_field]
    exact h.1.word_append_not_reserved (.cons (by decide) _)

/-- The place that stands in front of an equals sign can be read back. -/
theorem readPlace_place {p : Place String} (h : p.WellNamed) (cs : List Char) :
    readPlace (p.text.toList ++ ' ' :: '=' :: ' ' :: cs) = (some p.shown, cs) := by
  have hends : EndsWord (' ' :: '=' :: ' ' :: cs) := .cons (by decide) _
  cases p with
  | var v =>
    unfold readPlace
    rw [Place.text, IsWord.afterWord_append h.toIsWord hends, IsWord.word_append h.toIsWord hends]
    rfl
  | field r =>
    have hdot : EndsWord ('.' :: (r.field.toList ++ ' ' :: '=' :: ' ' :: cs)) :=
      .cons (by decide) _
    unfold readPlace
    rw [toList_text_field, h.1.afterWord_append hdot, h.1.word_append hdot]
    simp only [h.2.afterWord_append hends, h.2.word_append hends]
    rfl

/-! ## Statements -/

/-- What is read behind a definition's semicolon depends on its words in front. -/
theorem read?_of_not_reserved {body : List Char} (h : word body ∉ reservedWords) (c : Char) :
    read? (body ++ [c]) = readDefinition? body := by
  simp only [reservedWords, List.mem_cons, not_or] at h
  obtain ⟨hnop, hreturn, hgoto, hif, -⟩ := h
  simp only [read?, List.dropLast_concat, hnop, hreturn, hgoto, hif, if_false]

/-- A definition can be read back, but for the declared types of fields. -/
theorem read?_definition {d : Definition String} (h : d.WellNamed) :
    read? d.text.toList = ofDefinition? ⟨d.place.map Place.shown, d.value.shown⟩ := by
  obtain ⟨place, value⟩ := d
  have hvalue : value.WellNamed := h.value
  cases place with
  | none =>
    have htext : (Definition.text ⟨none, value⟩).toList = value.text.toList ++ [';'] :=
      String.toList_append
    rw [htext, read?_of_not_reserved (Expr.word_text_not_reserved hvalue), readDefinition?,
      readPlace_text hvalue, Expr.read?_text hvalue]
    rfl
  | some p =>
    have hp : p.WellNamed := h.place p rfl
    have htext : (Definition.text ⟨some p, value⟩).toList =
        (p.text.toList ++ ' ' :: '=' :: ' ' :: value.text.toList) ++ [';'] := by
      simp [Definition.text]
    rw [htext, read?_of_not_reserved (word_place_not_reserved hp _), readDefinition?,
      readPlace_place hp, Expr.read?_text hvalue]
    rfl

theorem readTarget_text (t : Option StmtId) : readTarget (targetText t).toList = t := by
  cases t with
  | none => rfl
  | some i =>
    have hne : i.repr.toList ≠ ['?'] := by
      intro h
      have hmark : '?' ∈ i.repr.toList := h ▸ List.mem_singleton_self _
      exact absurd (isDigit_of_mem_repr hmark) (by decide)
    rw [targetText, readTarget, if_neg hne, ofDigitChars_repr]

theorem WellNamed.definition {s : Stmt String} {d : Definition String} (h : s.WellNamed)
    (hd : s.definition? = some d) : d.WellNamed := by
  have hplace : ∀ result : Option String, (∀ v ∈ result, IsName v) →
      ∀ p ∈ result.map Place.var, p.WellNamed := by
    intro result hresult p hp
    obtain ⟨v, hv, rfl⟩ := Option.map_eq_some_iff.mp hp
    exact hresult v hv
  cases s with
  | assign result e =>
    cases hd
    exact ⟨hplace result h.1, h.2⟩
  | store r v =>
    cases hd
    exact ⟨fun p hp => Option.some.inj hp ▸ h.1, h.2⟩
  | call result c =>
    cases hd
    exact ⟨hplace result h.1, h.2⟩
  | nop | branch _ _ | jump _ | ret _ => cases hd

/-- The statement that makes a definition is read for it. -/
theorem ofDefinition?_shown {s : Stmt String} {d : Definition String}
    (hd : s.definition? = some d) :
    ofDefinition? ⟨d.place.map Place.shown, d.value.shown⟩ = some s.shown := by
  cases s with
  | assign result e =>
    cases hd
    cases result <;> cases e <;> rfl
  | store r v =>
    cases hd
    rfl
  | call result c =>
    cases hd
    cases result <;> rfl
  | nop | branch _ _ | jump _ | ret _ => cases hd

theorem read?_branch {c : Condition String} (hleft : IsName c.left) (hright : IsName c.right)
    (t : Option StmtId) : read? (branch c t).text.toList = some (branch c t) := by
  have hcond : Expr.read? c.toExpr.text.toList = some c.toExpr :=
    Expr.read?_text (e := c.toExpr) ⟨hleft, hright⟩
  have hparen : ')' ∉ c.toExpr.text.toList := by
    have hsymbol : ')' ∉ c.op.symbol.toList := by cases c.op <;> decide
    have hleft : ')' ∉ c.left.toList := hleft.not_mem (by decide)
    have hright : ')' ∉ c.right.toList := hright.not_mem (by decide)
    simp [Condition.toExpr, Expr.text, BinaryOp.symbol, hleft, hright, hsymbol]
  have htext : (branch c t).text.toList = ("if".toList ++ ' ' :: '(' ::
      (c.toExpr.text.toList ++ ')' :: (" goto ".toList ++ (targetText t).toList))) ++ [';'] := by
    simp [text]
  have hends : EndsWord (' ' :: '(' ::
      (c.toExpr.text.toList ++ ')' :: (" goto ".toList ++ (targetText t).toList))) :=
    .cons (by decide) _
  have hif : IsWord "if" := by decide
  rw [htext]
  simp only [read?, List.dropLast_concat, hif.word_append hends, hif.afterWord_append hends]
  have hread : readBranch? (c.toExpr.text.toList ++ ')' :: (" goto ".toList ++
      (targetText t).toList)) = some (branch c t) := by
    rw [readBranch?, takeWhile_ne_append hparen, dropWhile_ne_append hparen, hcond]
    exact congrArg (some ∘ branch c) (readTarget_text t)
  exact hread

theorem read?_jump (t : Option StmtId) : read? (jump t).text.toList = some (jump t) := by
  have htext : (jump t).text.toList = ("goto".toList ++ ' ' :: (targetText t).toList) ++ [';'] := by
    simp [text]
  have hends : EndsWord (' ' :: (targetText t).toList) := .cons (by decide) _
  have hgoto : IsWord "goto" := by decide
  rw [htext]
  simp only [read?, List.dropLast_concat, hgoto.word_append hends, hgoto.afterWord_append hends]
  exact congrArg (some ∘ jump) (readTarget_text t)

theorem read?_ret (v : String) : read? (ret (some v)).text.toList = some (ret (some v)) := by
  have htext : (ret (some v)).text.toList = ("return".toList ++ ' ' :: v.toList) ++ [';'] := by
    simp [text]
  have hends : EndsWord (' ' :: v.toList) := .cons (by decide) _
  have hreturn : IsWord "return" := by decide
  rw [htext]
  simp only [read?, List.dropLast_concat, hreturn.word_append hends, hreturn.afterWord_append hends]
  exact congrArg (some ∘ ret ∘ some) String.ofList_toList

/-- What the text of a statement shows can be read back. -/
theorem read?_text {s : Stmt String} (h : s.WellNamed) : read? s.text.toList = some s.shown := by
  cases hd : s.definition? with
  | some d =>
    rw [text_eq_of_definition? hd, read?_definition (h.definition hd), ofDefinition?_shown hd]
  | none =>
    cases s with
    | nop => rfl
    | branch c t => exact read?_branch h.1 h.2 t
    | jump t => exact read?_jump t
    | ret v =>
      cases v with
      | none => rfl
      | some v => exact read?_ret v
    | assign _ _ | store _ _ | call _ _ => cases hd

end Stmt

/-! ## What texts tell apart -/

theorem Expr.text_shown (e : Expr String) : e.shown.text = e.text := by
  cases e <;> rfl

theorem Stmt.text_shown (s : Stmt String) : s.shown.text = s.text := by
  cases s with
  | assign result e => cases result <;> cases e <;> rfl
  | store r v => rfl
  | call result c => cases result <;> rfl
  | nop | branch _ _ | jump _ | ret _ => rfl

/-- If all names are names, two expressions have the same text exactly if they are the same but for
the types that fields are declared with; and two statements exactly if they are the same but for
these types, and for whether a call is assigned or is a statement of its own. -/
theorem texts_tell_apart :
    (∀ e e' : Expr String, e.WellNamed → e'.WellNamed →
      (e.text = e'.text ↔ e.shown = e'.shown)) ∧
    ∀ s s' : Stmt String, s.WellNamed → s'.WellNamed →
      (s.text = s'.text ↔ s.shown = s'.shown) := by
  constructor
  · intro e e' he he'
    constructor
    · intro h
      have hread := Expr.read?_text he
      rw [h, Expr.read?_text he'] at hread
      exact (Option.some.inj hread).symm
    · intro h
      rw [← e.text_shown, h, e'.text_shown]
  · intro s s' hs hs'
    constructor
    · intro h
      have hread := Stmt.read?_text hs
      rw [h, Stmt.read?_text hs'] at hread
      exact (Option.some.inj hread).symm
    · intro h
      rw [← s.text_shown, h, s'.text_shown]

/-- A literal with a sign is told from a negation and a cast from a call, but neither the type of a
field nor the kind of a statement that makes a call is told. -/
theorem texts_tell_apart_signs :
    (Expr.int (-5)).text ≠ (Expr.neg "_5").text ∧
      (Expr.cast (.reference "a.f") "x").text ≠ (Expr.invoke ⟨"a", ["f", "x"]⟩).text ∧
      (Expr.field ⟨"x", "f", .int⟩).text = (Expr.field ⟨"x", "f", .reference "a.f"⟩).text ∧
      (Stmt.assign (some "x") (.invoke ⟨"f", ["x", "a"]⟩)).text =
        (Stmt.call (some "x") ⟨"f", ["x", "a"]⟩).text := by
  obtain ⟨hexpr, hstmt⟩ := texts_tell_apart
  have hneg : IsName "_5" := by decide
  have ha : IsName "a" := by decide
  have hf : IsName "f" := by decide
  have hx : IsName "x" := by decide
  have hclass : IsClassName "a.f" :=
    ⟨⟨["a", "f"], by decide, by simp [ha.toIsIdentifier, hf.toIsIdentifier], by decide⟩, by decide⟩
  have hresult : ∀ v ∈ some "x", IsName v := by simp [hx]
  have hcast : (Expr.cast (.reference "a.f") "x").WellNamed := ⟨hclass, hx⟩
  have hinvoke : (Expr.invoke ⟨"a", ["f", "x"]⟩).WellNamed := ⟨ha, by simp [hf, hx]⟩
  have hfield : ∀ t, (Expr.field ⟨"x", "f", t⟩).WellNamed := fun _ => ⟨hx, hf⟩
  have hcall : Call.WellNamed ⟨"f", ["x", "a"]⟩ := ⟨hf, by simp [hx, ha]⟩
  refine ⟨?_, ?_, ?_, ?_⟩
  · exact mt (hexpr (.int (-5)) (.neg "_5") trivial hneg).mp (by decide)
  · exact mt (hexpr _ _ hcast hinvoke).mp (by decide)
  · exact (hexpr _ _ (hfield .int) (hfield (.reference "a.f"))).mpr rfl
  · exact (hstmt (.assign (some "x") (.invoke _)) (.call (some "x") _) ⟨hresult, hcall⟩
      ⟨hresult, hcall⟩).mpr rfl

end FlowAnalysis
