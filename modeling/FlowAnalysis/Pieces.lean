/-!
# Pieces of a text

A text in which commas stand between pieces.  Empty pieces do not count.

## Main definitions

- `pieces` — the pieces of a text that are not empty

## Main statements

- `pieces_append_comma` — a comma ends a piece
- `pieces_eq_nil_iff` — a text without pieces has nothing in it but commas
- `pieces_intercalate` — pieces that are written with a comma and a blank between them can be read
  back
-/

namespace FlowAnalysis

/-- The pieces between the commas of a text, as they stand, but for those that are empty. -/
def pieces (cs : List Char) : List String := ((cs.splitOn ',').filter (· ≠ [])).map String.ofList

@[simp]
theorem pieces_nil : pieces [] = [] := by simp [pieces]

/-- A comma ends a piece. -/
@[simp]
theorem pieces_append_comma (cs ds : List Char) :
    pieces (cs ++ ',' :: ds) = pieces cs ++ pieces ds := by
  simp [pieces, List.splitOn_append_cons_self]

@[simp]
theorem pieces_comma (cs : List Char) : pieces (',' :: cs) = pieces cs :=
  pieces_append_comma [] cs

/-- Without a comma there is one piece only. -/
theorem pieces_eq_singleton {cs : List Char} (hne : cs ≠ []) (h : ',' ∉ cs) :
    pieces cs = [String.ofList cs] := by
  simp [pieces, List.splitOn_eq_singleton h, hne]

/-- Any other character than a comma belongs to a piece. -/
theorem pieces_cons_ne_nil {c : Char} (hc : c ≠ ',') (cs : List Char) : pieces (c :: cs) ≠ [] := by
  have hsplit : (c :: cs).splitOn ',' = (cs.splitOn ',').modifyHead (c :: ·) := by
    simp [List.splitOn_cons_eq_if_modifyHead, hc]
  obtain ⟨p, ps, hp⟩ := List.exists_cons_of_ne_nil (List.splitOn_ne_nil ',' cs)
  simp [pieces, hsplit, hp]

/-- A text without pieces has nothing in it but commas. -/
theorem pieces_eq_nil_iff {cs : List Char} : pieces cs = [] ↔ ∀ c ∈ cs, c = ',' := by
  induction cs with
  | nil => simp
  | cons c cs ih =>
    by_cases hc : c = ','
    · simp [hc, ih]
    · simp [hc, pieces_cons_ne_nil hc cs]

/-- Pieces that are written with a comma and a blank between them can be read back, if they have
neither in themselves and are not empty. -/
theorem pieces_intercalate {ps : List String}
    (h : ∀ p ∈ ps, p ≠ "" ∧ ',' ∉ p.toList ∧ ' ' ∉ p.toList) :
    pieces ((", ".intercalate ps).toList.filter (· ≠ ' ')) = ps := by
  rw [String.toList_intercalate]
  induction ps with
  | nil => simp
  | cons p ps ih =>
    obtain ⟨hne, hcomma, hblank⟩ := h p List.mem_cons_self
    have hfilter : p.toList.filter (· ≠ ' ') = p.toList :=
      List.filter_eq_self.mpr fun c hc => by simpa using fun hb : c = ' ' => hblank (hb ▸ hc)
    have hp : pieces p.toList = [p] := by
      rw [pieces_eq_singleton (by simpa using hne) hcomma, String.ofList_toList]
    cases ps with
    | nil => rw [List.map_singleton, List.intercalate_singleton, hfilter, hp]
    | cons q ps =>
      have hrest := ih fun q hq => h q (List.mem_cons_of_mem p hq)
      rw [List.map_cons, List.map_cons, List.intercalate_cons_cons, ← List.map_cons,
        List.filter_append, List.filter_append, hfilter]
      simpa [hp] using hrest

end FlowAnalysis
