import IndexedStore.Proofs.Query.Clauses
import IndexedStore.Proofs.Text.Letters

/-!
# Written queries

A `Layout` is a query as it is written, with a scope and, if it has them, a predicate and an order. Where no keyword
stands in its parts, or arises where a part meets the keyword before or behind it (`Layout.Clear`), the clauses are
found where they are written, and the query reads as what its parts read as (`Layout.Clear.parse_eq_ok_iff`).
-/

namespace IndexedStore

namespace Query

/-- What a query begins with, up to its scope. -/
def selectWords : List Char := ['S', 'E', 'L', 'E', 'C', 'T', ' ', '*', ' ', 'F', 'R', 'O', 'M', ' ']

/-! ## Keywords around other text -/

/-- Before the scope only the last space of the text can belong to a later keyword. -/
theorem infix_selectWords_iff {keyword s : List Char} (hm : 'M' ∉ keyword)
    (hselect : ¬ keyword <:+: ['S', 'E', 'L', 'E', 'C', 'T', ' ', '*', ' ', 'F', 'R', 'O']) :
    keyword <:+: Text.upper (selectWords ++ s) ↔ keyword <:+: Text.upper (' ' :: s) := by
  have htext : Text.upper (selectWords ++ s) =
      ['S', 'E', 'L', 'E', 'C', 'T', ' ', '*', ' ', 'F', 'R', 'O'] ++ 'M' :: Text.upper (' ' :: s) := rfl
  rw [htext, Text.infix_append_cons_iff hm, or_iff_right hselect]

theorem whereWord_infix_select_iff {s : List Char} :
    whereWord <:+: Text.upper (selectWords ++ s) ↔ whereWord <:+: Text.upper (' ' :: s) :=
  infix_selectWords_iff (by decide) fun h => absurd (h.subset (show 'W' ∈ whereWord by decide)) (by decide)

theorem orderWord_infix_select_iff {s : List Char} :
    orderWord <:+: Text.upper (selectWords ++ s) ↔ orderWord <:+: Text.upper (' ' :: s) :=
  infix_selectWords_iff (by decide) fun h => absurd (h.subset (show 'Y' ∈ orderWord by decide)) (by decide)

/-- `WHERE` before or behind `ORDER BY` may share a space with it. -/
theorem whereWord_infix_append_iff {x y : List Char} :
    whereWord <:+: x ++ (orderWord ++ y) ↔ whereWord <:+: x ++ [' '] ∨ whereWord <:+: ' ' :: y := by
  have hshort : ∀ s, s.length < 7 → ¬ whereWord <:+: s := fun s hs h => by
    have := h.length_le
    simp only [whereWord, List.length_cons, List.length_nil] at this
    omega
  have hsplit : x ++ (orderWord ++ y) =
      (x ++ [' ']) ++ 'O' :: (['R'] ++ 'D' :: (['E', 'R', ' '] ++ 'B' :: ([] ++ 'Y' :: (' ' :: y)))) := by
    simp [orderWord]
  rw [hsplit]
  generalize x ++ [' '] = x
  rw [Text.infix_append_cons_iff (by decide), Text.infix_append_cons_iff (by decide),
    or_iff_right (hshort ['R'] (by decide)), Text.infix_append_cons_iff (by decide),
    or_iff_right (hshort ['E', 'R', ' '] (by decide)), Text.infix_append_cons_iff (by decide),
    or_iff_right (hshort [] (by decide))]

/-- `ORDER BY` before or behind `WHERE` may share a space with it. -/
theorem orderWord_infix_append_iff {x y : List Char} :
    orderWord <:+: x ++ (whereWord ++ y) ↔ orderWord <:+: x ++ [' '] ∨ orderWord <:+: ' ' :: y := by
  have hsplit : x ++ (whereWord ++ y) = (x ++ [' ']) ++ 'W' :: ([] ++ 'H' :: ('E' :: 'R' :: 'E' :: ' ' :: y)) := by
    simp [whereWord]
  have hnil : ¬ orderWord <:+: [] := by simp [orderWord]
  rw [hsplit]
  generalize x ++ [' '] = x
  rw [Text.infix_append_cons_iff (by decide), Text.infix_append_cons_iff (by decide), or_iff_right hnil]
  simp [List.infix_cons_iff, orderWord, List.cons_prefix_cons]

/-- Up to its last character `ORDER BY` does not run into another one. -/
theorem orderWord_not_infix_dropLast {x : List Char} (h : ¬ orderWord <:+: x ++ [' ']) :
    ¬ orderWord <:+: (x ++ orderWord).dropLast := by
  have hsplit : (x ++ orderWord).dropLast = (x ++ [' ']) ++ ['O', 'R', 'D', 'E', 'R', ' ', 'B', 'Y'] := by
    simp [orderWord, List.dropLast_append_of_ne_nil]
  rw [hsplit, List.infix_append_iff]
  rintro (hin | hin | ⟨front, back, hword, hfront, hback⟩)
  · exact h hin
  · exact absurd hin.length_le (by decide)
  · cases back with
    | nil =>
      rw [List.append_nil] at hword
      exact h (hword ▸ hfront.isInfix)
    | cons c back =>
      -- what stands behind the only `O` of the keyword is as long as all that stands here
      have hlength := hback.length_le
      obtain ⟨rfl, -⟩ := List.cons_prefix_cons.1 hback
      rcases front with _ | ⟨a, _ | ⟨b, front⟩⟩
      · simp [orderWord] at hword
      · simp only [orderWord, List.cons_append, List.nil_append, List.cons.injEq] at hword
        rw [← hword.2.2] at hlength
        exact absurd hlength (by decide)
      · simp only [orderWord, List.cons_append, List.cons.injEq] at hword
        have hmem : 'O' ∈ front ++ 'O' :: back := by simp
        rw [← hword.2.2] at hmem
        exact absurd hmem (by decide)

/-! ## Layouts -/

/-- A query as it is written. -/
structure Layout where
  scope : List Char
  predicate : Option (List Char)
  order : Option (List Char)

namespace Layout

/-- A clause as it is written, if there is one. -/
def clause (keyword : List Char) : Option (List Char) → List Char
  | none => []
  | some s => keyword ++ s

def text (l : Layout) : List Char :=
  selectWords ++ (l.scope ++ (clause whereWord l.predicate ++ clause orderWord l.order))

/-- The scope with the spaces that the keywords around it leave. -/
def spacedScope (l : Layout) : List Char :=
  ' ' :: (l.scope ++ if l.predicate.isSome || l.order.isSome then [' '] else [])

/-- No keyword of a later clause stands in a part or where one meets its neighbours, but in a predicate `WHERE`
may. -/
structure Clear (l : Layout) : Prop where
  scopeWhere : ¬ whereWord <:+: Text.upper l.spacedScope
  scopeOrder : ¬ orderWord <:+: Text.upper l.spacedScope
  predicate : ∀ p, l.predicate = some p → ¬ orderWord <:+: Text.upper (' ' :: (p ++ [' ']))
  order : l.predicate = none → ∀ o, l.order = some o → ¬ whereWord <:+: Text.upper (' ' :: o)

/-- Where the clauses are written. -/
def places (l : Layout) : Clauses :=
  ⟨9, l.predicate.map fun _ => 14 + l.scope.length,
    l.order.map fun _ => 14 + l.scope.length + (clause whereWord l.predicate).length⟩

variable {l : Layout}

theorem find_from (l : Layout) : Text.find? fromWord (Text.upper l.text) = some 9 := by
  have htext : Text.upper l.text = ['S', 'E', 'L', 'E', 'C', 'T', ' ', '*', ' '] ++ 'F' ::
      (['R', 'O', 'M', ' '] ++
        Text.upper (l.scope ++ (clause whereWord l.predicate ++ clause orderWord l.order))) := rfl
  rw [htext, Text.find?_append (by decide) (fun h => absurd (h.subset (show 'M' ∈ fromWord by decide)) (by decide)),
    Text.find?_of_prefix (show fromWord <+: 'F' :: (['R', 'O', 'M', ' '] ++ _) from List.prefix_append fromWord _)]
  rfl

theorem length_selectWords_append (s : List Char) : (Text.upper (selectWords ++ s)).length = 14 + s.length := by
  simp [selectWords]
  omega

/-- `WHERE` is found behind the scope, or nowhere. -/
theorem Clear.find_where (h : l.Clear) : Text.find? whereWord (Text.upper l.text) = l.places.whereAt := by
  obtain ⟨scope, predicate, order⟩ := l
  have hscope := h.scopeWhere
  have horder := h.order
  cases predicate with
  | some p =>
    have htext : Text.upper (Layout.text ⟨scope, some p, order⟩) = Text.upper (selectWords ++ scope) ++ ' ' ::
        (['W', 'H', 'E', 'R', 'E', ' '] ++ Text.upper (p ++ clause orderWord order)) := by
      simp [text, clause, selectWords, whereWord]
    have hfront : ¬ whereWord <:+: Text.upper (selectWords ++ scope) ++ [' '] := fun hin =>
      hscope (whereWord_infix_select_iff.1 (by simpa using hin))
    rw [htext, Text.find?_append (by decide) hfront, Text.find?_of_prefix
      (show whereWord <+: ' ' :: (['W', 'H', 'E', 'R', 'E', ' '] ++ _) from List.prefix_append whereWord _),
      length_selectWords_append]
    rfl
  | none =>
    refine Text.find?_eq_none_iff.2 fun hin => ?_
    have hin := whereWord_infix_select_iff.1 hin
    cases order with
    | none => exact hscope (by simpa [spacedScope, clause] using hin)
    | some o =>
      have htext : Text.upper (' ' :: (scope ++ (clause whereWord none ++ clause orderWord (some o)))) =
          Text.upper (' ' :: scope) ++ (orderWord ++ Text.upper o) := by
        simp [clause, orderWord]
      rw [htext, whereWord_infix_append_iff] at hin
      rcases hin with hin | hin
      · exact hscope (by simpa [spacedScope] using hin)
      · exact horder rfl o rfl hin

/-- The text up to the order, with the space before that, has no `ORDER BY`. -/
theorem not_infix_front (hscope : ¬ orderWord <:+: Text.upper l.spacedScope)
    (hpredicate : ∀ p, l.predicate = some p → ¬ orderWord <:+: Text.upper (' ' :: (p ++ [' ']))) :
    ¬ orderWord <:+: Text.upper (selectWords ++ (l.scope ++ (clause whereWord l.predicate ++
      if l.order.isSome then [' '] else []))) := by
  obtain ⟨scope, predicate, order⟩ := l
  rw [orderWord_infix_select_iff]
  cases predicate with
  | none => exact hscope
  | some p =>
    intro hin
    have htext : Text.upper (' ' :: (scope ++ (clause whereWord (some p) ++ if order.isSome then [' '] else []))) =
        Text.upper (' ' :: scope) ++ (whereWord ++ Text.upper (p ++ if order.isSome then [' '] else [])) := by
      simp [clause, whereWord]
    rw [htext, orderWord_infix_append_iff] at hin
    rcases hin with hin | hin
    · exact hscope (by simpa [spacedScope] using hin)
    · refine hpredicate p rfl (hin.trans ?_)
      cases order with
      | none => exact ⟨[], [' '], by simp⟩
      | some o => exact List.infix_refl _

/-- `ORDER BY` is found behind the scope and the predicate, or nowhere. -/
theorem find_order (hscope : ¬ orderWord <:+: Text.upper l.spacedScope)
    (hpredicate : ∀ p, l.predicate = some p → ¬ orderWord <:+: Text.upper (' ' :: (p ++ [' ']))) :
    Text.find? orderWord (Text.upper l.text) = l.places.orderAt := by
  have hfront := not_infix_front hscope hpredicate
  obtain ⟨scope, predicate, order⟩ := l
  cases order with
  | none => exact Text.find?_eq_none_iff.2 (by simpa [text, clause] using hfront)
  | some o =>
    have htext : Text.upper (Layout.text ⟨scope, predicate, some o⟩) =
        Text.upper (selectWords ++ (scope ++ clause whereWord predicate)) ++ (orderWord ++ Text.upper o) := by
      simp [text, clause, orderWord]
    rw [htext, Text.find?_append_keyword (by decide) (orderWord_not_infix_dropLast (by simpa using hfront)),
      length_selectWords_append, List.length_append, ← Nat.add_assoc]
    rfl

/-! ## What stands at the places -/

theorem scopeEnd_places (l : Layout) : l.places.scopeEnd l.text = 14 + l.scope.length := by
  obtain ⟨scope, predicate, order⟩ := l
  cases predicate <;> cases order <;> simp [Clauses.scopeEnd, places, text, clause, selectWords]
  omega

theorem scopeText_places (l : Layout) : l.places.scopeText l.text = l.scope := by
  have hlength : (selectWords ++ l.scope).length = 14 + l.scope.length := by
    simp [selectWords]
    omega
  rw [Clauses.scopeText, scopeEnd_places, text, ← List.append_assoc, List.take_left' hlength]
  exact List.drop_left' rfl

/-- The text up to the order. -/
theorem take_orderAt (l : Layout) : l.text.take (l.places.orderAt.getD l.text.length) =
    selectWords ++ (l.scope ++ clause whereWord l.predicate) := by
  obtain ⟨scope, predicate, _ | o⟩ := l
  · have htext : Layout.text ⟨scope, predicate, none⟩ = selectWords ++ (scope ++ clause whereWord predicate) := by
      simp [text, clause]
    rw [← htext]
    exact List.take_length
  · have htext : Layout.text ⟨scope, predicate, some o⟩ =
        selectWords ++ (scope ++ clause whereWord predicate) ++ (orderWord ++ o) := by
      simp [text, clause]
    rw [htext]
    refine List.take_left' ?_
    simp [selectWords, places]
    omega

/-- What stands between `WHERE` and the order is the predicate. -/
theorem readsPredicate_places_iff {predicate : Option Predicate} :
    l.places.ReadsPredicate l.text predicate ↔ l.predicate.map Predicate.parse = predicate.map .ok := by
  have hend := take_orderAt l
  obtain ⟨scope, _ | p, order⟩ := l
  · simp [Clauses.ReadsPredicate, places, eq_comm]
  · have hstart : (selectWords ++ (scope ++ whereWord)).length = 14 + scope.length + 7 := by
      simp [selectWords, whereWord]
      omega
    have hfront : selectWords ++ (scope ++ clause whereWord (some p)) = selectWords ++ (scope ++ whereWord) ++ p := by
      simp [clause]
    rw [hfront] at hend
    have hle : 14 + scope.length + 7 ≤ (Layout.places ⟨scope, some p, order⟩).orderAt.getD
        (Layout.text ⟨scope, some p, order⟩).length := by
      have hshort := congrArg List.length hend
      rw [List.length_take, List.length_append, hstart] at hshort
      omega
    show (14 + scope.length + 7 ≤ _ ∧ ∃ p', predicate = some p' ∧
      Predicate.parse (((Layout.text ⟨scope, some p, order⟩).take _).drop (14 + scope.length + 7)) = .ok p') ↔ _
    rw [hend, List.drop_left' hstart, and_iff_right hle]
    cases predicate <;> simp [eq_comm]

/-- What stands behind `ORDER BY` is the order. -/
theorem readsOrder_places_iff {order : Option Path} :
    l.places.ReadsOrder l.text order ↔ l.order.map Path.parse = order.map .ok := by
  obtain ⟨scope, predicate, _ | o⟩ := l
  · simp [Clauses.ReadsOrder, places, eq_comm]
  · have hbody : (selectWords ++ (scope ++ (clause whereWord predicate ++ orderWord))).length =
        14 + scope.length + (clause whereWord predicate).length + 10 := by
      simp [selectWords, orderWord]
      omega
    have htext : Layout.text ⟨scope, predicate, some o⟩ =
        selectWords ++ (scope ++ (clause whereWord predicate ++ orderWord)) ++ o := by
      simp [text, clause]
    show (∃ path, order = some path ∧ Path.parse ((Layout.text ⟨scope, predicate, some o⟩).drop
      (14 + scope.length + (clause whereWord predicate).length + 10)) = .ok path) ↔ _
    rw [htext, List.drop_left' hbody]
    cases order <;> simp [eq_comm]

/-! ## Reading -/

/-- **The clauses are found where they are written.** -/
theorem Clear.clauses_text (h : l.Clear) : clauses l.text = .ok l.places := by
  refine clauses_eq_ok_iff.2 ⟨⟨find_from l, h.find_where, find_order h.scopeOrder h.predicate⟩, ⟨?_, ?_⟩⟩
  · rw [scopeEnd_places]
    show 14 ≤ _
    omega
  · intro w o hw ho
    obtain ⟨_, -, rfl⟩ := Option.map_eq_some_iff.1 hw
    obtain ⟨_, -, rfl⟩ := Option.map_eq_some_iff.1 ho
    exact Nat.le_add_right _ _

/-- **A query whose keywords stand clear reads as what its parts read as.** -/
theorem Clear.parse_eq_ok_iff (h : l.Clear) {q : Query} : parse l.text = .ok q ↔ Scope.parse l.scope = .ok q.scope ∧
    l.predicate.map Predicate.parse = q.predicate.map .ok ∧ l.order.map Path.parse = q.order.map .ok ∧
      q.hint = none := by
  rw [Query.parse_eq_ok_iff]
  simp only [h.clauses_text, Except.ok.injEq, exists_eq_left', scopeText_places, readsPredicate_places_iff,
    readsOrder_places_iff]

end Layout

end Query

end IndexedStore
