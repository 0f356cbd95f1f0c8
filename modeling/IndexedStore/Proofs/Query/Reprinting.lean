import IndexedStore.Proofs.Query.Printed

/-!
# Printing a query and reading it again

A query that is read from a text and printed is read again as the same query, but for four things
(`Query.parse_display`): a keyword that arises where the printed scope or order meets a keyword, `IS` as the second word
of the predicate's path, two quotes side by side in the predicate's text, and a float whose text is that of another
integer. With the first two the printed query is refused, with the others its probe is another.
-/

namespace IndexedStore

namespace Query

namespace Layout

variable {l : Layout}

/-- A keyword that begins behind `FROM` and ends with the scope stands in the scope. -/
theorem infix_scope_of_find? {keyword : List Char} {i : Nat} (h : Text.find? keyword (Text.upper l.text) = some i)
    (hlow : 14 ≤ i) (hhigh : i + keyword.length ≤ 14 + l.scope.length) : keyword <:+: Text.upper l.scope := by
  have htext : Text.upper l.text = selectWords ++ (Text.upper l.scope ++
      Text.upper (clause whereWord l.predicate ++ clause orderWord l.order)) := by
    simp [text, selectWords]
  rw [htext] at h
  exact Text.infix_of_find?_append h hlow (by simpa [selectWords] using hhigh)

/-- The text begins with the scope and the spaces beside it. -/
theorem exists_text_eq (l : Layout) :
    ∃ more, l.text = ['S', 'E', 'L', 'E', 'C', 'T', ' ', '*', ' ', 'F', 'R', 'O', 'M'] ++ l.spacedScope ++ more := by
  obtain ⟨scope, predicate, order⟩ := l
  cases predicate with
  | some p =>
    exact ⟨whereWord.tail ++ (p ++ clause orderWord order), by
      simp [text, clause, selectWords, spacedScope, whereWord]⟩
  | none =>
    cases order with
    | some o => exact ⟨orderWord.tail ++ o, by simp [text, clause, selectWords, spacedScope, orderWord]⟩
    | none => exact ⟨[], by simp [text, clause, selectWords, spacedScope]⟩

/-- A keyword in the scope and the spaces beside it is found there. -/
theorem exists_find?_of_spacedScope {keyword : List Char} (hne : keyword ≠ [])
    (h : keyword <:+: Text.upper l.spacedScope) : ∃ i, Text.find? keyword (Text.upper l.text) = some i ∧
      (i + keyword.length ≤ 14 + l.scope.length ∨
        i + keyword.length = 15 + l.scope.length ∧ (l.predicate.isSome || l.order.isSome) = true) := by
  obtain ⟨more, htext⟩ := exists_text_eq l
  generalize hfront : ['S', 'E', 'L', 'E', 'C', 'T', ' ', '*', ' ', 'F', 'R', 'O', 'M'] = front at htext
  have hlength : (Text.upper (front ++ l.spacedScope)).length ≤ 14 + l.scope.length ∨
      (Text.upper (front ++ l.spacedScope)).length = 15 + l.scope.length ∧
        (l.predicate.isSome || l.order.isSome) = true := by
    rw [Text.length_upper, List.length_append, ← hfront, spacedScope]
    split
    · rename_i hclause
      exact .inr ⟨by simp; omega, hclause⟩
    · exact .inl (by simp; omega)
  have hin : keyword <:+: Text.upper (front ++ l.spacedScope) := by
    rw [Text.upper_append]
    exact h.trans (List.suffix_append _ _).isInfix
  obtain ⟨i, hi⟩ := Text.exists_find?_of_infix hin
  have hle := Text.find?_add_le hi hne
  refine ⟨i, ?_, ?_⟩
  · rw [htext, Text.upper_append]
    exact Text.find?_append_of_eq_some hi
  · rcases hlength with hlength | ⟨hlength, hclause⟩
    · exact .inl (by omega)
    · rcases Nat.lt_or_eq_of_le hle with hlt | heq
      · exact .inl (by omega)
      · exact .inr ⟨by omega, hclause⟩

/-- Where a layout reads, its keywords are found behind `FROM` and in order. -/
theorem le_of_clauses {c : Clauses} (hfound : c.FoundIn l.text) (hin : c.InOrder l.text) :
    (∀ w, c.whereAt = some w → 14 ≤ w) ∧ (∀ o, c.orderAt = some o → 14 ≤ o) := by
  have hfrom := hfound.fromAt
  rw [find_from] at hfrom
  have hscope := hin.scope
  obtain ⟨f, whereAt, orderAt⟩ := c
  obtain rfl := Option.some.inj hfrom
  cases whereAt with
  | none =>
    refine ⟨nofun, ?_⟩
    rintro _ rfl
    exact hscope
  | some w =>
    have hw : 14 ≤ w := hscope
    refine ⟨?_, fun o ho => Nat.le_trans hw (hin.order w o rfl ho)⟩
    rintro _ ⟨⟩
    exact hw

/-- `ORDER BY` does not arise beside the scope of a layout that reads. -/
theorem orderWord_not_infix_spacedScope {c : Clauses} (hfound : c.FoundIn l.text) (hin : c.InOrder l.text)
    {order : Option Path} (hreads : c.ReadsOrder l.text order) (hwhere : ¬ whereWord <:+: Text.upper l.scope)
    (horder : ¬ orderWord <:+: Text.upper l.scope) : ¬ orderWord <:+: Text.upper l.spacedScope := by
  intro hspaced
  obtain ⟨hwhereAt, horderAt⟩ := le_of_clauses hfound hin
  obtain ⟨o, ho, hplace⟩ := exists_find?_of_spacedScope (by decide) hspaced
  have hcOrder : c.orderAt = some o := hfound.orderAt.symm.trans ho
  obtain ⟨hplaced, hclause⟩ := hplace.resolve_left fun hle =>
    horder (infix_scope_of_find? ho (horderAt o hcOrder) hle)
  have hend : o + 10 = 15 + l.scope.length := hplaced
  have hcWhere : Text.find? whereWord (Text.upper l.text) = none := by
    cases hw : c.whereAt with
    | none => exact hfound.whereAt.trans hw
    | some w =>
      have hle := hin.order w o hw hcOrder
      exact absurd (infix_scope_of_find? (hfound.whereAt.trans hw) (hwhereAt w hw)
        (show w + 7 ≤ 14 + l.scope.length by omega)) hwhere
  rw [Clauses.ReadsOrder, hcOrder] at hreads
  obtain ⟨path, -, hpath⟩ := hreads
  obtain ⟨scope, predicate, order⟩ := l
  cases predicate with
  | some p =>
    refine Text.find?_eq_none_iff.1 hcWhere
      ⟨Text.upper (selectWords ++ scope), Text.upper (p ++ clause orderWord order), ?_⟩
    simp [text, clause, whereWord]
  | none =>
    cases order with
    | none => cases hclause
    | some o' =>
      -- what would be the order begins with the words of the keyword
      have htext : Layout.text ⟨scope, none, some o'⟩ = selectWords ++ (scope ++ [' ']) ++ (orderWord.tail ++ o') := by
        simp [text, clause, orderWord]
      rw [hend, htext, List.drop_left' (by simp [selectWords]; omega)] at hpath
      exact Path.not_gap hpath (a := 'R') (b := ' ') (c := 'B') (by decide) (by decide) (by decide)
        ⟨['O', 'R', 'D', 'E'], ['Y', ' '] ++ o', by simp [orderWord]⟩

/-- The `WHERE` that is found in a layout that reads does not end in the scope, and what stands between it and the order
is read as a predicate. -/
theorem behind_of_find_where {c : Clauses} (hfound : c.FoundIn l.text) (hin : c.InOrder l.text)
    (horderAt : c.orderAt = l.places.orderAt) {predicate : Option Predicate} (hreads : c.ReadsPredicate l.text predicate)
    (hwhere : ¬ whereWord <:+: Text.upper l.scope) {w : Nat}
    (hw : Text.find? whereWord (Text.upper l.text) = some w) :
    ¬ w + 7 ≤ 14 + l.scope.length ∧ w + 7 ≤ l.places.orderAt.getD l.text.length ∧
      ∃ p, Predicate.parse ((selectWords ++ (l.scope ++ clause whereWord l.predicate)).drop (w + 7)) = .ok p := by
  have hwhereAt : c.whereAt = some w := hfound.whereAt.symm.trans hw
  rw [Clauses.ReadsPredicate, hwhereAt, horderAt, take_orderAt] at hreads
  obtain ⟨hle, p, -, hp⟩ := hreads
  have hlow := (le_of_clauses hfound hin).1 w hwhereAt
  exact ⟨fun hhigh => hwhere (infix_scope_of_find? hw hlow hhigh), hle, p, hp⟩

/-- `WHERE` does not arise beside the scope of a layout that reads, if the predicate could not be read with that word
in front. -/
theorem whereWord_not_infix_spacedScope {c : Clauses} (hfound : c.FoundIn l.text) (hin : c.InOrder l.text)
    (horderAt : c.orderAt = l.places.orderAt) {predicate : Option Predicate} (hreads : c.ReadsPredicate l.text predicate)
    (hwhere : ¬ whereWord <:+: Text.upper l.scope)
    (hword : ∀ p, l.predicate = some p → ∀ p', Predicate.parse (['W', 'H', 'E', 'R', 'E', ' '] ++ p) ≠ .ok p') :
    ¬ whereWord <:+: Text.upper l.spacedScope := by
  intro hspaced
  obtain ⟨w, hw, hplace⟩ := exists_find?_of_spacedScope (by decide) hspaced
  obtain ⟨hout, hle, p', hp'⟩ := behind_of_find_where hfound hin horderAt hreads hwhere hw
  obtain ⟨hplaced, hclause⟩ := hplace.resolve_left hout
  obtain ⟨scope, predicate, order⟩ := l
  have hend : w + 7 = 15 + scope.length := hplaced
  clear hplaced
  cases predicate with
  | some p =>
    have hfront : selectWords ++ (scope ++ clause whereWord (some p)) =
        selectWords ++ (scope ++ [' ']) ++ (['W', 'H', 'E', 'R', 'E', ' '] ++ p) := by
      simp [clause, whereWord]
    rw [hend, hfront, List.drop_left' (by simp [selectWords]; omega)] at hp'
    exact hword p rfl p' hp'
  | none =>
    cases order with
    | none => cases hclause
    | some o =>
      -- the keyword would end behind the place where the order is found
      have hle : w + 7 ≤ 14 + scope.length := hle
      omega

/-- **A layout that reads is clear**, if no keyword stands in its scope and the predicate could not be read with
another word in front. -/
theorem clear_of_parse {q : Query} (h : parse l.text = .ok q) (hwhere : ¬ whereWord <:+: Text.upper l.scope)
    (horder : ¬ orderWord <:+: Text.upper l.scope)
    (hpredicate : ∀ p, l.predicate = some p → ¬ orderWord <:+: Text.upper (' ' :: (p ++ [' '])))
    (hword : ∀ p, l.predicate = some p → ∀ p', Predicate.parse (['W', 'H', 'E', 'R', 'E', ' '] ++ p) ≠ .ok p') :
    l.Clear := by
  obtain ⟨c, hc, -, hreadsPredicate, hreadsOrder, -⟩ := parse_eq_ok_iff.1 h
  obtain ⟨hfound, hin⟩ := clauses_eq_ok_iff.1 hc
  have hscopeOrder := orderWord_not_infix_spacedScope hfound hin hreadsOrder hwhere horder
  -- the order is found in its place, so `WHERE` is not found before it with its own space
  have horderAt : c.orderAt = l.places.orderAt := hfound.orderAt.symm.trans (find_order hscopeOrder hpredicate)
  refine ⟨whereWord_not_infix_spacedScope hfound hin horderAt hreadsPredicate hwhere hword, hscopeOrder, hpredicate,
    fun hnone o ho hstands => ?_⟩
  have hfind : ∃ w, Text.find? whereWord (Text.upper l.text) = some w := by
    refine Text.exists_find?_of_infix (hstands.trans ?_)
    refine ⟨Text.upper (selectWords ++ (l.scope ++ orderWord.dropLast)), [], ?_⟩
    simp [text, clause, orderWord, hnone, ho]
  obtain ⟨w, hw⟩ := hfind
  obtain ⟨hout, hle, -⟩ := behind_of_find_where hfound hin horderAt hreadsPredicate hwhere hw
  simp only [places, ho, hnone, clause, Option.map_some, Option.getD_some, List.length_nil, Nat.add_zero] at hle
  exact hout hle

end Layout

/-! ## Queries that are read -/

variable {text : List Char} {q : Query}

/-- What a keyword is found behind does not have it. -/
theorem not_infix_upper_take {keyword : List Char} {n : Nat} (hne : keyword ≠ [])
    (h : ∀ i, Text.find? keyword (Text.upper text) = some i → n ≤ i) : ¬ keyword <:+: Text.upper (text.take n) := by
  rw [Text.upper, List.map_take]
  intro hin
  obtain ⟨i, hi⟩ := Text.exists_find?_of_infix (hin.trans (List.take_prefix _ _).isInfix)
  have hpos := List.length_pos_iff.2 hne
  have hle := h i hi
  exact Text.not_infix_take hne hi (by omega) hin

/-- No keyword of a later clause stands in what is read as the scope. -/
theorem Clauses.not_infix_scopeText {c : Clauses} (hfound : c.FoundIn text) (hin : c.InOrder text) :
    ¬ whereWord <:+: Text.upper (c.scopeText text) ∧ ¬ orderWord <:+: Text.upper (c.scopeText text) := by
  have hpart : c.scopeText text <:+: text.take (c.scopeEnd text) := (List.drop_suffix _ _).isInfix
  have hwhere : ∀ w, c.whereAt = some w → c.scopeEnd text = w := fun w hw => by simp [scopeEnd, hw]
  have horder : ∀ o, c.orderAt = some o → c.scopeEnd text ≤ o := by
    intro o ho
    cases hw : c.whereAt with
    | none => simp [scopeEnd, hw, ho]
    | some w => exact hwhere w hw ▸ hin.order w o hw ho
  constructor
  · refine fun hstands => not_infix_upper_take (by decide) (fun w hw => ?_) (hstands.trans (hpart.map _))
    exact Nat.le_of_eq (hwhere w (hfound.whereAt.symm.trans hw))
  · refine fun hstands => not_infix_upper_take (by decide) (fun o ho => ?_) (hstands.trans (hpart.map _))
    exact horder o (hfound.orderAt.symm.trans ho)

/-- `ORDER BY` is not in a text that the predicate compares with. -/
theorem Clauses.ReadsPredicate.not_infix_text {c : Clauses} {p : Predicate} (h : c.ReadsPredicate text (some p))
    (hfound : c.FoundIn text) {t : String} (ht : p.value = .text t) : ¬ orderWord <:+: Text.upper t.toList := by
  unfold Clauses.ReadsPredicate at h
  split at h
  · cases h
  · obtain ⟨-, _, ⟨⟩, hparse⟩ := h
    rcases Predicate.parse_cases hparse with ⟨_, -, -, hnull⟩ | ⟨_, literal, -, hliteral, hin, -⟩
    · rw [hnull] at ht
      cases ht
    · obtain ⟨inner, hinner, hwithin⟩ := (Predicate.parseLiteral_eq_ok hliteral).2 t ht
      rw [hinner, Text.upper_undoubleQuotes]
      intro hstands
      have hpart : inner <:+: text.take (c.orderAt.getD text.length) :=
        hwithin.trans (hin.trans (List.drop_suffix _ _).isInfix)
      refine not_infix_upper_take (by decide) (fun o ho => ?_)
        ((Text.infix_of_undoubleQuotes (by decide) (by decide) hstands).trans (hpart.map _))
      rw [← hfound.orderAt, ho]
      exact Nat.le_refl o

/-- What a query that is read is made of. -/
structure WellFormed (q : Query) : Prop where
  scope : Scope.parse q.scope.text.toList = .ok q.scope
  noWhere : ¬ whereWord <:+: Text.upper q.scope.text.toList
  noOrder : ¬ orderWord <:+: Text.upper q.scope.text.toList
  predicate : ∀ p, q.predicate = some p → p.WellFormed
  text : ∀ p, q.predicate = some p → ∀ t, p.value = .text t → ¬ orderWord <:+: Text.upper t.toList
  order : ∀ o, q.order = some o → Path.parse o.text.toList = .ok o

theorem wellFormed_of_parse (h : parse text = .ok q) : q.WellFormed := by
  obtain ⟨c, hc, hscope, hpredicate, horder, -⟩ := parse_eq_ok_iff.1 h
  obtain ⟨hfound, hin⟩ := clauses_eq_ok_iff.1 hc
  obtain ⟨hwhere, horderWord⟩ := c.not_infix_scopeText hfound hin
  obtain ⟨htext, hparse⟩ := Scope.text_of_parse hscope
  have hpart : Text.upper q.scope.text.toList <:+: Text.upper (c.scopeText text) := by
    rw [htext]
    exact (Text.trim_infix _).map _
  refine ⟨hparse, fun hstands => hwhere (hstands.trans hpart), fun hstands => horderWord (hstands.trans hpart),
    fun p hp => ?_, fun p hp t => ?_, fun o ho => ?_⟩
  · rw [hp, Clauses.ReadsPredicate] at hpredicate
    split at hpredicate
    · cases hpredicate
    · obtain ⟨-, _, ⟨⟩, hparse⟩ := hpredicate
      exact Predicate.wellFormed_of_parse hparse
  · exact Clauses.ReadsPredicate.not_infix_text (hp ▸ hpredicate) hfound
  · rw [ho, Clauses.ReadsOrder] at horder
    split at horder
    · cases horder
    · obtain ⟨_, ⟨⟩, hparse⟩ := horder
      exact (Path.text_of_parse hparse).2

/-! ## Their texts -/

/-- A query as it is printed. -/
def layout (q : Query) : Layout :=
  ⟨q.scope.text.toList, q.predicate.map fun p => p.display.toList, q.order.map fun o => o.text.toList⟩

theorem text_layout (q : Query) : q.layout.text = q.display.toList := by
  obtain ⟨scope, predicate, order, hint⟩ := q
  delta display
  cases predicate <;> cases order <;> simp [layout, Layout.text, Layout.clause, selectWords, whereWord, orderWord]

/-- What is printed of a query that is read has its keywords clear if it is read again. -/
theorem WellFormed.clear_of_parse {q' : Query} (h : q.WellFormed) (hq' : parse q.display.toList = .ok q') :
    q.layout.Clear := by
  rw [← text_layout] at hq'
  refine Layout.clear_of_parse hq' h.noWhere h.noOrder ?_ ?_
  · intro s hs
    obtain ⟨p, hp, rfl⟩ := Option.map_eq_some_iff.1 hs
    exact Predicate.orderWord_not_infix_display (h.predicate p hp) (h.text p hp)
  · intro s hs
    obtain ⟨p, hp, rfl⟩ := Option.map_eq_some_iff.1 hs
    exact Predicate.parse_word_display_ne_ok (h.predicate p hp)

/-- **Reading a printed query** gives the same scope and order, and what the text of the predicate reads as. -/
theorem WellFormed.parse_display_iff {q' : Query} (h : q.WellFormed) : parse q.display.toList = .ok q' ↔
    q.layout.Clear ∧ q'.scope = q.scope ∧ q'.order = q.order ∧ q'.hint = none ∧
      (q.predicate.map fun p => Predicate.parse p.display.toList) = q'.predicate.map .ok := by
  have hpredicate : q.layout.predicate.map Predicate.parse =
      q.predicate.map fun p => Predicate.parse p.display.toList := by
    rw [layout, Option.map_map]
    rfl
  have horder : q.layout.order.map Path.parse = q.order.map .ok := by
    rw [layout, Option.map_map]
    refine Option.map_congr fun o ho => ?_
    rw [Function.comp_apply, h.order o ho]
  have hparts (hclear : q.layout.Clear) : parse q.display.toList = .ok q' ↔ q'.scope = q.scope ∧
      q'.order = q.order ∧ q'.hint = none ∧
        (q.predicate.map fun p => Predicate.parse p.display.toList) = q'.predicate.map .ok := by
    rw [← text_layout, hclear.parse_eq_ok_iff, hpredicate, horder,
      (Option.map_injective fun _ _ => Except.ok.inj).eq_iff, show q.layout.scope = q.scope.text.toList from rfl,
      h.scope, Except.ok.injEq, eq_comm (a := q.scope), eq_comm (a := q.order)]
    tauto
  constructor
  · intro hq'
    have hclear := h.clear_of_parse hq'
    exact ⟨hclear, (hparts hclear).1 hq'⟩
  · exact fun ⟨hclear, hrest⟩ => (hparts hclear).2 hrest

/-- Two queries that select the same tuples in the same order: the canonical scope, what the predicate compares with
what, and what the order is by. -/
structure Agrees (q q' : Query) : Prop where
  scope : q'.scope.shape = q.scope.shape
  predicate : (q'.predicate.map fun p => (q'.scope.resolve p.path, p.comparison, p.probe)) =
    q.predicate.map fun p => (q.scope.resolve p.path, p.comparison, p.probe)
  order : q'.order.map q'.scope.resolve = q.order.map q.scope.resolve

/-- Another value for the predicate makes no difference exactly if it has the same key. -/
theorem agrees_value_iff {scope : Scope} {p : Predicate} {v : Value} {order : Option Path}
    {hint hint' : Option String} :
    Agrees ⟨scope, some p, order, hint⟩ ⟨scope, some { p with value := v }, order, hint'⟩ ↔
      Key.ofValue v = Key.ofValue p.value := by
  constructor
  · intro h
    have hprobe := h.predicate
    simp only [Option.map_some, Option.some.injEq, Prod.mk.injEq, true_and] at hprobe
    exact hprobe
  · intro h
    refine ⟨rfl, ?_, rfl⟩
    simp only [Option.map_some, Option.some.injEq, Prod.mk.injEq, true_and]
    exact h

/-- **A query that is printed and read again.** It is read at all exactly if its keywords stand clear and `IS` is not
the second word of the predicate's path, and it is then the same query exactly if the text of the predicate's value
writes that value. -/
theorem parse_display (h : parse text = .ok q) :
    ((∃ q', parse q.display.toList = .ok q') ↔
      q.layout.Clear ∧ ∀ p, q.predicate = some p → ¬ Predicate.IsForm p.path.text.toList) ∧
    ∀ q', parse q.display.toList = .ok q' → (q.Agrees q' ↔ ∀ p, q.predicate = some p → p.value.Reprints) := by
  have hformed := wellFormed_of_parse h
  simp only [hformed.parse_display_iff]
  obtain ⟨scope, predicate, order, hint⟩ := q
  cases predicate with
  | none =>
    refine ⟨⟨fun ⟨_, hclear, _⟩ => ⟨hclear, nofun⟩, fun ⟨hclear, _⟩ =>
      ⟨⟨scope, none, order, none⟩, hclear, rfl, rfl, rfl, rfl⟩⟩, ?_⟩
    rintro ⟨_, predicate', _, _⟩ ⟨-, rfl, rfl, rfl, hpredicate⟩
    obtain rfl : predicate' = none := Option.map_eq_none_iff.1 hpredicate.symm
    exact iff_of_true ⟨rfl, rfl, rfl⟩ nofun
  | some p =>
    have hp := hformed.predicate p rfl
    obtain ⟨v, hv, hkey⟩ := Value.parseLiteral_display hp.value
    have hread (p' : Predicate) : Predicate.parse p.display.toList = .ok p' ↔
        ¬ Predicate.IsForm p.path.text.toList ∧ p' = { p with value := v } := Predicate.parse_display_iff hp hv
    constructor
    · constructor
      · rintro ⟨q', hclear, -, -, -, hpredicate⟩
        obtain ⟨p', -, hp'⟩ := Option.map_eq_some_iff.1 hpredicate.symm
        refine ⟨hclear, ?_⟩
        rintro _ ⟨⟩
        exact ((hread p').1 hp'.symm).1
      · rintro ⟨hclear, his⟩
        have hp' := (hread { p with value := v }).2 ⟨his p rfl, rfl⟩
        exact ⟨⟨scope, some { p with value := v }, order, none⟩, hclear, rfl, rfl, rfl, congrArg some hp'⟩
    · rintro ⟨_, predicate', _, _⟩ ⟨-, rfl, rfl, rfl, hpredicate⟩
      obtain ⟨p', rfl, hp'⟩ := Option.map_eq_some_iff.1 hpredicate.symm
      obtain ⟨-, rfl⟩ := (hread p').1 hp'.symm
      rw [agrees_value_iff, hkey]
      simp

/-- A query that is read, of which the text that is printed gives another one: quotes in a text are not doubled. -/
theorem parse_display_quotes :
    ∃ q, parse "SELECT * FROM /r r WHERE r.x = 'a''''b' ORDER BY r.y".toList = .ok q ∧
      (∃ q', parse q.display.toList = .ok q') ∧ ∀ q', parse q.display.toList = .ok q' → ¬ q.Agrees q' := by
  have h : parse "SELECT * FROM /r r WHERE r.x = 'a''''b' ORDER BY r.y".toList = .ok
      ⟨⟨"/r r", "/r", [⟨some "r", none⟩]⟩, some ⟨⟨"r.x", ["r", "x"]⟩, .eq, .text "a''b"⟩,
        some ⟨"r.y", ["r", "y"]⟩, none⟩ := rfl
  refine ⟨_, h, (parse_display h).1.2 ⟨⟨?_, ?_, ?_, nofun⟩, ?_⟩, fun q' hq' hagrees => ?_⟩
  · decide +kernel
  · decide +kernel
  · rintro _ ⟨⟩
    decide +kernel
  · rintro _ ⟨⟩
    exact Predicate.not_isForm_of_singleton (show Text.words "r.x".toList = ["r.x".toList] from rfl)
  · exact ((parse_display h).2 q' hq').1 hagrees _ rfl (by decide +kernel)

end Query

end IndexedStore
