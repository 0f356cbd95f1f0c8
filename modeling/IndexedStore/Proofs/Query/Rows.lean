import IndexedStore.Query.Execution
import IndexedStore.Proofs.Index.Projection

/-!
# Rows and the slots that answer for them

A query checks the tuples of an entry one by one, an index projects them all or gives the entry up. So an
entry with a row has, in a covering index on the predicate's path, a tuple whose slot satisfies the
comparison with the probe, and the projection can fail only at another of its tuples.
-/

namespace IndexedStore

namespace Query

theorem makeFilter_spec {q : Query} {p : Predicate} (hp : q.predicate = some p) {f : Filter}
    (hf : q.makeFilter = .ok f) :
    f.predicate = some (p, q.scope.resolve p.path, f.probe) ∧ p.probe = .ok f.probe ∧
      f.order = q.order.map q.scope.resolve := by
  unfold makeFilter at hf
  simp only [hp] at hf
  cases hprobe : p.probe with
  | error fault => simp [hprobe, Except.map] at hf
  | ok probe =>
    simp only [hprobe, Except.map, Except.ok.injEq] at hf
    subst hf
    exact ⟨rfl, rfl, rfl⟩

end Query

namespace Predicate

/-- A tuple satisfies a predicate exactly when it has a slot of which the comparison holds. -/
theorem holds_iff_slot {p : Predicate} {locator : Locator} {probe : Option Key} {tuple : List Value} :
    p.holds locator probe tuple = true ↔
      ∃ slot, Index.slotOf locator tuple = .ok slot ∧ p.comparison.holds slot.key? probe = true := by
  unfold holds Index.slotOf
  cases locator.eval tuple with
  | error fault => simp
  | ok v => cases hk : Key.ofValue v <;> simp [hk, Except.map]

end Predicate

namespace Filter

/-- An entry has rows exactly when its scope is iterated to its end and some tuple is let through. -/
theorem rowsOf_ne_nil {f : Filter} {scope : Scope} {key : Key} {v : Value} :
    f.rowsOf scope key v ≠ [] ↔
      (scope.tuples v).fault = none ∧ ∃ u ∈ (scope.tuples v).tuples, f.holds u = true := by
  unfold rowsOf
  cases hf : (scope.tuples v).fault with
  | some fault => simp [hf]
  | none => simp [hf]

/-- The rows of an entry have its key and its value. -/
theorem mem_rowsOf {f : Filter} {scope : Scope} {key : Key} {v : Value} {row : Row}
    (h : row ∈ f.rowsOf scope key v) : row.key = key ∧ row.value = v := by
  simp only [rowsOf] at h
  split at h
  · cases h
  · obtain ⟨u, _, rfl⟩ := List.mem_map.1 h
    exact ⟨rfl, rfl⟩

end Filter

theorem Index.covers_eq_ok_iff {ix : Index} {scope : Scope} {coverage : Coverage} :
    ix.covers scope = .ok coverage ↔ ix.compiled.scope.coverage? scope = some coverage := by
  unfold covers
  cases ix.compiled.scope.coverage? scope <;> simp

variable {text : List Char} {q : Query} {p : Predicate} {f : Filter} {d : IndexDefinition} {ix : Index}
  {coverage : Coverage} {key : Key} {v : Value}

/-- The tuple that makes a row has its beginning among those of a covering index on the predicate's path,
with a slot that satisfies the comparison. -/
theorem Index.slot_of_row (hd : d.compile = .ok ix.compiled) (hq : Scope.parse text = .ok q.scope)
    (hc : ix.covers q.scope = .ok coverage) (hl : ix.indexesPath q.scope p.path = true)
    (hp : q.predicate = some p) (hf : q.makeFilter = .ok f) (hrows : f.rowsOf q.scope key v ≠ []) :
    (ix.compiled.scope.tuples v).fault = none ∧ ∃ t ∈ (ix.compiled.scope.tuples v).tuples, ∃ slot,
      slotOf ix.compiled.locator t = .ok slot ∧ p.comparison.holds slot.key? f.probe = true := by
  obtain ⟨-, hindex, hlocator⟩ := IndexDefinition.compile_spec hd
  obtain ⟨hend, u, hu, hholds⟩ := Filter.rowsOf_ne_nil.1 hrows
  obtain ⟨hfault, hext⟩ :=
    Scope.coverage_sound hindex (Scope.parse_wellScoped hq) (Index.covers_eq_ok_iff.1 hc) hend
  obtain ⟨t, ht, hpre, hlen⟩ := hext u hu
  obtain ⟨hpred, -, -⟩ := Query.makeFilter_spec hp hf
  simp only [Filter.holds, hpred] at hholds
  have hresolve : q.scope.resolve p.path = ix.compiled.locator := by simpa [indexesPath] using hl
  obtain ⟨slot, hslot, hcmp⟩ := Predicate.holds_iff_slot.1 hholds
  refine ⟨hfault, t, ht, slot, ?_, hcmp⟩
  -- the locator starts inside the index's tuple, so it gives the same there
  have hin : ix.compiled.locator.iterator < t.length := by
    rw [hlen, hlocator]
    exact hindex.resolve_lt _
  rw [hresolve, slotOf, Locator.eval_prefix hpre hin] at hslot
  exact hslot

/-- **An entry with a row is in a covering index under a slot that satisfies the comparison, unless the
index gives the entry up for the sake of another of its tuples.** An index over the region's values
themselves, which have one tuple each, never does. -/
theorem Index.project_of_row (hd : d.compile = .ok ix.compiled) (hq : Scope.parse text = .ok q.scope)
    (hc : ix.covers q.scope = .ok coverage) (hl : ix.indexesPath q.scope p.path = true)
    (hp : q.predicate = some p) (hf : q.makeFilter = .ok f) (hrows : f.rowsOf q.scope key v ≠ []) :
    (ix.compiled.scope.tuples v).fault = none ∧ (∃ t ∈ (ix.compiled.scope.tuples v).tuples, ∃ slot,
      slotOf ix.compiled.locator t = .ok slot ∧ p.comparison.holds slot.key? f.probe = true ∧
        match ix.project v with
        | .ok slots => slot ∈ slots
        | .error fault => ∃ other ∈ (ix.compiled.scope.tuples v).tuples, other ≠ t ∧
            slotOf ix.compiled.locator other = .error fault) ∧
      (ix.compiled.scope.iterators.length = 1 → ∃ slots, ix.project v = .ok slots) := by
  obtain ⟨hfault, t, ht, slot, hslot, hcmp⟩ := Index.slot_of_row hd hq hc hl hp hf hrows
  refine ⟨hfault, ⟨t, ht, slot, hslot, hcmp, ?_⟩, ?_⟩
  · cases hproj : ix.project v with
    | ok slots =>
      obtain ⟨slot', hmem, hslot'⟩ := slot_of_tuple (slotsOfValue_eq_ok_iff.1 hproj).2 ht
      rw [hslot] at hslot'
      exact Except.ok.inj hslot' ▸ hmem
    | error fault =>
      have herr : slotsOf ix.compiled.locator (ix.compiled.scope.tuples v).tuples = .error fault := by
        unfold project slotsOfValue at hproj
        simp only [hfault] at hproj
        split at hproj <;> simp_all
      obtain ⟨other, hother, he⟩ := slotsOf_eq_error herr
      refine ⟨other, hother, ?_, he⟩
      rintro rfl
      rw [hslot] at he
      cases he
  · intro hone
    have htuples : (ix.compiled.scope.tuples v).tuples = [[v]] := by
      have hnil : ix.compiled.scope.iterators.tail = [] := by
        rw [← List.length_eq_zero_iff, List.length_tail, hone]
      rw [Scope.tuples, hnil, Scope.tuplesFrom]
    refine ⟨[slot], slotsOfValue_eq_ok_iff.2 ⟨hfault, ?_⟩⟩
    rw [htuples] at ht ⊢
    obtain rfl := List.mem_singleton.1 ht
    simp [slotsOf, hslot, Except.map]

/-! ## A list of a number and a map

A map has no key, so an index over the elements gives the whole list up, while a query for the number
finds it.
-/

def elementsDefinition : IndexDefinition := ⟨"elements", .range, "x", "/r p, p.xs x"⟩

def elementsScope : Scope := ⟨"/r p, p.xs x", "/r", [⟨some "p", none⟩, ⟨some "x", some ⟨0, ["xs"]⟩⟩]⟩

def elementsIndex : Index := .new ⟨elementsDefinition, elementsScope, ⟨"x", ["x"]⟩, ⟨1, []⟩⟩ default 1

def numberAndMap : Value := .map [("xs", .list [.integer 1, .map []])]

def onesPredicate : Predicate := ⟨⟨"x", ["x"]⟩, .eq, .integer 1⟩

def onesQuery : Query := ⟨elementsScope, some onesPredicate, none, none⟩

def onesFilter : Filter := ⟨some (onesPredicate, ⟨1, []⟩, some (.int 1)), none⟩

theorem rowsOf_numberAndMap (key : Key) :
    onesFilter.rowsOf elementsScope key numberAndMap = [⟨key, numberAndMap, none⟩] := rfl

theorem project_numberAndMap : elementsIndex.project numberAndMap = .error .mapAsKey := rfl

theorem Index.project_of_row_numberAndMap :
    (elementsIndex.compiled.scope.tuples numberAndMap).fault = none ∧
      ∃ t ∈ (elementsIndex.compiled.scope.tuples numberAndMap).tuples, ∃ slot,
        slotOf elementsIndex.compiled.locator t = .ok slot ∧
          Comparison.eq.holds slot.key? (some (.int 1)) = true := by
  have hrows : onesFilter.rowsOf onesQuery.scope (.int 1) numberAndMap ≠ [] := by
    rw [show onesQuery.scope = elementsScope from rfl, rowsOf_numberAndMap]
    simp
  have hd : elementsDefinition.compile = .ok elementsIndex.compiled := rfl
  have hq : Scope.parse "/r p, p.xs x".toList = .ok onesQuery.scope := rfl
  have hc : elementsIndex.covers onesQuery.scope = .ok .exact := rfl
  have hall := project_of_row hd hq hc (p := onesPredicate) rfl rfl rfl hrows
  obtain ⟨hfault, ⟨t, ht, slot, hslot, hcmp, -⟩, -⟩ := hall
  exact ⟨hfault, t, ht, slot, hslot, hcmp⟩

/-- A row does not entail that the projection succeeds. -/
theorem Index.row_without_projection :
    ¬ ∀ (d : IndexDefinition) (ix : Index) (text : List Char) (q : Query) (p : Predicate) (f : Filter)
      (coverage : Coverage) (key : Key) (v : Value), d.compile = .ok ix.compiled →
      Scope.parse text = .ok q.scope → ix.covers q.scope = .ok coverage →
      ix.indexesPath q.scope p.path = true → q.predicate = some p → q.makeFilter = .ok f →
      f.rowsOf q.scope key v ≠ [] →
      ∃ slots, ix.project v = .ok slots ∧
        ∃ slot ∈ slots, p.comparison.holds slot.key? f.probe = true := by
  intro hproject
  have hrows : onesFilter.rowsOf onesQuery.scope (.int 1) numberAndMap ≠ [] := by
    rw [show onesQuery.scope = elementsScope from rfl, rowsOf_numberAndMap]
    simp
  obtain ⟨slots, hslots, -⟩ := hproject elementsDefinition elementsIndex "/r p, p.xs x".toList onesQuery
    onesPredicate onesFilter .exact (.int 1) numberAndMap rfl rfl rfl rfl rfl rfl hrows
  rw [project_numberAndMap] at hslots
  cases hslots

end IndexedStore
