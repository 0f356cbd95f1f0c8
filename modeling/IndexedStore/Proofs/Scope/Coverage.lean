import IndexedStore.Proofs.Scope.Continuation
import IndexedStore.Proofs.Scope.Parsed
import Mathlib.Data.List.Basic

/-!
# Coverage and tuples

Where the scope of an index covers that of a query, the query's visit of a region value is the index's
continued by the iterators that only the query has (`tuples_of_coverage`). So the query fails wherever the
index does, each tuple of the query extends one of the index (`coverage_sound`), and the query's tuples cut
short are those of the index in the same order, each as often as it is continued; where the scopes match
exactly both visits are the same (`visit_of_coverage`). A locator of the index gives on both the same.
-/

namespace IndexedStore

/-- A locator gives on a longer tuple what it gives on a beginning that its iterator is in. -/
theorem Locator.eval_prefix {l : Locator} {t u : List Value} (h : t <+: u) (hl : l.iterator < t.length) :
    l.eval u = l.eval t := by
  obtain ⟨more, rfl⟩ := h
  simp [eval, List.getElem?_append_left hl]

namespace Scope

theorem nested_collections {start : Nat} {its : List ScopeIterator} (h : Nested start its) :
    its.map (·.collection) = (its.filterMap (·.collection)).map some := by
  induction its generalizing start with
  | nil => rfl
  | cons it rest ih =>
    obtain ⟨⟨c, hc, -⟩, hrest⟩ := h
    simp [hc, ih hrest]

/-- The iterators of a covering scope are the first of the query's, apart from aliases. -/
theorem coverage_prefix {index query : Scope} (hi : index.WellScoped) (hq : query.WellScoped)
    {coverage : Coverage} (hc : index.coverage? query = some coverage) :
    ∃ first more, query.iterators.tail = first ++ more ∧
      index.iterators.tail.map (·.collection) = first.map (·.collection) := by
  obtain ⟨_, rest, hits, hn⟩ := hi
  obtain ⟨_, rest', hits', hn'⟩ := hq
  simp only [coverage?, Option.ite_none_right_eq_some] at hc
  have hpre : rest.filterMap (·.collection) <+: rest'.filterMap (·.collection) := by
    simpa [shape, hits, hits'] using hc.1.2
  have hmap : rest.map (·.collection) <+: rest'.map (·.collection) := by
    rw [nested_collections hn, nested_collections hn']
    exact hpre.map some
  refine ⟨rest'.take rest.length, rest'.drop rest.length, by simp [hits'], ?_⟩
  have := List.prefix_iff_eq_take.1 hmap
  simpa [hits, List.map_take] using this

/-- The shape of a scope that was read has a collection for each nested iterator. -/
theorem WellScoped.length_collections {s : Scope} (h : s.WellScoped) :
    s.shape.collections.length = s.iterators.tail.length := by
  obtain ⟨_, rest, hits, hn⟩ := h
  have hlen := congrArg List.length (nested_collections hn)
  rw [List.length_map, List.length_map] at hlen
  rw [shape, hits, List.filterMap_cons_none rfl, List.tail_cons, hlen]

/-- Scopes that match exactly have as many iterators. -/
theorem length_of_exact {index query : Scope} (hi : index.WellScoped) (hq : query.WellScoped)
    (hc : index.coverage? query = some .exact) : index.iterators.tail.length = query.iterators.tail.length := by
  rw [← hi.length_collections, ← hq.length_collections]
  simp only [coverage?, Option.ite_none_right_eq_some, Option.some.injEq] at hc
  obtain ⟨-, hlen⟩ := hc
  split at hlen
  · assumption
  · cases hlen

/-- The query's visit is the index's, continued by the iterators that only the query has. -/
theorem tuples_of_coverage {index query : Scope} (hi : index.WellScoped) (hq : query.WellScoped)
    {coverage : Coverage} (hc : index.coverage? query = some coverage) :
    ∃ more, (coverage = .exact → more = []) ∧
      ∀ v, query.tuples v = (index.tuples v).continued (tuplesFrom more) := by
  obtain ⟨first, more, htail, hmap⟩ := coverage_prefix hi hq hc
  refine ⟨more, ?_, fun v => ?_⟩
  · rintro rfl
    have hlen := length_of_exact hi hq hc
    have hfirst := congrArg List.length hmap
    rw [htail, List.length_append] at hlen
    rw [List.length_map, List.length_map] at hfirst
    exact List.eq_nil_of_length_eq_zero (by omega)
  · have hsame : index.tuples v = tuplesFrom first [v] := tuplesFrom_congr hmap [v]
    rw [hsame, tuples, htail, tuplesFrom_append_eq]

/-- The tuples of a visit that came to its end have an element for each iterator. -/
theorem WellScoped.length_tuple {s : Scope} (h : s.WellScoped) {v : Value} (hv : (s.tuples v).fault = none)
    {t : List Value} (ht : t ∈ (s.tuples v).tuples) : t.length = s.iterators.length := by
  obtain ⟨name, rest, hits, -⟩ := h
  rw [(tuplesFrom_extends hv ht).2, hits]
  simp [Nat.add_comm]

/-- **Where a query's visit of a value comes to its end, so does that of a covering index, and each of the
query's tuples continues one of the index.** -/
theorem coverage_sound {index query : Scope} (hi : index.WellScoped) (hq : query.WellScoped)
    {coverage : Coverage} (hc : index.coverage? query = some coverage) {v : Value}
    (hv : (query.tuples v).fault = none) :
    (index.tuples v).fault = none ∧ ∀ u ∈ (query.tuples v).tuples, ∃ t ∈ (index.tuples v).tuples,
      t <+: u ∧ t.length = index.iterators.length := by
  obtain ⟨more, -, hquery⟩ := tuples_of_coverage hi hq hc
  rw [hquery v] at hv ⊢
  obtain ⟨hfurther, hindex⟩ := (Visit.fault_continued _ _).1 hv
  refine ⟨hindex, fun u hu => ?_⟩
  rw [Visit.tuples_continued _ hv] at hu
  obtain ⟨t, ht, hu⟩ := List.mem_flatMap.1 hu
  exact ⟨t, ht, (tuplesFrom_extends (hfurther t ht) hu).1, hi.length_tuple hindex ht⟩

/-- **What a covering index visits of a value, against what the query visits of it.** Where the index's visit
fails, so does the query's. Where the query's comes to its end, its tuples, cut to the iterators of the index,
are the index's tuples in their order, each as many times as the query continues it, and a path that both
scopes resolve alike gives on each tuple of the query what it gives on that tuple cut. Scopes that match exactly
visit the same. -/
theorem visit_of_coverage {indexText queryText : List Char} {index query : Scope}
    (hi : parse indexText = .ok index) (hq : parse queryText = .ok query) {coverage : Coverage}
    (hc : index.coverage? query = some coverage) (v : Value) :
    ((index.tuples v).fault ≠ none → (query.tuples v).fault ≠ none) ∧
      ((query.tuples v).fault = none →
        (∃ times : List Value → Nat, (query.tuples v).tuples.map (·.take index.iterators.length) =
          (index.tuples v).tuples.flatMap fun t => List.replicate (times t) t) ∧
        ∀ path : Path, index.resolve path = query.resolve path → ∀ u ∈ (query.tuples v).tuples,
          (index.resolve path).eval (u.take index.iterators.length) = (query.resolve path).eval u) ∧
      (coverage = .exact → index.tuples v = query.tuples v) := by
  have hiw := parse_wellScoped hi
  obtain ⟨more, hexact, hquery⟩ := tuples_of_coverage hiw (parse_wellScoped hq) hc
  rw [hquery v]
  refine ⟨?_, fun hfault => ?_, ?_⟩
  · intro hindex hnone
    exact hindex ((Visit.fault_continued _ _).1 hnone).2
  · obtain ⟨hfurther, hindex⟩ := (Visit.fault_continued _ _).1 hfault
    rw [Visit.tuples_continued _ hfault]
    have hcut : ∀ t ∈ (index.tuples v).tuples, ∀ u ∈ (tuplesFrom more t).tuples,
        u.take index.iterators.length = t := by
      intro t ht u hu
      rw [← hiw.length_tuple hindex ht]
      exact (List.prefix_iff_eq_take.1 (tuplesFrom_extends (hfurther t ht) hu).1).symm
    refine ⟨⟨fun t => (tuplesFrom more t).tuples.length, ?_⟩, ?_⟩
    · rw [List.map_flatMap]
      refine List.flatMap_congr fun t ht => List.eq_replicate_iff.2 ⟨List.length_map _, ?_⟩
      intro c hc
      obtain ⟨u, hu, rfl⟩ := List.mem_map.1 hc
      exact hcut t ht u hu
    · intro path hpath u hu
      obtain ⟨t, ht, hu⟩ := List.mem_flatMap.1 hu
      rw [hcut t ht u hu, ← hpath]
      refine (Locator.eval_prefix (tuplesFrom_extends (hfurther t ht) hu).1 ?_).symm
      rw [hiw.length_tuple hindex ht]
      exact hiw.resolve_lt path
  · intro he
    rw [hexact he]
    exact ((index.tuples v).continued_self).symm

/-- A book of two pages, of which the first has two lines. -/
def book : Value := .map [("pages", .list
  [.map [("lines", .list [.text "a", .text "b"]), ("number", .integer 1)],
    .map [("lines", .list [.text "c"]), ("number", .integer 2)]])]

def pagesOfBooks : Scope :=
  ⟨"/books b, b.pages p", "/books", [⟨some "b", none⟩, ⟨some "p", some ⟨0, ["pages"]⟩⟩]⟩

def linesOfBooks : Scope := ⟨"/books b, pages p, p.lines", "/books",
  [⟨some "b", none⟩, ⟨some "p", some ⟨0, ["pages"]⟩⟩, ⟨none, some ⟨1, ["lines"]⟩⟩]⟩

theorem visit_of_coverage_book :
    pagesOfBooks.coverage? linesOfBooks = some .compatible ∧ (linesOfBooks.tuples book).fault = none ∧
      (linesOfBooks.tuples book).tuples.length = 3 ∧
      (∃ times : List Value → Nat, (linesOfBooks.tuples book).tuples.map (·.take 2) =
        (pagesOfBooks.tuples book).tuples.flatMap fun t => List.replicate (times t) t) ∧
      ∀ u ∈ (linesOfBooks.tuples book).tuples,
        (pagesOfBooks.resolve ⟨"p.number", ["p", "number"]⟩).eval (u.take 2) =
          (linesOfBooks.resolve ⟨"p.number", ["p", "number"]⟩).eval u := by
  have hi : parse "/books b, b.pages p".toList = .ok pagesOfBooks := rfl
  have hq : parse "/books b, pages p, p.lines".toList = .ok linesOfBooks := rfl
  have hc : pagesOfBooks.coverage? linesOfBooks = some .compatible := rfl
  obtain ⟨-, hvisit, -⟩ := visit_of_coverage hi hq hc book
  obtain ⟨htimes, heval⟩ := hvisit rfl
  exact ⟨hc, rfl, rfl, htimes, heval _ rfl⟩

end Scope

end IndexedStore
