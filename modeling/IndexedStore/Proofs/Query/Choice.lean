import IndexedStore.Proofs.Query.Agreement
import IndexedStore.Proofs.Region.Definitions
import Mathlib.Data.Prod.Lex

/-!
# The choice of an index

Which index a plan is through: the least of the published ones that qualify, by `Predicate.precedence`. The search of
`IndexManager::choose_index` goes once through the published indexes and keeps the better of two by a number that
packs coverage and kind together (`Registry.foldl_better_split`), which is the same as comparing them one after the
other (`Registry.precedence_le_iff`). What a hint accepts is checked on a path of its own, against the same
conditions.

An index keeps its definition for good, so a plan fits its index whenever it is executed: the errors of an execution
are those of reading, of a removed index and of improper bounds (`QueryHost.execute_error`).
-/

namespace IndexedStore

/-- The index can answer the predicate of a query, and is an ordered one if look-ups have to come back in
order. -/
structure Index.Qualifies (ix : Index) (q : Query) (p : Predicate) (ordered : Bool) (coverage : Coverage) :
    Prop where
  answers : ix.Answers q p coverage
  range : ordered = true → ix.kind = .range

/-- Owners of a value before hashes, and hashes before trees. -/
def IndexKind.preference : IndexKind → Nat
  | .primaryKey => 0
  | .hash => 1
  | .range => 2

/-- What decides between indexes that qualify, the least being the best: whether the scopes are the same, then,
for an equality in any order, the kind, then the place among the published indexes. -/
def Predicate.precedence (p : Predicate) (ordered : Bool) (coverage : Coverage) (kind : IndexKind)
    (place : Nat) : ℕ ×ₗ ℕ ×ₗ ℕ :=
  let byKind := ordered = false ∧ (p.comparison = .eq ∨ p.comparison = .isUndefined)
  toLex (if coverage = .exact then 0 else 1, toLex (if byKind then kind.preference else 0, place))

namespace Registry

/-- A published index that qualifies, and none that does precedes it. -/
structure Best (g : Registry) (q : Query) (p : Predicate) (ordered : Bool) (place : Nat) (id : IndexId)
    (ix : Index) (coverage : Coverage) : Prop where
  published : g.publishedIndexes[place]? = some (id, ix)
  qualifies : ix.Qualifies q p ordered coverage
  least : ∀ place' id' ix' coverage', g.publishedIndexes[place']? = some (id', ix') →
    ix'.Qualifies q p ordered coverage' →
      p.precedence ordered coverage ix.kind place ≤ p.precedence ordered coverage' ix'.kind place'

variable {g : Registry} {q : Query} {p : Predicate} {ordered : Bool} {id : IndexId} {ix : Index}
  {coverage : Coverage}

theorem suitability?_eq_some_iff :
    suitability? q.scope p.path ⟨p.comparison, ordered⟩ ix = some coverage ↔ ix.Qualifies q p ordered coverage := by
  have hordered : (ordered = true → ix.kind.isOrdered = true) ↔ (ordered = true → ix.kind = .range) := by
    cases ix.kind <;> simp [IndexKind.isOrdered]
  unfold suitability?
  rw [Option.ite_none_right_eq_some]
  constructor
  · rintro ⟨⟨hsupports, hkind, hpath⟩, hcovers⟩
    exact ⟨⟨Index.covers_eq_ok_iff.2 hcovers, hpath, hsupports⟩, hordered.1 hkind⟩
  · rintro ⟨⟨hcovers, hpath, hsupports⟩, hkind⟩
    exact ⟨⟨hsupports, hordered.2 hkind, hpath⟩, Index.covers_eq_ok_iff.1 hcovers⟩

/-! ## The search -/

/-- What candidates are compared by. -/
def score (need : Requirement) (c : IndexId × Index × Coverage) : Nat :=
  3 * c.2.2.rank + need.kindRank c.2.1.kind

theorem better_eq (need : Requirement) (a b : IndexId × Index × Coverage) :
    better need a b = if score need b < score need a then b else a := rfl

/-- The search finds the first candidate of the least score. -/
theorem foldl_better_split (need : Requirement) (first : IndexId × Index × Coverage)
    (rest : List (IndexId × Index × Coverage)) : ∃ before after,
      first :: rest = before ++ rest.foldl (better need) first :: after ∧
        (∀ c ∈ before, score need (rest.foldl (better need) first) < score need c) ∧
        ∀ c ∈ after, score need (rest.foldl (better need) first) ≤ score need c := by
  induction rest generalizing first with
  | nil => exact ⟨[], [], rfl, by simp, by simp⟩
  | cons c rest ih =>
    rw [List.foldl_cons]
    obtain ⟨before, after, hsplit, hbefore, hafter⟩ := ih (better need first c)
    generalize rest.foldl (better need) (better need first c) = best at *
    rw [better_eq] at hsplit
    split at hsplit
    · -- the next candidate takes over, so the best is no worse than that one
      rename_i hlt
      have hle : score need best ≤ score need c := by
        have hmem : c ∈ before ++ best :: after := hsplit ▸ List.mem_cons_self
        rcases List.mem_append.1 hmem with hin | hin
        · exact Nat.le_of_lt (hbefore c hin)
        · rcases List.mem_cons.1 hin with rfl | hin
          · exact Nat.le_refl _
          · exact hafter c hin
      refine ⟨first :: before, after, by rw [hsplit]; rfl, ?_, hafter⟩
      exact List.forall_mem_cons.2 ⟨Nat.lt_of_le_of_lt hle hlt, hbefore⟩
    · rename_i hnot
      have hle := Nat.not_lt.1 hnot
      cases before with
      | nil =>
        obtain ⟨rfl, rfl⟩ := List.cons.inj hsplit
        exact ⟨[], c :: rest, rfl, by simp, List.forall_mem_cons.2 ⟨hle, hafter⟩⟩
      | cons b before =>
        obtain ⟨rfl, rfl⟩ := List.cons.inj hsplit
        obtain ⟨hfirst, hbefore⟩ := List.forall_mem_cons.1 hbefore
        exact ⟨first :: c :: before, after, rfl,
          List.forall_mem_cons.2 ⟨hfirst, List.forall_mem_cons.2 ⟨Nat.lt_of_lt_of_le hfirst hle, hbefore⟩⟩, hafter⟩

/-- Comparing scores, and then places, is comparing coverage, kind and place one after another. -/
theorem precedence_le_iff (id id' : IndexId) {ix' : Index} {coverage' : Coverage} {place place' : Nat} :
    p.precedence ordered coverage ix.kind place ≤ p.precedence ordered coverage' ix'.kind place' ↔
      score ⟨p.comparison, ordered⟩ (id, ix, coverage) < score ⟨p.comparison, ordered⟩ (id', ix', coverage') ∨
        score ⟨p.comparison, ordered⟩ (id, ix, coverage) = score ⟨p.comparison, ordered⟩ (id', ix', coverage') ∧
          place ≤ place' := by
  have hkind : ∀ kind : IndexKind, Requirement.kindRank ⟨p.comparison, ordered⟩ kind =
      if ordered = false ∧ (p.comparison = .eq ∨ p.comparison = .isUndefined) then kind.preference else 0 := by
    intro kind
    cases ordered <;> cases p.comparison <;> cases kind <;> rfl
  have hthree : ∀ kind : IndexKind, kind.preference < 3 := by
    intro kind
    cases kind <;> decide
  have hrank : ∀ c : Coverage, (if c = .exact then 0 else 1) = c.rank := by
    intro c
    cases c <;> rfl
  have h := hthree ix.kind
  have h' := hthree ix'.kind
  simp only [Predicate.precedence, score, hkind, hrank, Prod.Lex.toLex_le_toLex]
  split <;> omega

/-- What is chosen among the published indexes: those before it that qualify have greater scores, and those after
it no less. -/
theorem split_of_choose? (h : g.choose? q.scope p.path ⟨p.comparison, ordered⟩ = some (id, ix, coverage)) :
    ix.Qualifies q p ordered coverage ∧ ∃ older younger, g.publishedIndexes = older ++ (id, ix) :: younger ∧
      (∀ id' ix' coverage', (id', ix') ∈ older → ix'.Qualifies q p ordered coverage' →
        score ⟨p.comparison, ordered⟩ (id, ix, coverage) < score ⟨p.comparison, ordered⟩ (id', ix', coverage')) ∧
      ∀ id' ix' coverage', (id', ix') ∈ younger → ix'.Qualifies q p ordered coverage' →
        score ⟨p.comparison, ordered⟩ (id, ix, coverage) ≤ score ⟨p.comparison, ordered⟩ (id', ix', coverage') := by
  unfold choose? at h
  simp only at h
  split at h
  · cases h
  · rename_i first rest hall
    have hscored : ∀ {id' : IndexId} {ix' : Index} {coverage' : Coverage}, ix'.Qualifies q p ordered coverage' →
        (suitability? q.scope p.path ⟨p.comparison, ordered⟩ ix').map (id', ix', ·) = some (id', ix', coverage') := by
      intro id' ix' coverage' hqualifies
      rw [suitability?_eq_some_iff.2 hqualifies]
      rfl
    obtain ⟨before, after, hsplit, hbefore, hafter⟩ := foldl_better_split ⟨p.comparison, ordered⟩ first rest
    rw [Option.some.inj h] at hsplit hbefore hafter
    rw [hsplit, List.filterMap_eq_append_iff] at hall
    obtain ⟨older, younger, hpub, holder, hyounger⟩ := hall
    rw [List.filterMap_eq_cons_iff] at hyounger
    obtain ⟨passed, ⟨id₀, ix₀⟩, behind, rfl, hpassed, hchosen, hbehind⟩ := hyounger
    obtain ⟨coverage₀, hcoverage, heq⟩ := Option.map_eq_some_iff.1 hchosen
    cases heq
    refine ⟨suitability?_eq_some_iff.1 hcoverage, older ++ passed, behind, by rw [hpub, List.append_assoc], ?_, ?_⟩
    · intro id' ix' coverage' hin hqualifies
      rcases List.mem_append.1 hin with hin | hin
      · exact hbefore _ (holder ▸ List.mem_filterMap.2 ⟨_, hin, hscored hqualifies⟩)
      · -- none that the search passed over on its way to the one chosen qualifies
        exact absurd ((hpassed _ hin).symm.trans (hscored hqualifies)) (by simp)
    · intro id' ix' coverage' hin hqualifies
      exact hafter _ (hbehind ▸ List.mem_filterMap.2 ⟨_, hin, hscored hqualifies⟩)

/-- The index chosen is the best one. -/
theorem best_of_choose? (h : g.choose? q.scope p.path ⟨p.comparison, ordered⟩ = some (id, ix, coverage)) :
    ∃ place, g.Best q p ordered place id ix coverage := by
  obtain ⟨hqualifies, older, younger, hpub, holder, hyounger⟩ := split_of_choose? h
  refine ⟨older.length, by simp [hpub], hqualifies, ?_⟩
  intro place' id' ix' coverage' hplace hqualifies'
  rw [precedence_le_iff id id']
  rw [hpub] at hplace
  rcases Nat.lt_trichotomy place' older.length with hlt | rfl | hgt
  · rw [List.getElem?_append_left hlt] at hplace
    exact .inl (holder _ _ _ (List.mem_of_getElem? hplace) hqualifies')
  · rw [List.getElem?_append_right (Nat.le_refl _), Nat.sub_self] at hplace
    cases hplace
    cases (suitability?_eq_some_iff.2 hqualifies').symm.trans (suitability?_eq_some_iff.2 hqualifies)
    exact .inr ⟨rfl, Nat.le_refl _⟩
  · obtain ⟨k, rfl⟩ := Nat.exists_eq_add_of_lt hgt
    rw [List.getElem?_append_right (by omega), Nat.add_assoc, Nat.add_sub_cancel_left, List.getElem?_cons_succ]
      at hplace
    have hle := hyounger _ _ _ (List.mem_of_getElem? hplace) hqualifies'
    rcases Nat.lt_or_eq_of_le hle with hlt | heq
    · exact .inl hlt
    · exact .inr ⟨heq, Nat.le_of_lt hgt⟩

theorem choose?_eq_none_iff : g.choose? q.scope p.path ⟨p.comparison, ordered⟩ = none ↔
    ∀ id ix coverage, (id, ix) ∈ g.publishedIndexes → ¬ ix.Qualifies q p ordered coverage := by
  unfold choose?
  simp only
  split
  · rename_i hall
    refine iff_of_true rfl fun id ix coverage hmem hqualifies => ?_
    have hpassed := List.filterMap_eq_nil_iff.1 hall (id, ix) hmem
    simp [suitability?_eq_some_iff.2 hqualifies] at hpassed
  · rename_i first rest hall
    refine iff_of_false (by simp) fun hnone => ?_
    obtain ⟨⟨id, ix⟩, hmem, hfirst⟩ := List.mem_filterMap.1 (hall ▸ List.mem_cons_self)
    obtain ⟨coverage, hcoverage, -⟩ := Option.map_eq_some_iff.1 hfirst
    exact hnone id ix coverage hmem (suitability?_eq_some_iff.1 hcoverage)

theorem Best.unique {place place' : Nat} {id' : IndexId} {ix' : Index} {coverage' : Coverage}
    (h : g.Best q p ordered place id ix coverage) (h' : g.Best q p ordered place' id' ix' coverage') :
    (id, ix, coverage) = (id', ix', coverage') := by
  have hle := (precedence_le_iff id id').1 (h.least _ _ _ _ h'.published h'.qualifies)
  have hge := (precedence_le_iff id' id).1 (h'.least _ _ _ _ h.published h.qualifies)
  obtain rfl : place = place' := by omega
  cases Option.some.inj (h.published.symm.trans h'.published)
  cases (suitability?_eq_some_iff.2 h.qualifies).symm.trans (suitability?_eq_some_iff.2 h'.qualifies)
  rfl

/-- **The index chosen is the best of those that qualify.** -/
theorem choose?_eq_some_iff : g.choose? q.scope p.path ⟨p.comparison, ordered⟩ = some (id, ix, coverage) ↔
    ∃ place, g.Best q p ordered place id ix coverage := by
  constructor
  · exact best_of_choose?
  · rintro ⟨place, hbest⟩
    cases hc : g.choose? q.scope p.path ⟨p.comparison, ordered⟩ with
    | none =>
      exact absurd hbest.qualifies
        (choose?_eq_none_iff.1 hc id ix coverage (List.mem_of_getElem? hbest.published))
    | some chosen =>
      obtain ⟨place', hbest'⟩ := best_of_choose? hc
      exact congrArg some (hbest'.unique hbest)

end Registry

/-! ## Plans -/

namespace Query

variable {q : Query} {p : Predicate} {r : Region} {name : String} {optimize : Bool}

/-- What a plan through a named index takes. -/
theorem planHinted_eq_ok_iff {plan : Plan} : q.planHinted p name r = .ok plan ↔
    ∃ id ix coverage, r.registry.named? name = some (id, ix) ∧ ix.Answers q p coverage ∧
      plan = .indexScan id ix p.comparison coverage := by
  unfold planHinted
  constructor
  · intro h
    split at h
    · cases h
    · rename_i id ix hnamed
      split at h
      · cases h
      · rename_i coverage hcovers
        split at h
        · cases h
        · rename_i hpath
          split at h
          · cases h
          · rename_i hsupports
            exact ⟨id, ix, coverage, hnamed, ⟨hcovers, by simpa using hpath, by simpa using hsupports⟩,
              (Except.ok.inj h).symm⟩
  · rintro ⟨id, ix, coverage, hnamed, hanswers, rfl⟩
    simp [hnamed, hanswers.covers, hanswers.path, hanswers.supports]

/-- What a hint accepts. -/
theorem plan_hinted_eq_ok_iff {plan : Plan} (hp : q.predicate = some p) (hh : q.hint = some name) :
    q.plan optimize r = .ok plan ↔ ∃ id ix coverage, r.registry.named? name = some (id, ix) ∧
      ix.Answers q p coverage ∧
        plan = ((Plan.indexScan id ix p.comparison coverage).withFilter p.display).withSort q.order.isSome := by
  have hplan : q.plan optimize r =
      (q.planHinted p name r).map fun plan => (plan.withFilter p.display).withSort q.order.isSome := by
    simp only [Query.plan, hp, hh]
  rw [hplan]
  constructor
  · intro h
    cases hn : q.planHinted p name r with
    | error e => simp [hn, Except.map] at h
    | ok hinted =>
      obtain ⟨id, ix, coverage, hnamed, hanswers, rfl⟩ := planHinted_eq_ok_iff.1 hn
      rw [hn] at h
      exact ⟨id, ix, coverage, hnamed, hanswers, (Except.ok.inj h).symm⟩
  · rintro ⟨id, ix, coverage, hnamed, hanswers, rfl⟩
    rw [planHinted_eq_ok_iff.2 ⟨id, ix, coverage, hnamed, hanswers, rfl⟩]
    rfl

theorem plan_of_chosen (hp : q.predicate = some p) (hh : q.hint = none) {id : IndexId} {ix : Index}
    {coverage : Coverage} (hc : q.chooseIndex? p r = some (id, ix, coverage)) : q.plan true r =
      .ok (((Plan.indexScan id ix p.comparison coverage).withFilter p.display).withSort q.order.isSome) := by
  simp only [plan, hp, hh, if_true, hc]

/-- An order by the predicate's own path takes the ordered index that is best. -/
theorem chooseIndex?_of_order {order : Path} (ho : q.order = some order) (hp : q.predicate = some p)
    (hpath : q.scope.resolve order = q.scope.resolve p.path) {chosen : IndexId × Index × Coverage}
    (hc : r.registry.choose? q.scope p.path ⟨p.comparison, true⟩ = some chosen) :
    q.chooseIndex? p r = some chosen := by
  have hby : q.ordersByPredicate = true := by simp [ordersByPredicate, ho, hp, hpath]
  simp only [chooseIndex?, hby, if_true, hc, Option.some_or]

end Query

/-! ## Execution -/

theorem Region.readValue_error {r : Region} {key : Key} {e : Error} (h : (r.readValue key).1 = .error e) :
    e = .noBackingStore key ∨ e = .notInBackingStore key := by
  have hfault : ∀ e', (r.faultIn key).1 = .error e' → e' = .noBackingStore key ∨ e' = .notInBackingStore key := by
    intro e' h
    unfold faultIn at h
    split at h
    · exact .inl (Except.error.inj h).symm
    · split at h
      · exact .inr (Except.error.inj h).symm
      · cases h
  unfold readValue valueOf at h
  split at h
  · cases h
  · split at h
    · cases h
    · rename_i e' _ hread
      split at hread
      · cases hread
      · rw [← Except.error.inj h]
        exact hfault e' (congrArg Prod.fst hread)

theorem Region.collectRows_error {r : Region} {f : Filter} {scope : Scope} {keys : List Key} {e : Error}
    (h : (r.collectRows f scope keys).1 = .error e) :
    ∃ key, e = .noBackingStore key ∨ e = .notInBackingStore key := by
  induction keys generalizing r with
  | nil => cases h
  | cons key rest ih =>
    unfold collectRows at h
    split at h
    · rename_i e' r' hread
      rw [← Except.error.inj h]
      exact ⟨key, Region.readValue_error (congrArg Prod.fst hread)⟩
    · rename_i value r' hread
      simp only at h
      cases hrest : (r'.collectRows f scope rest).1 with
      | ok rows => simp [hrest, Except.map] at h
      | error e' =>
        rw [hrest, Except.map] at h
        exact ih (hrest.trans h)

theorem Index.lookup_error {ix : Index} {op : Comparison} {probe : Option Key} {e : Error}
    (hs : ix.kind.supports op = true) (h : ix.lookup op probe = .error e) :
    e = .indexRemoved ix.name ∨ ∃ cause, e = .improperBounds cause := by
  unfold lookup at h
  split at h
  · exact .inl (Except.error.inj h).symm
  · simp only [hs, Bool.not_true, Bool.false_eq_true, if_false] at h
    cases hl : ix.store.lookup op probe with
    | ok found => simp [hl, Except.mapError] at h
    | error cause =>
      rw [hl, Except.mapError] at h
      exact .inr ⟨cause, (Except.error.inj h).symm⟩

theorem Region.lookupIndex_error {r : Region} {id : IndexId} {c : CompiledDefinition} {op : Comparison}
    {probe : Option Key} {e : Error} (hc : r.registry.compiledOf? id = some c) (hs : c.kind.supports op = true)
    (h : (r.lookupIndex id op probe).1 = .error e) :
    (∃ name, e = .indexRemoved name) ∨ ∃ cause, e = .improperBounds cause := by
  obtain ⟨ix, hix, rfl⟩ := Option.map_eq_some_iff.1 hc
  unfold lookupIndex at h
  rw [hix, Option.getD_some] at h
  cases hl : ix.lookup op probe with
  | ok found => simp [hl] at h
  | error e' =>
    rw [hl] at h
    rw [← Except.error.inj h]
    exact (Index.lookup_error hs hl).imp_left fun h => ⟨_, h⟩

namespace QueryHost

variable {σ : Type} {h : QueryHost σ} {s : σ} {q : Query} {plan : Plan} {id : IndexId} {name : String}
  {op : Comparison} {coverage : Coverage} {c : CompiledDefinition} {e : Error}

/-- What listeners and observers do leaves the definitions of indexes alone, as all commands do. -/
structure KeepsDefinitions (h : QueryHost σ) : Prop where
  lawful : h.toHost.Lawful
  heard : h.toHost.Remembers
  started : ∀ installed q s, (h.region s).Remembers (h.region ((h.observer installed).started q s))
  beforeLookup : ∀ installed ix op probe s,
    (h.region s).Remembers (h.region ((h.observer installed).beforeLookup ix op probe s))

theorem keepsDefinitions_quietQueries : quietQueries.KeepsDefinitions where
  lawful := lawful_quiet
  heard _ _ _ := .refl _
  started _ _ _ := .refl _
  beforeLookup _ _ _ _ _ := .refl _

theorem candidates_error {observer : Observer σ} {probe : Option Key}
    (hc : (h.region (observer.beforeLookup (h.index id s) op probe s)).registry.compiledOf? id = some c)
    (hs : c.kind.supports op = true) (herr : (h.candidates observer id op probe s).1 = .error e) :
    (∃ name, e = .indexRemoved name) ∨ ∃ cause, e = .improperBounds cause := by
  unfold candidates at herr
  simp only at herr
  split at herr
  · rename_i e' s' hrun
    rw [← Except.error.inj herr]
    exact Region.lookupIndex_error hc hs (congrArg Prod.fst hrun)
  · cases herr

/-- What can go wrong in executing a plan through an index that supports the comparison. -/
theorem execute_error (hkeeps : h.KeepsDefinitions) (hroot : plan.root = .indexScan id name op coverage)
    (hc : (h.region s).registry.compiledOf? id = some c) (hs : c.kind.supports op = true)
    (herr : (h.execute q plan s).1 = .error e) :
    (∃ target region, e = .foreignQuery target region) ∨ (∃ cause, e = .evaluation cause) ∨
      (∃ name, e = .indexRemoved name) ∨ (∃ cause, e = .improperBounds cause) ∨
      ∃ key, e = .noBackingStore key ∨ e = .notInBackingStore key := by
  unfold execute at herr
  simp only at herr
  split at herr
  · exact .inl ⟨_, _, (Except.error.inj herr).symm⟩
  · split at herr
    · exact .inr (.inl ⟨_, (Except.error.inj herr).symm⟩)
    · rename_i f _
      have hcollect : (h.collect (h.observer s) q plan f ((h.observer s).started q s)).1 = .error e := by
        cases hrows : (h.collect (h.observer s) q plan f ((h.observer s).started q s)).1 with
        | ok rows => simp [hrows] at herr
        | error e' =>
          rw [hrows] at herr
          rw [Except.error.inj herr]
      unfold collect at hcollect
      simp only [hroot] at hcollect
      have hlooked := hkeeps.beforeLookup s (h.index id ((h.observer s).started q s)) op f.probe
        ((h.observer s).started q s) id c (hkeeps.started s q s id c hc)
      split at hcollect
      · rename_i e' s' hcandidates
        rw [← Except.error.inj hcollect]
        rcases candidates_error hlooked hs (congrArg Prod.fst hcandidates) with hremoved | hbounds
        · exact .inr (.inr (.inl hremoved))
        · exact .inr (.inr (.inr (.inl hbounds)))
      · exact .inr (.inr (.inr (.inr (Region.collectRows_error hcollect))))

end QueryHost

/-- **The index of a plan is the best that qualifies.** A search gives the best published index of those that can
answer the predicate, ordered ones where that is asked for, and none exactly if none qualifies. A hint is accepted
exactly if the index of that name can answer. An order by the predicate's own path takes the best ordered index
there is. And a plan fits its index for good: whatever commands come in between, executing it does not fail for the
comparison or the scope. -/
theorem Query.plan_takes_best {q : Query} {p : Predicate} (hp : q.predicate = some p) (r : Region) :
    (∀ ordered id ix coverage, r.registry.choose? q.scope p.path ⟨p.comparison, ordered⟩ = some (id, ix, coverage) ↔
      ∃ place, r.registry.Best q p ordered place id ix coverage) ∧
    (∀ ordered, (∃ chosen, r.registry.choose? q.scope p.path ⟨p.comparison, ordered⟩ = some chosen) ↔
      ∃ id ix coverage, (id, ix) ∈ r.registry.publishedIndexes ∧ ix.Qualifies q p ordered coverage) ∧
    (∀ name optimize, q.hint = some name →
      ((∃ plan, q.plan optimize r = .ok plan) ↔
        ∃ id ix coverage, r.registry.named? name = some (id, ix) ∧ ix.Answers q p coverage) ∧
      ∀ plan, q.plan optimize r = .ok plan → ∃ id ix coverage, r.registry.named? name = some (id, ix) ∧
        plan.root = .indexScan id ix.name p.comparison coverage) ∧
    (∀ order, q.hint = none → q.order = some order → q.scope.resolve order = q.scope.resolve p.path →
      (∃ id ix coverage, (id, ix) ∈ r.registry.publishedIndexes ∧ ix.Qualifies q p true coverage) →
      ∃ plan place id ix coverage, q.plan true r = .ok plan ∧ r.registry.Best q p true place id ix coverage ∧
        plan.root = .indexScan id ix.name p.comparison coverage) ∧
    ∀ (σ : Type) (h : QueryHost σ), h.KeepsDefinitions → ∀ s, h.region s = r → ∀ optimize plan,
      q.plan optimize r = .ok plan → plan.usesIndex = true → ∀ (commands : List Command) e,
      (h.execute q plan (commands.foldl (Command.run h.toHost) s)).1 = .error e →
        (∀ index kind operator, e ≠ .unsupported index kind operator) ∧
        ∀ index own asked, e ≠ .scopeMismatch index own asked := by
  have hsome : ∀ ordered, (∃ chosen, r.registry.choose? q.scope p.path ⟨p.comparison, ordered⟩ = some chosen) ↔
      ∃ id ix coverage, (id, ix) ∈ r.registry.publishedIndexes ∧ ix.Qualifies q p ordered coverage := by
    intro ordered
    rw [← Option.ne_none_iff_exists', ne_eq, Registry.choose?_eq_none_iff]
    push Not
    rfl
  refine ⟨fun _ _ _ _ => Registry.choose?_eq_some_iff, hsome, ?_, ?_, ?_⟩
  · intro name optimize hh
    constructor
    · constructor
      · rintro ⟨plan, hplan⟩
        obtain ⟨id, ix, coverage, hnamed, hanswers, -⟩ := (plan_hinted_eq_ok_iff hp hh).1 hplan
        exact ⟨id, ix, coverage, hnamed, hanswers⟩
      · rintro ⟨id, ix, coverage, hnamed, hanswers⟩
        exact ⟨_, (plan_hinted_eq_ok_iff hp hh).2 ⟨id, ix, coverage, hnamed, hanswers, rfl⟩⟩
    · intro plan hplan
      obtain ⟨id, ix, coverage, hnamed, -, rfl⟩ := (plan_hinted_eq_ok_iff hp hh).1 hplan
      exact ⟨id, ix, coverage, hnamed, rfl⟩
  · intro order hh ho hpath hqualifies
    obtain ⟨⟨id, ix, coverage⟩, hchosen⟩ := (hsome true).2 hqualifies
    obtain ⟨place, hbest⟩ := Registry.choose?_eq_some_iff.1 hchosen
    exact ⟨_, place, id, ix, coverage, plan_of_chosen hp hh (chooseIndex?_of_order ho hp hpath hchosen), hbest, rfl⟩
  · rintro σ h hkeeps s rfl optimize plan hplan huses commands e herr
    cases hroot : plan.root with
    | scan region => simp [Plan.usesIndex, hroot] at huses
    | indexScan id name op coverage =>
      obtain ⟨rfl, ix, hpub, hanswers⟩ := (plan_spec hp hplan).2 id name op coverage hroot
      have hdefined : (h.region s).registry.compiledOf? id = some ix.compiled := by
        rw [Registry.compiledOf?, (Registry.mem_publishedIndexes.1 hpub).2, Option.map_some]
      have hthen := Host.remembers_run hkeeps.lawful hkeeps.heard commands s id _ hdefined
      have hcauses := QueryHost.execute_error hkeeps hroot hthen hanswers.supports herr
      rcases hcauses with ⟨_, _, rfl⟩ | ⟨_, rfl⟩ | ⟨_, rfl⟩ | ⟨_, rfl⟩ | ⟨_, rfl | rfl⟩ <;> simp

/-! ## One index of each kind -/

/-- An ordered index, a hash index and a primary-key index on the same values. -/
def threeKinds : Region := (Region.blank .synchronous).after
  [.createIndex ⟨"sorted", .range, "v", "/r"⟩, .createIndex valueDefinition,
    .createIndex ⟨"owners", .primaryKey, "v", "/r"⟩]

def valuePath : Path := ⟨"v", ["v"]⟩

def onePredicate : Predicate := ⟨valuePath, .eq, .integer 1⟩

def sortedOnes : Query := ⟨⟨"/r", "/r", [⟨none, none⟩]⟩, some onePredicate, some valuePath, none⟩

/-- The best index for the values in any order is the primary-key one, but rows in order come from the ordered
one. -/
theorem Query.plan_takes_best_sorted : sortedOnes.predicate = some onePredicate ∧
    (∃ ix place, threeKinds.registry.Best sortedOnes onePredicate false place 2 ix .exact ∧ ix.kind = .primaryKey) ∧
    ∃ plan place id ix coverage, sortedOnes.plan true threeKinds = .ok plan ∧
      threeKinds.registry.Best sortedOnes onePredicate true place id ix coverage ∧ ix.kind = .range ∧
      plan.root = .indexScan id ix.name .eq coverage ∧ ∀ (commands : List Command) e,
        (quietQueries.execute sortedOnes plan (commands.foldl (Command.run quiet) threeKinds)).1 = .error e →
          ∀ index kind operator, e ≠ .unsupported index kind operator := by
  obtain ⟨hchosen, -, -, hsorted, hfits⟩ := plan_takes_best (q := sortedOnes) (p := onePredicate) rfl threeKinds
  obtain ⟨owner, howner, hkind⟩ : ∃ ix, threeKinds.registry.choose? sortedOnes.scope valuePath ⟨.eq, false⟩ =
      some (2, ix, .exact) ∧ ix.kind = .primaryKey := ⟨_, rfl, rfl⟩
  obtain ⟨place, hbest⟩ := (hchosen false 2 owner .exact).1 howner
  obtain ⟨ordered, hordered, hpub⟩ : ∃ ix : Index, ix.Qualifies sortedOnes onePredicate true .exact ∧
      (0, ix) ∈ threeKinds.registry.publishedIndexes :=
    ⟨_, ⟨⟨rfl, rfl, rfl⟩, fun _ => rfl⟩, List.mem_of_getElem? (i := 0) rfl⟩
  obtain ⟨plan, place', id, ix, coverage, hplan, hbest', hroot⟩ :=
    hsorted valuePath rfl rfl rfl ⟨0, ordered, .exact, hpub, hordered⟩
  have huses : plan.usesIndex = true := by simp [Plan.usesIndex, hroot]
  exact ⟨rfl, ⟨owner, place, hbest, hkind⟩, plan, place', id, ix, coverage, hplan, hbest', hbest'.qualifies.range rfl,
    hroot, fun commands e herr => (hfits Region quietQueries QueryHost.keepsDefinitions_quietQueries threeKinds rfl
      true plan hplan huses commands e herr).1⟩

end IndexedStore
