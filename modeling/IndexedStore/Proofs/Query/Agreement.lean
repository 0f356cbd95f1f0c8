import IndexedStore.Proofs.Query.Rows
import IndexedStore.Proofs.Region.Runs

/-!
# Queries through an index

A plan through an index gives the rows of a scan, but for the entries that the index cannot project
(`Query.index_agrees_with_scan`). The candidates are the keys that the index finds and those it refused.
In a synchronous region every target serves every value, so an entry whose value can be projected is a
candidate if it has a row (`Index.Serves.candidate_of_row`), and a candidate's value can be projected
(`Index.Serves.projects`); each of two lists without repetition then gives the same rows.
-/

namespace IndexedStore

/-- A region by itself, with nobody listening to its queries either. -/
def quietQueries : QueryHost Region := { quiet with observer := fun _ => .silent }

/-- Two lists without repetition give the same, in some order, where they have the same elements that
give anything. -/
theorem perm_flatMap {α β : Type} {f : α → List β} {l l' : List α} (h : l.Nodup) (h' : l'.Nodup)
    (hm : ∀ a, f a ≠ [] → (a ∈ l ↔ a ∈ l')) : (l.flatMap f).Perm (l'.flatMap f) := by
  have dropped : ∀ l : List α, l.flatMap f = (l.filter fun a => !(f a).isEmpty).flatMap f := by
    intro l
    induction l with
    | nil => rfl
    | cons a rest ih =>
      cases hf : f a with
      | nil => simpa [hf] using ih
      | cons b bs => simpa [hf] using ih
  rw [dropped l, dropped l']
  refine List.Perm.flatMap_right f ((List.perm_ext_iff_of_nodup (h.filter _) (h'.filter _)).2 ?_)
  intro a
  simp only [List.mem_filter, and_congr_left_iff]
  exact fun hf => hm a (by simpa using hf)

/-! ## Rows -/

namespace Row

theorem orderBySortKey_total (a b : Row) : (a.orderBySortKey b || b.orderBySortKey a) = true := by
  unfold orderBySortKey
  cases a.sortKey with
  | none => simp
  | some x =>
    cases b.sortKey with
    | none => simp
    | some y => simpa using le_total x y

theorem orderBySortKey_trans (a b c : Row) (hab : a.orderBySortKey b = true)
    (hbc : b.orderBySortKey c = true) : a.orderBySortKey c = true := by
  unfold orderBySortKey at hab hbc ⊢
  cases ha : a.sortKey with
  | none => rfl
  | some x =>
    cases hb : b.sortKey with
    | none => simp [ha, hb] at hab
    | some y =>
      cases hc : c.sortKey with
      | none => simp [hb, hc] at hbc
      | some z =>
        simp only [ha, hb, hc, Key.upTo_iff_le] at hab hbc ⊢
        exact hab.trans hbc

end Row

namespace Plan

/-- The rows in the order in which a plan gives them. -/
def arrange (plan : Plan) (rows : List Row) : List Row :=
  if plan.sort then rows.mergeSort Row.orderBySortKey else rows

theorem arrange_perm (plan : Plan) (rows : List Row) : (plan.arrange rows).Perm rows := by
  unfold arrange
  split
  · exact List.mergeSort_perm rows _
  · exact .refl rows

theorem arrange_sorted {plan : Plan} (h : plan.sort = true) (rows : List Row) :
    (plan.arrange rows).Pairwise fun a b => a.orderBySortKey b = true := by
  rw [arrange, if_pos h]
  exact List.pairwise_mergeSort Row.orderBySortKey_trans Row.orderBySortKey_total rows

end Plan

namespace Region

/-- The rows that the value of a key has. -/
def rowsAt (r : Region) (f : Filter) (scope : Scope) (key : Key) : List Row :=
  match r.current key with
  | some v => f.rowsOf scope key v
  | none => []

theorem rowsAt_congr {r r' : Region} (h : r'.current = r.current) : r'.rowsAt = r.rowsAt := by
  funext f scope key
  simp only [rowsAt, h]

theorem mem_rowsAt {r : Region} {f : Filter} {scope : Scope} {key : Key} {row : Row}
    (h : row ∈ r.rowsAt f scope key) : r.current key = some row.value := by
  unfold rowsAt at h
  cases hc : r.current key with
  | none => simp [hc] at h
  | some v =>
    simp only [hc] at h
    rw [(Filter.mem_rowsOf h).2]

theorem collectRows_spec {r : Region} (h : r.Sound) (f : Filter) (scope : Scope) (keys : List Key) :
    (r.collectRows f scope keys).1 = .ok (keys.flatMap (r.rowsAt f scope)) ∧
      SameValues r (r.collectRows f scope keys).2 := by
  induction keys generalizing r with
  | nil => exact ⟨rfl, .refl r⟩
  | cons key rest ih =>
    obtain ⟨hread, hsame⟩ := readValue_spec h key
    unfold collectRows
    generalize r.readValue key = outcome at hread hsame
    obtain ⟨read, r'⟩ := outcome
    simp only at hread hsame
    subst hread
    have hund := hsame.undisturbed h
    obtain ⟨hrest, hsame'⟩ := ih hund.sound
    rw [rowsAt_congr (funext hund.current)] at hrest
    simp only [hrest]
    refine ⟨?_, hsame.trans hsame'⟩
    cases hc : r.current key <;> simp [Except.map, rowsAt, hc]

theorem collectRows_same (r : Region) (f : Filter) (scope : Scope) (keys : List Key) :
    SameValues r (r.collectRows f scope keys).2 := by
  induction keys generalizing r with
  | nil => exact .refl r
  | cons key rest ih =>
    have hread := readValue_same r key
    unfold collectRows
    generalize r.readValue key = outcome at hread
    obtain ⟨_ | value, r'⟩ := outcome
    · exact hread
    · exact hread.trans (ih r')

end Region

/-! ## Candidates -/

namespace Index

variable {ix : Index} {key : Key} {value : Option Value}

/-- An index that has anything of an entry, or has refused it, could project its value. -/
theorem Serves.projects (h : ix.Serves key value) (hc : key ∈ ix.degraded ∨ ix.slotsAt key ≠ []) :
    ∃ slots, ix.projectEntry value = .ok slots := by
  rcases h with ⟨hnot, hslots⟩ | ⟨-, hok⟩
  · cases hp : ix.projectEntry value with
    | ok slots => exact ⟨slots, rfl⟩
    | error fault =>
      rw [projected_of_error hp] at hslots
      exact absurd hslots (hc.resolve_left hnot)
  · exact hok

/-- A served value that can be projected is found by each of its slots, if the index has not refused
it. -/
theorem Serves.found {slots : List Slot} (h : ix.Serves key value) (hp : ix.projectEntry value = .ok slots) :
    key ∈ ix.degraded ∨ ix.slotsAt key = slots := by
  rcases h with ⟨-, hslots⟩ | ⟨hrefused, -⟩
  · exact .inr (hslots.trans (projected_of_ok hp))
  · exact .inl hrefused

/-- The entry keys that a query looks at: those that a look-up finds, and then the degraded ones. -/
def candidateKeys (ix : Index) (found : Lookup) : List Key :=
  found.keys ++ ix.degraded.filter fun key => !found.keys.contains key

theorem candidateKeys_nodup (h : ix.WF) {found : Lookup} (hf : found.keys.Nodup) :
    (ix.candidateKeys found).Nodup := by
  refine List.nodup_append.2 ⟨hf, h.degraded.filter _, ?_⟩
  intro a ha b hb he
  subst he
  have := (List.mem_filter.1 hb).2
  simp [ha] at this

theorem mem_candidateKeys {found : Lookup} :
    key ∈ ix.candidateKeys found ↔ key ∈ found.keys ∨ key ∈ ix.degraded := by
  simp only [candidateKeys, List.mem_append, List.mem_filter, Bool.not_eq_true', List.contains_eq_mem,
    decide_eq_false_iff_not]
  by_cases hk : key ∈ found.keys <;> simp [hk]

end Index

theorem Region.lookupIndex_spec {r : Region} {id : IndexId} {ix : Index} (hix : r.registry.index? id = some ix)
    {op : Comparison} {probe : Option Key} {found : Lookup} (hf : ix.lookup op probe = .ok found) :
    r.lookupIndex id op probe =
      (.ok found, r.withRegistry (r.registry.modify id Index.countLookup)) := by
  unfold lookupIndex
  rw [hix, Option.getD_some, hf]
  rfl

theorem candidates_spec {r : Region} {id : IndexId} {ix : Index} (hix : r.registry.index? id = some ix)
    {op : Comparison} {probe : Option Key} {found : Lookup} (hf : ix.lookup op probe = .ok found) :
    quietQueries.candidates .silent id op probe r =
      (.ok (ix.candidateKeys found), r.withRegistry (r.registry.modify id Index.countLookup)) := by
  have hindex : quietQueries.index id (r.withRegistry (r.registry.modify id Index.countLookup)) =
      ix.countLookup := by
    unfold QueryHost.index
    rw [show quietQueries.region (r.withRegistry (r.registry.modify id Index.countLookup)) =
      r.withRegistry (r.registry.modify id Index.countLookup) from rfl, Region.registry_withRegistry,
      Registry.index?_modify, if_pos rfl, hix]
    rfl
  have hrun : quietQueries.run (·.lookupIndex id op probe) r =
      (.ok found, r.withRegistry (r.registry.modify id Index.countLookup)) :=
    Region.lookupIndex_spec hix hf
  unfold QueryHost.candidates
  simp only [Observer.silent, hrun, hindex]
  rfl

/-! ## Plans -/

namespace Registry

theorem foldl_better_mem (need : Requirement) (first : IndexId × Index × Coverage)
    (rest : List (IndexId × Index × Coverage)) : rest.foldl (better need) first ∈ first :: rest := by
  induction rest generalizing first with
  | nil => simp
  | cons c rest ih =>
    rw [List.foldl_cons]
    have hbetter : better need first c = first ∨ better need first c = c := by
      unfold better
      simp only
      split <;> simp
    rcases List.mem_cons.1 (ih (better need first c)) with he | hm
    · rw [he]
      rcases hbetter with hb | hb <;> simp [hb]
    · exact List.mem_cons_of_mem _ (List.mem_cons_of_mem _ hm)

/-- What is chosen is published, and can answer. -/
theorem choose?_spec {g : Registry} {scope : Scope} {path : Path} {need : Requirement} {id : IndexId}
    {ix : Index} {coverage : Coverage} (h : g.choose? scope path need = some (id, ix, coverage)) :
    (id, ix) ∈ g.publishedIndexes ∧ suitability? scope path need ix = some coverage := by
  unfold choose? at h
  simp only at h
  split at h
  · cases h
  · rename_i first rest hall
    have hmem := foldl_better_mem need first rest
    rw [Option.some.inj h, ← hall, List.mem_filterMap] at hmem
    obtain ⟨⟨id', ix'⟩, hp, hs⟩ := hmem
    obtain ⟨coverage', hs', he⟩ := Option.map_eq_some_iff.1 hs
    cases he
    exact ⟨hp, hs'⟩

end Registry

/-- An index that can answer a query's predicate, and how its scope covers the query's. -/
structure Index.Answers (ix : Index) (q : Query) (p : Predicate) (coverage : Coverage) : Prop where
  covers : ix.covers q.scope = .ok coverage
  path : ix.indexesPath q.scope p.path = true
  supports : ix.kind.supports p.comparison = true

theorem Index.Answers.regionPath {ix : Index} {q : Query} {p : Predicate} {coverage : Coverage}
    (h : ix.Answers q p coverage) : ix.compiled.regionPath = q.scope.regionPath := by
  have hc := Index.covers_eq_ok_iff.1 h.covers
  simp only [Scope.coverage?, Option.ite_none_right_eq_some] at hc
  exact hc.1.1

theorem Index.answers_of_suitability {ix : Index} {q : Query} {p : Predicate} {ordered : Bool}
    {coverage : Coverage}
    (h : Registry.suitability? q.scope p.path ⟨p.comparison, ordered⟩ ix = some coverage) :
    ix.Answers q p coverage := by
  unfold Registry.suitability? at h
  split at h
  · rename_i hs
    exact ⟨covers_eq_ok_iff.2 h, hs.2.2, hs.1⟩
  · cases h

/-- **A plan through an index is through a published one that can answer, chosen or named.** -/
theorem Query.plan_spec {q : Query} {p : Predicate} (hp : q.predicate = some p) {optimize : Bool} {r : Region}
    {plan : Plan} (h : q.plan optimize r = .ok plan) :
    plan.sort = q.order.isSome ∧ ∀ id name op coverage, plan.root = .indexScan id name op coverage →
      op = p.comparison ∧ ∃ ix, (id, ix) ∈ r.registry.publishedIndexes ∧ ix.Answers q p coverage := by
  unfold Query.plan at h
  simp only [hp] at h
  cases hh : q.hint with
  | some hint =>
    simp only [hh] at h
    cases hn : q.planHinted p hint r with
    | error e => simp [hn, Except.map] at h
    | ok hinted =>
      simp only [hn, Except.map, Except.ok.injEq] at h
      subst h
      refine ⟨rfl, ?_⟩
      intro id name op coverage hroot
      unfold planHinted at hn
      split at hn
      · cases hn
      · rename_i id' ix' hnamed
        split at hn
        · cases hn
        · rename_i coverage' hc
          split at hn
          · cases hn
          · rename_i hpath
            split at hn
            · cases hn
            · rename_i hsup
              simp only [Except.ok.injEq] at hn
              subst hn
              cases hroot
              exact ⟨rfl, ix', List.mem_of_find?_eq_some hnamed, hc, by simpa using hpath, by simpa using hsup⟩
  | none =>
    simp only [hh, Except.ok.injEq] at h
    subst h
    refine ⟨rfl, ?_⟩
    intro id name op coverage hroot
    cases hc : (if optimize then q.chooseIndex? p r else none) with
    | none => simp [hc, Plan.withSort, Plan.withFilter, Plan.scan] at hroot
    | some chosen =>
      obtain ⟨id', ix', coverage'⟩ := chosen
      simp only [hc, Plan.withSort, Plan.withFilter, Plan.indexScan, PlanRoot.indexScan.injEq] at hroot
      obtain ⟨rfl, -, rfl, rfl⟩ := hroot
      have hchosen : q.chooseIndex? p r = some (id', ix', coverage') := by
        split at hc
        · exact hc
        · cases hc
      refine ⟨rfl, ix', ?_⟩
      unfold chooseIndex? at hchosen
      rcases Option.or_eq_some_iff.1 hchosen with hord | ⟨-, hany⟩
      · split at hord
        · obtain ⟨hmem, hs⟩ := Registry.choose?_spec hord
          exact ⟨hmem, Index.answers_of_suitability hs⟩
        · cases hord
      · obtain ⟨hmem, hs⟩ := Registry.choose?_spec hany
        exact ⟨hmem, Index.answers_of_suitability hs⟩

/-! ## Execution -/

section Execution

variable {r : Region} {q : Query} {f : Filter} {plan : Plan}

theorem execute_scan (h : r.Sound) (hpath : q.scope.regionPath = r.path) (hf : q.makeFilter = .ok f)
    {region : String} (hroot : plan.root = .scan region) :
    (quietQueries.execute q plan r).1 =
      .ok ⟨plan.arrange (r.keys.flatMap (r.rowsAt f q.scope)), plan⟩ := by
  have hcollect : quietQueries.collect .silent q plan f r = r.collectRows f q.scope r.keys := by
    unfold QueryHost.collect
    simp only [hroot]
    rfl
  have hrows := (r.collectRows_spec h f q.scope r.keys).1
  unfold QueryHost.execute
  rw [show (quietQueries.region r).path = r.path from rfl, if_neg (not_not.2 hpath), hf]
  simp only [show quietQueries.observer r = .silent from rfl, show Observer.silent.started q r = r from rfl,
    hcollect, hrows]
  rfl

theorem execute_indexScan (h : r.Sound) (hpath : q.scope.regionPath = r.path) (hf : q.makeFilter = .ok f)
    {id : IndexId} {name : String} {op : Comparison} {coverage : Coverage}
    (hroot : plan.root = .indexScan id name op coverage) {ix : Index} (hix : r.registry.index? id = some ix)
    {found : Lookup} (hfound : ix.lookup op f.probe = .ok found) :
    (quietQueries.execute q plan r).1 =
      .ok ⟨plan.arrange ((ix.candidateKeys found).flatMap (r.rowsAt f q.scope)), plan⟩ := by
  let counted := r.withRegistry (r.registry.modify id Index.countLookup)
  have hcollect : quietQueries.collect .silent q plan f r =
      counted.collectRows f q.scope (ix.candidateKeys found) := by
    unfold QueryHost.collect
    simp only [hroot, candidates_spec hix hfound]
    rfl
  have hrows := (counted.collectRows_spec (h.withRegistry _) f q.scope (ix.candidateKeys found)).1
  rw [Region.rowsAt_congr (show counted.current = r.current from rfl)] at hrows
  unfold QueryHost.execute
  rw [show (quietQueries.region r).path = r.path from rfl, if_neg (not_not.2 hpath), hf]
  simp only [show quietQueries.observer r = .silent from rfl, show Observer.silent.started q r = r from rfl,
    hcollect, hrows]
  rfl

end Execution

/-! ## Agreement -/

section Agreement

variable {r : Region} {text : List Char} {q : Query} {p : Predicate} {f : Filter} {ix : Index}
  {coverage : Coverage} {key : Key}

/-- Whether the index can project the value of a row. -/
def Index.takes (ix : Index) (row : Row) : Bool := (ix.project row.value).isOk

/-- An entry with a row whose value can be projected is a candidate. -/
theorem Index.Serves.candidate_of_row (hix : ix.WF) (ha : ix.Answers q p coverage)
    (hs : ix.Serves key (r.current key)) (hq : Scope.parse text = .ok q.scope) (hp : q.predicate = some p)
    (hf : q.makeFilter = .ok f) {row : Row} (hrow : row ∈ r.rowsAt f q.scope key)
    (htakes : ix.takes row = true) :
    key ∈ ix.degraded ∨ ∃ slot ∈ ix.slotsAt key, p.comparison.holds slot.key? f.probe = true := by
  obtain ⟨d, hd⟩ := hix.compiled
  have hc := Region.mem_rowsAt hrow
  have hrows : f.rowsOf q.scope key row.value ≠ [] := by
    rw [Region.rowsAt, hc] at hrow
    exact List.ne_nil_of_mem hrow
  cases hproj : ix.project row.value with
  | error fault => simp [takes, hproj, Except.isOk, Except.toBool] at htakes
  | ok slots =>
    obtain ⟨-, t, ht, slot, hslot, hcmp⟩ := Index.slot_of_row hd hq ha.covers ha.path hp hf hrows
    obtain ⟨slot', hmem, hslot'⟩ := slot_of_tuple (slotsOfValue_eq_ok_iff.1 hproj).2 ht
    obtain rfl := Except.ok.inj (hslot.symm.trans hslot')
    rw [hc] at hs
    refine (hs.found hproj).imp_right fun hslots => ⟨slot, ?_, hcmp⟩
    rw [hslots]
    exact hmem

/-- The rows of a candidate all have a value that can be projected. -/
theorem Index.Serves.takes_of_candidate (hs : ix.Serves key (r.current key))
    (hc : key ∈ ix.degraded ∨ ix.slotsAt key ≠ []) {row : Row} (hrow : row ∈ r.rowsAt f q.scope key) :
    ix.takes row = true := by
  obtain ⟨slots, hslots⟩ := hs.projects hc
  rw [Region.mem_rowsAt hrow] at hslots
  rw [takes, show ix.project row.value = .ok slots from hslots]
  rfl

/-- The candidates have, in some order, the rows of all entries whose values the index can project. -/
theorem candidate_rows_perm (hr : r.Sound) (hix : ix.WF) (ha : ix.Answers q p coverage)
    (hs : ∀ key, ix.Serves key (r.current key)) (hq : Scope.parse text = .ok q.scope)
    (hp : q.predicate = some p) (hf : q.makeFilter = .ok f) {found : Lookup} (hnodup : found.keys.Nodup)
    (hfound : ∀ key, key ∈ found.keys ↔
      ∃ slot ∈ ix.slotsAt key, p.comparison.holds slot.key? f.probe = true) :
    ((ix.candidateKeys found).flatMap (r.rowsAt f q.scope)).Perm
      ((r.keys.flatMap (r.rowsAt f q.scope)).filter ix.takes) := by
  -- on candidates the filter lets everything through
  have hall : (ix.candidateKeys found).flatMap (r.rowsAt f q.scope) =
      (ix.candidateKeys found).flatMap fun key => (r.rowsAt f q.scope key).filter ix.takes := by
    refine List.flatMap_congr fun key hkey => (List.filter_eq_self.2 ?_).symm
    intro row hrow
    refine (hs key).takes_of_candidate (?_ : key ∈ ix.degraded ∨ ix.slotsAt key ≠ []) hrow
    rcases Index.mem_candidateKeys.1 hkey with hin | hdeg
    · obtain ⟨slot, hslot, -⟩ := (hfound key).1 hin
      exact .inr (List.ne_nil_of_mem hslot)
    · exact .inl hdeg
  rw [hall, List.filter_flatMap]
  apply perm_flatMap (Index.candidateKeys_nodup hix hnodup)
    (Partitioned.keys_nodup hr.entries)
  intro key hrows
  obtain ⟨row, hrow⟩ := List.exists_mem_of_ne_nil _ hrows
  obtain ⟨hrow, htakes⟩ := List.mem_filter.1 hrow
  refine iff_of_true (Index.mem_candidateKeys.2 ?_) ((Region.mem_keys_iff hr).2 ?_)
  · rw [hfound key]
    exact ((hs key).candidate_of_row hix ha hq hp hf hrow htakes).symm
  · rw [Region.mem_rowsAt hrow]
    simp

/-- The plan of a query as a scan. -/
def Query.scanPlan (q : Query) (r : Region) : Except Error Plan := { q with hint := none }.plan false r

/-- **After any run of complete operations of a synchronous region, a query through an index gives the rows
of its scan whose values the index can project, each as often, and both in order where an order is asked
for.** -/
theorem Query.index_agrees_with_scan {r₀ : Region} (hopen : r₀.Opened)
    (hsync : r₀.settings.maintenance = .synchronous) (actions : List Action)
    (hq : Scope.parse text = .ok q.scope) (hp : q.predicate = some p) {probe : Option Key}
    (hprobe : p.probe = .ok probe) {optimize : Bool} {plan : Plan}
    (hplan : q.plan optimize (r₀.after actions) = .ok plan) {id : IndexId} {name : String} {op : Comparison}
    (hroot : plan.root = .indexScan id name op coverage) :
    ∃ ix scan rows scanned, (r₀.after actions).registry.index? id = some ix ∧
      q.scanPlan (r₀.after actions) = .ok scan ∧ scan.root = .scan (r₀.after actions).path ∧
      (quietQueries.execute q plan (r₀.after actions)).1 = .ok ⟨rows, plan⟩ ∧
      (quietQueries.execute q scan (r₀.after actions)).1 = .ok ⟨scanned, scan⟩ ∧
      rows.Perm (scanned.filter ix.takes) ∧
      (q.order.isSome = true → rows.Pairwise (fun a b => a.orderBySortKey b = true) ∧
        scanned.Pairwise fun a b => a.orderBySortKey b = true) := by
  obtain ⟨hsteady, hserved⟩ := hopen.served hsync actions
  have hindexed := hopen.indexed actions
  generalize r₀.after actions = r at *
  obtain ⟨hsort, hchosen⟩ := plan_spec hp hplan
  obtain ⟨rfl, ix, hpub, ha⟩ := hchosen id name op coverage hroot
  obtain ⟨htarget, hix⟩ := hsteady.registry.mem_published hpub
  obtain ⟨hwf, hlive⟩ := hsteady.registry.index htarget hix
  obtain ⟨scan, hscan, hscanRoot, hscanSort⟩ : ∃ scan, q.scanPlan r = .ok scan ∧ scan.root = .scan r.path ∧
      scan.sort = q.order.isSome := by
    refine ⟨_, by simp only [scanPlan, Query.plan, hp]; rfl, rfl, rfl⟩
  have hpath : q.scope.regionPath = r.path := by
    rw [← hindexed id htarget ix hix]
    exact (Index.Answers.regionPath ha).symm
  obtain ⟨f, hf⟩ : ∃ f, q.makeFilter = .ok f := ⟨_, by simp only [makeFilter, hp, hprobe]; rfl⟩
  obtain ⟨-, hfprobe, -⟩ := makeFilter_spec hp hf
  have hgrounded : ∀ k ∈ f.probe, k.Grounded := fun k hk => Key.grounded_ofValue (hk ▸ hfprobe)
  obtain ⟨found, hfound, hnodup, hmem⟩ := Index.lookup_spec hwf hlive ha.supports hgrounded
  refine ⟨ix, scan, _, _, hix, hscan, hscanRoot,
    execute_indexScan hsteady.sound hpath hf hroot hix hfound, execute_scan hsteady.sound hpath hf hscanRoot,
    ?_, fun ho => ⟨Plan.arrange_sorted (hsort.trans ho) _, Plan.arrange_sorted (hscanSort.trans ho) _⟩⟩
  have hperm := candidate_rows_perm hsteady.sound hwf ha (hserved id htarget ix hix) hq hp hf hnodup hmem
  exact ((plan.arrange_perm _).trans hperm).trans ((scan.arrange_perm _).filter ix.takes).symm

end Agreement

/-! ## Two entries, of which one is not projected -/

def twoOnes : Value := .map [("xs", .list [.integer 1, .integer 1])]

def elementsRun : List Action :=
  [.createIndex elementsDefinition, .put (.int 1) numberAndMap, .put (.int 2) twoOnes]

def elementsRegion : Region := (Region.blank .synchronous).after elementsRun

theorem Query.index_agrees_with_scan_elements :
    ∃ plan, onesQuery.plan true elementsRegion = .ok plan ∧
      plan.root = .indexScan 0 "elements" .eq .exact ∧ ∃ ix rows scan scanned,
        (quietQueries.execute onesQuery plan elementsRegion).1 = .ok ⟨rows, plan⟩ ∧
        (quietQueries.execute onesQuery scan elementsRegion).1 = .ok ⟨scanned, scan⟩ ∧
        rows.Perm (scanned.filter (Index.takes ix)) := by
  have hq : Scope.parse "/r p, p.xs x".toList = .ok onesQuery.scope := rfl
  have hprobe : onesPredicate.probe = .ok (some (.int 1)) := rfl
  obtain ⟨plan, hplan, hroot⟩ : ∃ plan, onesQuery.plan true elementsRegion = .ok plan ∧
      plan.root = .indexScan 0 "elements" .eq .exact := ⟨_, rfl, rfl⟩
  obtain ⟨ix, scan, rows, scanned, -, -, -, hrows, hscanned, hperm, -⟩ :=
    index_agrees_with_scan (Region.opened_blank .synchronous) rfl elementsRun hq rfl hprobe hplan hroot
  exact ⟨plan, hplan, hroot, ix, rows, scan, scanned, hrows, hscanned, hperm⟩

end IndexedStore
