import IndexedStore.Proofs.Query.Agreement
import IndexedStore.Proofs.Region.Filling

/-!
# Mutations while a query runs

An observer of a query can mutate the region at its start, before the index is looked up, and after that. A `Script`
is such an observer, and its `passage` the regions that the query goes through. Values are read last, so every row is
a current one. `QueryExecutor::candidates` reads the index twice: the look-up finds the keys that are mapped, and the
degraded keys are read after the observer was told of the look-up. Between the two a degraded key can become mapped,
and then is in neither; a key that matches all the while is missed exactly in that case (`Query.rows_amid_mutations`).
-/

namespace IndexedStore

/-- An observer that runs complete mutations before a query has its rows, and anything afterwards. -/
structure Script where
  started : Query → Region → List Mutation
  beforeLookup : Index → Comparison → Option Key → Region → List Mutation
  afterLookup : Index → Lookup → Region → List Mutation
  ended : Query → Nat → Region → Region

/-- The regions between complete mutations, from the first to the last. -/
def Region.trail (r : Region) : List Mutation → List Region
  | [] => [r]
  | m :: rest => r :: (quiet.mutate r m).trail rest

theorem Region.mutated_mem_trail (r : Region) (mutations : List Mutation) :
    r.mutated mutations ∈ r.trail mutations := by
  induction mutations generalizing r with
  | nil => exact List.mem_singleton.2 rfl
  | cons m rest ih => exact List.mem_cons_of_mem _ (ih (quiet.mutate r m))

/-- What a query through an index passes through. -/
structure Passage where
  /-- The region as the index is looked up. -/
  looked : Region
  /-- The region as the degraded keys and then the values are read. -/
  read : Region
  /-- The region at every moment. -/
  moments : List Region

namespace Script

/-- A region that a script observes the queries of. -/
def host (script : Script) : QueryHost Region :=
  { quiet with observer := fun _ => {
      started := fun q r => r.mutated (script.started q r)
      beforeLookup := fun ix op probe r => r.mutated (script.beforeLookup ix op probe r)
      afterLookup := fun ix found r => r.mutated (script.afterLookup ix found r)
      ended := script.ended } }

/-- The passage of a query that looks an index up. -/
def passage (script : Script) (q : Query) (id : IndexId) (op : Comparison) (probe : Option Key) (r : Region) :
    Passage :=
  let first := script.started q r
  let begun := r.mutated first
  let second := script.beforeLookup (script.host.index id begun) op probe begun
  let looked := begun.mutated second
  let (outcome, found) := looked.lookupIndex id op probe
  let third := match outcome with
    | .ok keys => script.afterLookup (script.host.index id found) keys found
    | .error _ => []
  { looked := looked
    read := found.mutated third
    moments := r.trail first ++ begun.trail second ++ found.trail third }

variable (script : Script) (q : Query) (id : IndexId) (op : Comparison) (probe : Option Key) (r : Region)

theorem looked_mem_moments :
    (script.passage q id op probe r).looked ∈ (script.passage q id op probe r).moments :=
  List.mem_append_left _ (List.mem_append_right _ (Region.mutated_mem_trail _ _))

theorem read_mem_moments : (script.passage q id op probe r).read ∈ (script.passage q id op probe r).moments :=
  List.mem_append_right _ (Region.mutated_mem_trail _ _)

end Script

/-! ## The index while a query runs -/

/-- Counting a look-up does not disturb what is kept up. -/
theorem Region.Following.counted {r : Region} {id : IndexId} {c : CompiledDefinition}
    {published : List IndexId} {due : Key → Prop} (h : r.Following id c published due) :
    (r.withRegistry (r.registry.modify id Index.countLookup)).Following id c published due := by
  obtain ⟨ix, hix, hc, hall⟩ := h.index
  refine ⟨⟨h.sound.withRegistry _, h.registry.modify fun ix hix => ⟨hix.counted _, rfl⟩, h.live, h.unlocked⟩,
    h.synchronous, h.target, h.shown, ix.countLookup, ?_, hc, ?_⟩
  · rw [registry_withRegistry, Registry.index?_modify, if_pos rfl, hix]
    rfl
  · intro key
    exact (hall key).imp_left fun ha => ha.congr rfl rfl Iff.rfl

section Passage

variable {script : Script} {q : Query} {f : Filter} {plan : Plan} {id : IndexId} {name : String}
  {op : Comparison} {coverage : Coverage} {r : Region} {ix ix' : Index} {found : Lookup}

/-- The region in which the degraded keys are read follows the one in which the index was looked up. -/
theorem Script.read_eq (hix : (script.passage q id op f.probe r).looked.registry.index? id = some ix)
    (hfound : ix.lookup op f.probe = .ok found) :
    ∃ third, (script.passage q id op f.probe r).read =
      ((script.passage q id op f.probe r).looked.withRegistry
        ((script.passage q id op f.probe r).looked.registry.modify id Index.countLookup)).mutated third := by
  simp only [passage] at hix ⊢
  rw [Region.lookupIndex_spec hix hfound]
  exact ⟨_, rfl⟩

/-- A query gives the rows of the candidates, as they are when the degraded keys are read. -/
theorem Script.execute_spec (hpath : q.scope.regionPath = r.path) (hf : q.makeFilter = .ok f)
    (hroot : plan.root = .indexScan id name op coverage)
    (hix : (script.passage q id op f.probe r).looked.registry.index? id = some ix)
    (hfound : ix.lookup op f.probe = .ok found)
    (hix' : (script.passage q id op f.probe r).read.registry.index? id = some ix')
    (hsound : (script.passage q id op f.probe r).read.Sound) :
    (script.host.execute q plan r).1 = .ok ⟨plan.arrange ((ix'.candidateKeys found).flatMap
      ((script.passage q id op f.probe r).read.rowsAt f q.scope)), plan⟩ := by
  have hrows := (Region.collectRows_spec hsound f q.scope (ix'.candidateKeys found)).1
  -- the candidates are taken from the index as it is when the degraded keys are read
  have hcandidates : script.host.candidates (script.host.observer r) id op f.probe
      (r.mutated (script.started q r)) = (.ok (ix'.candidateKeys found),
        (script.passage q id op f.probe r).read) := by
    simp only [passage] at hix hix' ⊢
    rw [Region.lookupIndex_spec hix hfound] at hix' ⊢
    simp only at hix' ⊢
    unfold QueryHost.candidates
    have hlook : script.host.run (·.lookupIndex id op f.probe)
        ((script.host.observer r).beforeLookup (script.host.index id (r.mutated (script.started q r))) op f.probe
          (r.mutated (script.started q r))) = _ := Region.lookupIndex_spec hix hfound
    simp only [hlook]
    have hindex : script.host.index id _ = ix' := congrArg (·.getD default) hix'
    refine Prod.ext ?_ rfl
    exact congrArg (fun ix : Index => Except.ok (ix.candidateKeys found)) hindex
  have hcollect : script.host.collect (script.host.observer r) q plan f (r.mutated (script.started q r)) =
      (script.passage q id op f.probe r).read.collectRows f q.scope (ix'.candidateKeys found) := by
    unfold QueryHost.collect
    simp only [hroot, hcandidates]
    rfl
  unfold QueryHost.execute
  rw [show (script.host.region r).path = r.path from rfl, if_neg (not_not.2 hpath), hf]
  simp only [show (script.host.observer r).started q r = r.mutated (script.started q r) from rfl, hcollect,
    hrows]
  rfl

end Passage

/-! ## Rows -/

/-- The values that a query selects: those whose scope is iterated to its end and has a tuple that satisfies
the predicate. -/
def Query.Matches (q : Query) (p : Predicate) (probe : Option Key) (v : Value) : Prop :=
  (q.scope.tuples v).fault = none ∧
    ∃ tuple ∈ (q.scope.tuples v).tuples, p.holds (q.scope.resolve p.path) probe tuple = true

section Rows

variable {q : Query} {p : Predicate} {f : Filter} {r : Region} {key : Key}

theorem Filter.rowsOf_ne_nil_iff_matches (hp : q.predicate = some p) (hf : q.makeFilter = .ok f) {v : Value} :
    f.rowsOf q.scope key v ≠ [] ↔ q.Matches p f.probe v := by
  obtain ⟨hpred, -, -⟩ := Query.makeFilter_spec hp hf
  rw [Filter.rowsOf_ne_nil, Query.Matches]
  simp only [Filter.holds, hpred]

/-- A row is one of a value that matches, at its own key. -/
theorem Region.matches_of_row (hp : q.predicate = some p) (hf : q.makeFilter = .ok f) {row : Row}
    (h : row ∈ r.rowsAt f q.scope key) :
    row.key = key ∧ r.current key = some row.value ∧ q.Matches p f.probe row.value := by
  have hv := mem_rowsAt h
  unfold rowsAt at h
  rw [hv] at h
  exact ⟨(Filter.mem_rowsOf h).1, hv, (Filter.rowsOf_ne_nil_iff_matches hp hf).1 (List.ne_nil_of_mem h)⟩

/-- A value that matches makes a row. -/
theorem Region.row_of_matches (hp : q.predicate = some p) (hf : q.makeFilter = .ok f) {v : Value}
    (hv : r.current key = some v) (hm : q.Matches p f.probe v) : ∃ row ∈ r.rowsAt f q.scope key, row.key = key := by
  have hne : r.rowsAt f q.scope key ≠ [] := by
    simp only [rowsAt, hv]
    exact (Filter.rowsOf_ne_nil_iff_matches hp hf).2 hm
  obtain ⟨row, hrow⟩ := List.exists_mem_of_ne_nil _ hne
  exact ⟨row, hrow, (matches_of_row hp hf hrow).1⟩

/-- Whether an index can answer is a matter of its definition. -/
theorem Index.Answers.congr {ix ix' : Index} {coverage : Coverage} (h : ix.Answers q p coverage)
    (hc : ix'.compiled = ix.compiled) : ix'.Answers q p coverage where
  covers := covers_eq_ok_iff.2 (hc ▸ covers_eq_ok_iff.1 h.covers)
  path := by simpa only [indexesPath, hc] using h.path
  supports := by simpa only [kind, hc] using h.supports

/-- A look-up finds a key whose value matches and can be projected, unless the key is degraded. -/
theorem Index.Accounts.found_iff {ix : Index} {coverage : Coverage} {text : List Char} {v : Value}
    {slots : List Slot} (h : ix.Accounts key (some v)) (hix : ix.WF) (ha : ix.Answers q p coverage)
    (hq : Scope.parse text = .ok q.scope) (hp : q.predicate = some p) (hf : q.makeFilter = .ok f)
    (hproject : ix.project v = .ok slots) (hm : q.Matches p f.probe v) :
    (∃ slot ∈ ix.slotsAt key, p.comparison.holds slot.key? f.probe = true) ↔ key ∉ ix.degraded := by
  obtain ⟨d, hd⟩ := hix.compiled
  cases h with
  | mapped hok hfree =>
    refine iff_of_true ?_ hfree
    have hrows : f.rowsOf q.scope key v ≠ [] := (Filter.rowsOf_ne_nil_iff_matches hp hf).2 hm
    obtain ⟨-, t, ht, slot, hslot, hcmp⟩ := Index.slot_of_row hd hq ha.covers ha.path hp hf hrows
    obtain ⟨slot', hmem, hslot'⟩ := slot_of_tuple (slotsOfValue_eq_ok_iff.1 hok).2 ht
    obtain rfl := Except.ok.inj (hslot.symm.trans hslot')
    exact ⟨slot, hmem, hcmp⟩
  | refused _ _ _ hs hd =>
    refine iff_of_false ?_ (not_not.2 hd)
    simp [hs]
  | excluded hfault =>
    rw [show ix.project v = .error _ from hfault] at hproject
    cases hproject

end Rows

/-- **A query that other callers interfere with.** Its rows are of values that match, and are the values of
their keys as they are read last. A key whose value, whatever it is at each moment, matches and can be
projected by the index has a row, unless the index had it degraded as it was looked up and has it mapped as
the degraded keys are read. Only a primary-key index ever has a degraded key. -/
theorem Query.rows_amid_mutations {r₀ : Region} {text : List Char} {q : Query} {p : Predicate}
    {coverage : Coverage} (hopen : r₀.Opened) (hsync : r₀.settings.maintenance = .synchronous)
    (actions : List Action) (hq : Scope.parse text = .ok q.scope) (hp : q.predicate = some p)
    {probe : Option Key} (hprobe : p.probe = .ok probe) {optimize : Bool} {plan : Plan}
    (hplan : q.plan optimize (r₀.after actions) = .ok plan) {id : IndexId} {name : String} {op : Comparison}
    (hroot : plan.root = .indexScan id name op coverage) (script : Script) :
    ∃ looked read rows,
      (script.passage q id op probe (r₀.after actions)).looked.registry.index? id = some looked ∧
      (script.passage q id op probe (r₀.after actions)).read.registry.index? id = some read ∧
      (script.host.execute q plan (r₀.after actions)).1 = .ok ⟨rows, plan⟩ ∧
      (∀ row ∈ rows, q.Matches p probe row.value ∧
        ∃ moment ∈ (script.passage q id op probe (r₀.after actions)).moments,
          (moment.readValue row.key).1 = .ok (some row.value)) ∧
      (∀ key, (∀ moment ∈ (script.passage q id op probe (r₀.after actions)).moments, ∃ v slots,
          (moment.readValue key).1 = .ok (some v) ∧ looked.project v = .ok slots ∧ q.Matches p probe v) →
        ((∃ row ∈ rows, row.key = key) ↔ ¬ (key ∈ looked.degraded ∧ key ∉ read.degraded))) ∧
      (looked.kind ≠ .primaryKey → ∀ key, key ∉ looked.degraded) := by
  obtain ⟨hsteady, hsync', haccounted⟩ := hopen.accounted hsync actions
  have hindexed := hopen.indexed actions
  generalize r₀.after actions = r at *
  obtain ⟨-, hchosen⟩ := plan_spec hp hplan
  obtain ⟨rfl, ix, hpub, ha⟩ := hchosen id name op coverage hroot
  obtain ⟨htarget, hix⟩ := hsteady.registry.mem_published hpub
  have hpath : q.scope.regionPath = r.path := by
    rw [← hindexed id htarget ix hix]
    exact (Index.Answers.regionPath ha).symm
  obtain ⟨f, hf⟩ : ∃ f, q.makeFilter = .ok f := ⟨_, by simp only [makeFilter, hp, hprobe]; rfl⟩
  obtain ⟨-, hfprobe, -⟩ := makeFilter_spec hp hf
  obtain rfl : f.probe = probe := Except.ok.inj (hfprobe.symm.trans hprobe)
  have hgrounded : ∀ k ∈ f.probe, k.Grounded := fun k hk => Key.grounded_ofValue (hk ▸ hfprobe)
  -- the index as it is looked up
  have hlooked : (script.passage q id p.comparison f.probe r).looked.Following id ix.compiled
      r.registry.published fun _ => False := ((haccounted.following hsteady hsync' htarget hix).mutated _).mutated _
  have hlookedMem := script.looked_mem_moments q id p.comparison f.probe r
  obtain ⟨looked, hlookedIx, hlookedC, hlookedAll⟩ := hlooked.accounts
  have hanswers := ha.congr hlookedC
  obtain ⟨hwf, hlive⟩ := hlooked.registry.index hlooked.target hlookedIx
  obtain ⟨found, hfound, -, hmem⟩ := Index.lookup_spec hwf hlive hanswers.supports hgrounded
  -- the index as its degraded keys are read
  obtain ⟨third, hthird⟩ := Script.read_eq hlookedIx hfound
  have hread : (script.passage q id p.comparison f.probe r).read.Following id ix.compiled
      r.registry.published fun _ => False := by
    rw [hthird]
    exact hlooked.counted.mutated third
  have hreadMem := script.read_mem_moments q id p.comparison f.probe r
  obtain ⟨read, hreadIx, -, -⟩ := hread.accounts
  have hexecute := Script.execute_spec hpath hf hroot hlookedIx hfound hreadIx hread.sound
  generalize script.passage q id p.comparison f.probe r = passage at *
  have hrows : ∀ row, row ∈ plan.arrange ((read.candidateKeys found).flatMap (passage.read.rowsAt f q.scope)) ↔
      ∃ key ∈ read.candidateKeys found, row ∈ passage.read.rowsAt f q.scope key := fun row =>
    (plan.arrange_perm _).mem_iff.trans List.mem_flatMap
  refine ⟨looked, read, _, hlookedIx, hreadIx, hexecute, ?_, ?_, fun hk key hd => hk (hwf.refused key hd).1⟩
  · intro row hrow
    obtain ⟨key, -, hrow⟩ := (hrows row).1 hrow
    obtain ⟨rfl, hv, hmatches⟩ := Region.matches_of_row hp hf hrow
    refine ⟨hmatches, passage.read, hreadMem, ?_⟩
    rw [(Region.readValue_spec hread.sound row.key).1, hv]
  · intro key hstable
    have current : ∀ {moment : Region}, moment.Sound → ∀ {v : Value},
        (moment.readValue key).1 = .ok (some v) → moment.current key = some v := fun hsound v hv =>
      Except.ok.inj ((Region.readValue_spec hsound key).1.symm.trans hv)
    obtain ⟨v, slots, hv, hproject, hmatches⟩ := hstable _ hlookedMem
    have haccounts := hlookedAll key
    rw [current hlooked.sound hv] at haccounts
    have hfoundKey := haccounts.found_iff hwf hanswers hq hp hf hproject hmatches
    rw [← hmem key] at hfoundKey
    have hcandidate : key ∈ read.candidateKeys found ↔ ¬ (key ∈ looked.degraded ∧ key ∉ read.degraded) := by
      rw [Index.mem_candidateKeys, hfoundKey]
      tauto
    rw [← hcandidate]
    constructor
    · rintro ⟨row, hrow, rfl⟩
      obtain ⟨key, hkey, hrow⟩ := (hrows row).1 hrow
      rwa [(Region.matches_of_row hp hf hrow).1]
    · intro hkey
      obtain ⟨v, slots, hv, -, hmatches⟩ := hstable _ hreadMem
      obtain ⟨row, hrow, hrowKey⟩ := Region.row_of_matches hp hf (current hread.sound hv) hmatches
      exact ⟨row, (hrows row).2 ⟨key, hkey, hrow⟩, hrowKey⟩

/-! ## A key mapped between the two readings -/

def valuesScope : Scope := ⟨"/r", "/r", [⟨none, none⟩]⟩

/-- The entries whose field is one. -/
def valuesQuery : Query := ⟨valuesScope, some ⟨⟨"v", ["v"]⟩, .eq, .integer 1⟩, none, none⟩

/-- Two keys of one value, of which the second is degraded. -/
def contested : Region := (Region.blank .synchronous).after
  [.createIndex Region.ownerDefinition, .put (.int 1) (valued 1), .put (.int 2) (valued 1)]

/-- After the look-up the owner of the value goes, and the other key is put as it was. -/
def takeover : Script where
  started _ _ := []
  beforeLookup _ _ _ _ := []
  afterLookup _ _ _ := [.destroy (.int 1), .put (.int 2) (valued 1)]
  ended _ _ r := r

theorem Query.rows_amid_mutations_missed :
    ∃ plan rows, valuesQuery.plan true contested = .ok plan ∧
      plan.root = .indexScan 0 "owners" .eq .exact ∧
      (∀ moment ∈ (takeover.passage valuesQuery 0 .eq (some (.int 1)) contested).moments,
        (moment.readValue (.int 2)).1 = .ok (some (valued 1))) ∧
      (takeover.host.execute valuesQuery plan contested).1 = .ok ⟨rows, plan⟩ ∧
      ¬ ∃ row ∈ rows, row.key = .int 2 := by
  have hq : Scope.parse "/r".toList = .ok valuesQuery.scope := rfl
  have hprobe : Predicate.probe ⟨⟨"v", ["v"]⟩, .eq, .integer 1⟩ = .ok (some (.int 1)) := rfl
  obtain ⟨plan, hplan, hroot⟩ : ∃ plan, valuesQuery.plan true contested = .ok plan ∧
      plan.root = .indexScan 0 "owners" .eq .exact := ⟨_, rfl, rfl⟩
  obtain ⟨looked, read, rows, hlooked, hread, hrows, -, hall, -⟩ :=
    rows_amid_mutations (Region.opened_blank .synchronous) rfl
      [.createIndex Region.ownerDefinition, .put (.int 1) (valued 1), .put (.int 2) (valued 1)]
      hq rfl hprobe hplan hroot takeover
  have hvalues : ∀ moment ∈ (takeover.passage valuesQuery 0 .eq (some (.int 1)) contested).moments,
      (moment.readValue (.int 2)).1 = .ok (some (valued 1)) := by
    have hall : (takeover.passage valuesQuery 0 .eq (some (.int 1)) contested).moments.map
        (fun moment => (moment.readValue (.int 2)).1) = List.replicate 5 (.ok (some (valued 1))) := rfl
    intro moment hm
    exact (List.mem_replicate.1 (hall ▸ List.mem_map_of_mem hm)).2
  refine ⟨plan, rows, hplan, hroot, hvalues, hrows, ?_⟩
  obtain rfl := Option.some.inj hlooked
  obtain rfl := Option.some.inj hread
  have hmatches : valuesQuery.Matches ⟨⟨"v", ["v"]⟩, .eq, .integer 1⟩ (some (.int 1)) (valued 1) :=
    ⟨rfl, [valued 1], List.mem_singleton.2 rfl, rfl⟩
  rw [hall (.int 2) fun moment hm => ⟨valued 1, [.defined (.int 1)], hvalues moment hm, rfl, hmatches⟩]
  exact not_not.2 ⟨List.mem_singleton.2 rfl, List.not_mem_nil⟩

end IndexedStore
