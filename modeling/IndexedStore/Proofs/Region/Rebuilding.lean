import IndexedStore.Proofs.Index.Alike
import IndexedStore.Proofs.Query.Agreement

/-!
# Incremental maintenance and rebuilding

In a synchronous region an index that is not a primary-key index keeps exactly the slots of the current
values, and so does one that is built anew over the final contents. `Opened.rebuilds` says what follows for
all that can be observed of the two: look-ups, look-ups between bounds, and counts. They differ in one point.
A range index that was emptied still looks at the bounds of a search, and refuses improper ones where the new
one finds nothing; no key that was built from a value leads to such (`Opened.emptied_refuses`).
-/

namespace IndexedStore

/-- An index that is filled only grows. -/
theorem Index.grown_filled {ix : Index} (h : ix.WF) (hg : ix.store.Grown) (value : Key → Option Value)
    {keys : List Key} (hn : keys.Nodup) (hnone : ∀ key ∈ keys, ix.slotsAt key = []) :
    (ix.filled value keys).store.Grown := by
  induction keys generalizing ix with
  | nil => exact hg
  | cons key rest ih =>
    obtain ⟨hkey, hrest⟩ := List.nodup_cons.1 hn
    have hnone' : ∀ k ∈ rest, ix.slotsAt k = [] := fun k hk => hnone k (List.mem_cons_of_mem _ hk)
    rw [filled, List.foldl_cons]
    cases value key with
    | none => exact ih h hg hrest hnone'
    | some v =>
      obtain ⟨hwf, -, hchanged⟩ := maintain_spec h key (some v)
      refine ih hwf (grown_maintain hg (hnone key (by simp)) (some v)) hrest fun k hk => ?_
      rw [hchanged.slots k fun he => hkey (he ▸ hk)]
      exact hnone' k hk


namespace Registry

/-- In a registry with nothing in it nothing is in the way of a definition. -/
theorem conflict?_empty (maintenance : Maintenance) (region : String) (c : CompiledDefinition) :
    (empty maintenance).conflict? region c = none := rfl

end Registry

namespace Region

variable {r : Region}

/-- A definition of an index on the region can be begun when there is no index. -/
theorem beginIndex_empty {maintenance : Maintenance} (hg : r.registry = .empty maintenance)
    {c : CompiledDefinition} (hc : c.definition.compile = .ok c) (hp : c.regionPath = r.path) :
    ∃ r₁, r.beginIndex c.definition = .ok (0, r₁) := by
  unfold beginIndex
  simp only [hc, hp, hg, Registry.conflict?_empty, ne_eq, not_true_eq_false, if_false]
  exact ⟨_, rfl⟩

/-- The slots that an index projects of the entries of a region, entry by entry. -/
def projections (r : Region) (ix : Index) : List Slot := r.keys.flatMap fun key => ix.projected (r.current key)

/-- The entries of a region that an index has slots of. -/
def projectedEntries (r : Region) (ix : Index) : List Key :=
  r.keys.filter fun key => ix.projected (r.current key) ≠ []

/-- An index that keeps the slots of every value counts what it projects. -/
theorem counts_projections (h : r.Sound) {ix : Index} (hwf : ix.WF)
    (hslots : ∀ key, ix.slotsAt key = ix.projected (r.current key)) :
    ix.counts = ((r.projections ix).dedup.length, (r.projections ix).length) ∧
      ix.entryCount = (r.projectedEntries ix).length := by
  have hw : ix.Within r.keys := by
    refine ⟨Partitioned.keys_nodup h.entries, fun key hne => (mem_keys_iff h).2 fun hnone => hne ?_⟩
    rw [hslots, hnone, Index.projected_none]
  have hslots' : r.projections ix = r.keys.flatMap ix.slotsAt := List.flatMap_congr fun key _ => (hslots key).symm
  have hentries : r.projectedEntries ix = r.keys.filter fun key => ix.slotsAt key ≠ [] :=
    List.filter_congr fun key _ => by rw [hslots]
  rw [hslots', hentries]
  exact ⟨Index.counts_spec hwf hw, Index.entryCount_spec hwf hw⟩

/-- An index rebuilt from the contents alone. -/
theorem Steady.rebuild (h : r.Steady) {c : CompiledDefinition} (hc : c.definition.compile = .ok c)
    (hp : c.regionPath = r.path) (hkind : c.kind ≠ .primaryKey) :
    ∃ rebuilt r', quiet.createIndex c.definition (r.withRegistry (.empty .synchronous)) = (.ok 0, r') ∧
      (0, rebuilt) ∈ r'.registry.publishedIndexes ∧ rebuilt.WF ∧ rebuilt.state = .ready ∧
      rebuilt.compiled = c ∧ (∀ key, rebuilt.slotsAt key = rebuilt.projected (r.current key)) ∧
      rebuilt.store.Grown := by
  let bare := r.withRegistry (.empty .synchronous)
  obtain ⟨r₁, hbegin⟩ := beginIndex_empty (r := bare) rfl hc hp
  have hbare : bare.Sound := h.sound.withRegistry _
  obtain ⟨c', report, r', hc', -, -, -, hcreate⟩ := createIndex_fills hbare h.live h.unlocked hbegin
  obtain rfl : c' = c := Except.ok.inj (hc'.symm.trans hc)
  obtain ⟨hwf, hcompiled, hserves⟩ := filled_serves hbare hc
  let filled := (bare.newIndex c').filled bare.current bare.keys
  have hgrown : filled.store.Grown := Index.grown_filled (bare.wf_newIndex hc) (SlotStore.grown_empty _ _ _ _)
    bare.current (Partitioned.keys_nodup h.sound.entries) fun _ _ => rfl
  refine ⟨{ filled with build := report, state := .ready }, _, hcreate, List.mem_singleton.2 rfl,
    hwf.readied report, rfl, hcompiled, fun key => ?_, hgrown⟩
  have hk : filled.kind ≠ .primaryKey := by rw [Index.kind, hcompiled]; exact hkind
  exact (hwf.serves_iff hk).1 (hserves key)

/-- **Maintenance equals rebuilding.** After any run of complete operations of a synchronous region, take a
published range or hash index, and an index of its definition that is created over the final contents alone.
The new index repeats every look-up, with any comparison and any probe, and every look-up between bounds; for
keys of values, which are not below the floor of their class, both are answered. The two have the same entries
and the same counts: those of all slots that they project of the final contents, and of the different ones
among these. -/
theorem Opened.rebuilds {r₀ : Region} (hopen : r₀.Opened) (hsync : r₀.settings.maintenance = .synchronous)
    (actions : List Action) {id : IndexId} {ix : Index}
    (hpub : (id, ix) ∈ (r₀.after actions).registry.publishedIndexes) (hkind : ix.kind ≠ .primaryKey) :
    ∃ rebuilt r', quiet.createIndex ix.compiled.definition
        ((r₀.after actions).withRegistry (.empty .synchronous)) = (.ok 0, r') ∧
      (0, rebuilt) ∈ r'.registry.publishedIndexes ∧
      (∀ op probe, Repeats Error.Improper (ix.lookup op probe) (rebuilt.lookup op probe) ∧
        (ix.kind.supports op = true → (∀ p ∈ probe, p.Grounded) → ∃ x y, ix.lookup op probe = .ok x ∧
          rebuilt.lookup op probe = .ok y ∧ ∀ key, key ∈ y.keys ↔ key ∈ x.keys)) ∧
      (∀ lower upper, Repeats Error.Improper (ix.lookupRange lower upper) (rebuilt.lookupRange lower upper) ∧
        (ix.kind = .range → (∀ k ∈ lower.key?, k.Grounded) → (∀ k ∈ upper.key?, k.Grounded) →
          ∃ x y, ix.lookupRange lower upper = .ok x ∧ rebuilt.lookupRange lower upper = .ok y ∧
            ∀ key, key ∈ y.keys ↔ key ∈ x.keys)) ∧
      (ix.entryCount = ((r₀.after actions).projectedEntries ix).length ∧
        rebuilt.entryCount = ((r₀.after actions).projectedEntries ix).length) ∧
      ix.counts = (((r₀.after actions).projections ix).dedup.length, ((r₀.after actions).projections ix).length) ∧
      rebuilt.counts =
        (((r₀.after actions).projections ix).dedup.length, ((r₀.after actions).projections ix).length) := by
  obtain ⟨hsteady, hserved⟩ := hopen.served hsync actions
  have hindexed := hopen.indexed actions
  generalize r₀.after actions = r at *
  obtain ⟨htarget, hix⟩ := hsteady.registry.mem_published hpub
  obtain ⟨hwf, hlive⟩ := hsteady.registry.index htarget hix
  have hslots : ∀ key, ix.slotsAt key = ix.projected (r.current key) := fun key =>
    (hwf.serves_iff hkind).1 (hserved id htarget ix hix key)
  -- the definition can be compiled and begun again
  have hdefinition : ix.compiled.definition.compile = .ok ix.compiled := by
    obtain ⟨d, hd⟩ := hwf.compiled
    rw [(IndexDefinition.compile_spec hd).1]
    exact hd
  obtain ⟨rebuilt, r', hcreate, hmem, hrebuilt, hready, hrebuiltC, hrebuiltSlots, hgrown⟩ :=
    hsteady.rebuild hdefinition (hindexed id htarget ix hix) hkind
  have hready : rebuilt.state ≠ .removed := by simp [hready]
  have hprojected : ∀ value, rebuilt.projected value = ix.projected value := Index.projected_congr hrebuiltC
  have hsameSlots : ∀ key, rebuilt.slotsAt key = ix.slotsAt key := fun key => by
    rw [hslots, hrebuiltSlots, hprojected]
  have hlookups := Index.lookup_repeats hwf hrebuilt hlive hready hrebuiltC hsameSlots hgrown
  have hranges := Index.lookupRange_repeats hwf hrebuilt hlive hready hrebuiltC hsameSlots hgrown
  obtain ⟨hcounts, hentries⟩ := counts_projections hsteady.sound hwf hslots
  obtain ⟨hcounts', hentries'⟩ := counts_projections hsteady.sound hrebuilt hrebuiltSlots
  simp only [projections, projectedEntries, hprojected] at hcounts' hentries'
  refine ⟨rebuilt, r', hcreate, hmem, fun op probe => ⟨hlookups op probe, ?_⟩, fun lower upper =>
    ⟨hranges lower upper, ?_⟩, ⟨hentries, hentries'⟩, hcounts, hcounts'⟩
  · intro hop hp
    obtain ⟨found, hfound, -, -⟩ := Index.lookup_spec hwf hlive hop hp
    exact (hlookups op probe).of_isOk ⟨found, hfound⟩
  · intro hk hl hu
    exact (hranges lower upper).of_isOk (Index.lookupRange_isOk hwf hlive hk hl hu)

/-- An index over the elements of two entries, one of which it cannot project, and the same rebuilt. -/
theorem Opened.rebuilds_elements : ∃ ix rebuilt r',
    (0, ix) ∈ elementsRegion.registry.publishedIndexes ∧
    quiet.createIndex elementsDefinition (elementsRegion.withRegistry (.empty .synchronous)) = (.ok 0, r') ∧
    (0, rebuilt) ∈ r'.registry.publishedIndexes ∧ ix.counts = (1, 2) ∧ rebuilt.counts = (1, 2) ∧
    ∃ x y, ix.lookup .eq (some (.int 1)) = .ok x ∧ rebuilt.lookup .eq (some (.int 1)) = .ok y ∧
      ∀ key, key ∈ y.keys ↔ key ∈ x.keys := by
  let ix := (elementsRegion.registry.index? 0).getD default
  have hpub : (0, ix) ∈ elementsRegion.registry.publishedIndexes := List.mem_singleton.2 rfl
  obtain ⟨rebuilt, r', hcreate, hmem, hlookups, -, -, hcounts, hcounts'⟩ :=
    rebuilds (opened_blank .synchronous) rfl elementsRun hpub (show IndexKind.range ≠ .primaryKey by decide)
  have hgrounded : ∀ p ∈ some (Key.int 1), p.Grounded := fun p hp => by
    rw [← Option.some.inj hp]
    exact Key.grounded_int 1
  exact ⟨ix, rebuilt, r', hpub, hcreate, hmem, hcounts, hcounts', (hlookups .eq _).2 rfl hgrounded⟩

/-! ## A key below the floor of its class -/

def orderedDefinition : IndexDefinition := ⟨"ordered", .range, "v", "/r"⟩

/-- A region whose one entry has come and gone. -/
def emptied : Region :=
  (blank .synchronous).after [.createIndex orderedDefinition, .put (.int 1) (valued 1), .destroy (.int 1)]

/-- A NaN with its sign bit set, which no key of a value is. -/
def belowFloor : Key := .float ⟨0xfff8000000000000⟩

/-- The index of the emptied region refuses a search that the same index, rebuilt, answers with nothing. -/
theorem Opened.emptied_refuses : ∃ ix rebuilt r' fault found,
    (0, ix) ∈ emptied.registry.publishedIndexes ∧ ix.kind.supports .lt = true ∧
    quiet.createIndex ix.compiled.definition (emptied.withRegistry (.empty .synchronous)) = (.ok 0, r') ∧
    (0, rebuilt) ∈ r'.registry.publishedIndexes ∧
    ix.lookup .lt (some belowFloor) = .error (.improperBounds fault) ∧
    rebuilt.lookup .lt (some belowFloor) = .ok found ∧ found.keys = [] :=
  ⟨_, _, _, _, _, List.mem_singleton.2 rfl, rfl, rfl, List.mem_singleton.2 rfl, rfl, rfl, rfl⟩

end Region

end IndexedStore
