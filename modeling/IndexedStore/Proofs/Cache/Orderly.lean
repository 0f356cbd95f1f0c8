import IndexedStore.Proofs.Cache.Batch
import IndexedStore.Proofs.Query.Agreement
import IndexedStore.Proofs.Scope.RegionPath

/-!
# Caches between two operations

Whatever operations have made of an empty cache is orderly: each region of the catalog stands under its own path and
is at rest (`Cache.Orderly.calls`). While an operation on a region goes on, indexes can be filled there; `Region.Busy`
says which, and `Cache.Within` that nothing else is different afterwards.
-/

namespace IndexedStore

namespace Region

variable {r r' : Region} {ids : List IndexId}

/-- A region at rest but for the creation of the indexes in `ids`. -/
structure Busy (ids : List IndexId) (r : Region) : Prop where
  building : r.registry.building.Sublist ids
  begun : ∀ id ∈ ids, id < r.registry.all.length
  published : ∀ id ∈ r.registry.published, id < r.registry.all.length
  pending : ∀ d ∈ r.registry.pending, ∃ c, d.compile = .ok c ∧ c.regionPath = r.path

theorem busy_nil_iff : r.Busy [] ↔ r.AtRest :=
  ⟨fun h => ⟨⟨List.sublist_nil.1 h.building, h.published⟩, h.pending⟩,
    fun h => ⟨List.sublist_nil.2 h.idle.building, by simp, h.idle.published, h.pending⟩⟩

theorem Busy.aside (h : r.Busy ids) (ha : Aside r r') : r'.Busy ids where
  building := by rw [ha.standing.building]; exact h.building
  begun := by rw [ha.standing.size]; exact h.begun
  published := by rw [ha.standing.published, ha.standing.size]; exact h.published
  pending d hd := by
    rw [ha.path]
    exact (ha.pending d hd).elim (h.pending d) id

theorem Busy.congr (h : r.Busy ids) (hpath : r'.path = r.path) (hregistry : r'.registry = r.registry) :
    r'.Busy ids := by
  obtain ⟨hbuilding, hbegun, hpublished, hpending⟩ := h
  exact ⟨by rwa [hregistry], by rwa [hregistry], by rwa [hregistry], by rwa [hregistry, hpath]⟩

/-- A clear leaves nothing to be filled, not even where a creation goes on. -/
theorem Busy.cleared (h : r.Busy ids) (hr : r'.registry = r.registry.cleared) : r'.Busy ids where
  building := by rw [hr]; exact List.nil_sublist ids
  begun := by rw [hr, Registry.size_cleared]; exact h.begun
  published := by rw [hr]; exact fun _ hid => by cases hid
  pending := by rw [hr]; exact fun _ hd => by cases hd

theorem Busy.began (h : r.Busy ids) {d : IndexDefinition} {id : IndexId} (hb : r.beginIndex d = .ok (id, r')) :
    id ∉ ids ∧ r'.Busy (ids ++ [id]) := by
  obtain ⟨c, -, -, rfl, rfl⟩ := beginIndex_spec hb
  have hsize : (r.registry.enter (r.newIndex c)).2.all.length =
      r.registry.all.length + 1 := List.length_append
  refine ⟨fun hid => Nat.lt_irrefl _ (h.begun _ hid), h.building.append_right _, fun id hid => ?_, fun id hid => ?_,
    h.pending⟩
  · rw [registry_withRegistry, hsize]
    rcases List.mem_append.1 hid with hid | hid
    · exact Nat.lt_succ_of_lt (h.begun id hid)
    · rw [List.mem_singleton.1 hid]
      exact Nat.lt_succ_self _
  · rw [registry_withRegistry, hsize]
    exact Nat.lt_succ_of_lt (h.published id hid)

/-- A creation that ends leaves those that were there before it. -/
theorem Busy.ended {id : IndexId} (h : r.Busy (ids ++ [id])) (hid : id ∉ ids) (scanned : Except Error BuildReport) :
    (r.endIndex id scanned).2.Busy ids := by
  have hbuilding : (r.registry.building.erase id).Sublist ids := by
    have herased := h.building.erase id
    rwa [List.erase_append_right _ hid, List.erase_cons_head, List.append_nil] at herased
  have hbegun : ∀ j ∈ ids, j < r.registry.all.length := fun j hj => h.begun j (List.mem_append_left _ hj)
  cases scanned with
  | error e =>
    refine ⟨hbuilding, fun j hj => ?_, fun j hj => ?_, h.pending⟩
    · exact (hbegun j hj).trans_eq Registry.size_abandon.symm
    · exact (h.published j hj).trans_eq Registry.size_abandon.symm
  | ok report =>
    refine ⟨hbuilding, fun j hj => ?_, fun j hj => ?_, h.pending⟩
    · exact (hbegun j hj).trans_eq (Registry.size_publish report).symm
    · rcases List.mem_append.1 hj with hj | hj
      · exact (h.published j hj).trans_eq (Registry.size_publish report).symm
      · rw [List.mem_singleton.1 hj]
        exact (h.begun id (by simp)).trans_eq (Registry.size_publish report).symm

theorem Busy.hidden (h : r.Busy ids) {name : String} {id : IndexId} (hu : r.unpublish name = .ok (id, r')) :
    r'.Busy ids := by
  obtain ⟨-, rfl⟩ := unpublish_spec hu
  exact ⟨h.building, h.begun, fun j hj => h.published j (List.mem_of_mem_erase hj), h.pending⟩

theorem Busy.discarded (h : r.Busy ids) (id : IndexId) : (r.discardIndex id).Busy ids := by
  have hsize : (r.registry.modify id Index.discard).all.length = r.registry.all.length := List.length_modify _ _ _
  exact ⟨h.building, fun j hj => (h.begun j hj).trans_eq hsize.symm,
    fun j hj => (h.published j hj).trans_eq hsize.symm, h.pending⟩

/-! ## Regions at their beginning -/

/-- A region that is made stands under the path of its scope, with no indexes. -/
theorem make_path {seeds : Seeds} {path : String} {settings : Settings} {disk : Option BackingStore}
    (h : make seeds path settings disk = .ok r) : Cache.pathOf path = .ok r.path := by
  unfold make at h
  simp only [bind, Except.bind, pure, Except.pure, throw, throwThe, MonadExceptOf.throw] at h
  unfold Cache.pathOf
  split at h
  · cases h
  · split at h
    · cases h
    · rename_i scope hscope
      rw [hscope, ← Except.ok.inj h]

theorem recoverEntry_indexes (r : Region) (n : Nat) (key : Key) :
    (r.recoverEntry n key).2.path = r.path ∧ (r.recoverEntry n key).2.registry = r.registry := by
  unfold recoverEntry
  split
  · split <;> exact ⟨rfl, rfl⟩
  · exact ⟨rfl, rfl⟩

/-- A region that is recovered is one that was made, but for its entries. -/
theorem recover_indexes {seeds : Seeds} {path : String} {settings : Settings} {disk : BackingStore}
    (h : recover seeds path settings disk = .ok r) :
    ∃ made, make seeds path settings (some disk) = .ok made ∧ r.path = made.path ∧
      r.registry = made.registry := by
  have hfold : ∀ (keys : List Key) (n : Nat) (made : Region),
      (keys.foldl (fun state key => state.2.recoverEntry state.1 key) (n, made)).2.path = made.path ∧
        (keys.foldl (fun state key => state.2.recoverEntry state.1 key) (n, made)).2.registry = made.registry := by
    intro keys
    induction keys with
    | nil => exact fun _ _ => ⟨rfl, rfl⟩
    | cons key rest ih =>
      intro n made
      obtain ⟨hpath, hregistry⟩ := ih (made.recoverEntry n key).1 (made.recoverEntry n key).2
      obtain ⟨hpath', hregistry'⟩ := recoverEntry_indexes made n key
      exact ⟨hpath.trans hpath', hregistry.trans hregistry'⟩
  unfold recover at h
  split at h
  · cases h
  · split at h
    · cases h
    · rename_i made hmade
      rw [← Except.ok.inj h]
      exact ⟨made, hmade, hfold disk.keys 0 made⟩

theorem atRest_of_empty {maintenance : Maintenance} (h : r.registry = .empty maintenance) : r.AtRest :=
  ⟨⟨by rw [h]; rfl, by rw [h]; exact fun _ hid => by cases hid⟩, by rw [h]; exact fun _ hd => by cases hd⟩

end Region

/-! ## Regions of a cache -/

namespace Cache

variable {c c' c'' : Cache} {id : RegionId}

/-- The path of a region is its own. -/
theorem pathOf_pathOf {text path : String} (h : pathOf text = .ok path) : pathOf path = .ok path := by
  unfold pathOf at h
  split at h
  · rename_i scope hscope
    rw [← Except.ok.inj h]
    unfold pathOf
    rw [Scope.parse_regionPath hscope]
  · cases h

/-- Nothing is put back where there is no region. -/
theorem setRegion_of_le (hid : c.shelves.length ≤ id) (r : Region) : c.setRegion id r = c := by
  have hnone : c.shelves[id]? = none := List.getElem?_eq_none hid
  have hshelves : c.shelves.modify id (fun shelf => { shelf with region := r }) = c.shelves := by
    refine List.ext_getElem? fun j => ?_
    rw [List.getElem?_modify]
    split
    · rename_i hj
      rw [← hj, hnone]
      rfl
    · simp
  simp only [setRegion, hnone, Option.bind_none, hshelves]

/-- The path and the indexes of a region do not depend on the backing stores. -/
theorem region_congr {j : RegionId} (h : c'.shelves[j]? = c.shelves[j]?) :
    (c'.region j).path = (c.region j).path ∧ (c'.region j).registry = (c.region j).registry := by
  unfold region
  rw [h]
  cases c.shelves[j]? <;> exact ⟨rfl, rfl⟩

theorem setRegion_region_of_ne {j : RegionId} (hj : j ≠ id) (r : Region) :
    ((c.setRegion id r).region j).path = (c.region j).path ∧
      ((c.setRegion id r).region j).registry = (c.region j).registry :=
  region_congr (by rw [shelves_setRegion, if_neg (Ne.symm hj)])

/-- Of the paths and the indexes of the regions, only the indexes of one are different. -/
structure Near (id : RegionId) (c c' : Cache) : Prop where
  catalog : c'.catalog = c.catalog
  size : c'.shelves.length = c.shelves.length
  path : ∀ j, (c'.region j).path = (c.region j).path
  registry : ∀ j, j ≠ id → (c'.region j).registry = (c.region j).registry

theorem Near.trans (h : Near id c c') (h' : Near id c' c'') : Near id c c'' :=
  ⟨h'.catalog.trans h.catalog, h'.size.trans h.size, fun j => (h'.path j).trans (h.path j),
    fun j hj => (h'.registry j hj).trans (h.registry j hj)⟩

theorem near_setRegion {r : Region} (hr : r.path = (c.region id).path) : Near id c (c.setRegion id r) := by
  rcases Nat.lt_or_ge id c.shelves.length with hid | hid
  · refine ⟨rfl, List.length_modify _ _ _, fun j => ?_, fun j hj => (setRegion_region_of_ne hj r).2⟩
    by_cases hj : j = id
    · subst hj
      obtain ⟨disk, hregion, -⟩ := setRegion_region hid r
      rw [hregion]
      exact hr
    · exact (setRegion_region_of_ne hj r).1
  · rw [setRegion_of_le hid]
    exact ⟨rfl, rfl, fun _ => rfl, fun _ _ => rfl⟩

/-- A cache after something was done with one region, which is as busy as before. -/
structure Within (id : RegionId) (c c' : Cache) : Prop extends Near id c c' where
  busy : id < c.shelves.length → ∀ ids, (c.region id).Busy ids → (c'.region id).Busy ids

theorem Within.refl (id : RegionId) (c : Cache) : Within id c c :=
  ⟨⟨rfl, rfl, fun _ => rfl, fun _ _ => rfl⟩, fun _ _ h => h⟩

theorem Within.trans (h : Within id c c') (h' : Within id c' c'') : Within id c c'' :=
  ⟨h.toNear.trans h'.toNear, fun hid ids hb => h'.busy (h.size ▸ hid) ids (h.busy hid ids hb)⟩

theorem busy_setRegion {r : Region} {ids : List IndexId} (hid : id < c.shelves.length) (h : r.Busy ids) :
    ((c.setRegion id r).region id).Busy ids := by
  obtain ⟨disk, hregion, -⟩ := setRegion_region hid r
  rw [hregion]
  exact h.congr rfl rfl

theorem within_setRegion {r : Region} (hr : r.path = (c.region id).path)
    (h : ∀ ids, (c.region id).Busy ids → r.Busy ids) : Within id c (c.setRegion id r) :=
  ⟨near_setRegion hr, fun hid ids hb => busy_setRegion hid (h ids hb)⟩

/-- **Every command on a region leaves it as busy as it was, and the others alone.** -/
theorem respects_within (id : RegionId) : (quietCache.hostOf id).Respects (Within id) where
  refl := .refl id
  trans h h' := h.trans h'
  heard _ _ c := .refl id c
  aside ha := within_setRegion ha.path fun _ hb => hb.aside ha
  cleared hpath hr := within_setRegion hpath fun _ hb => hb.cleared hr
  creation {c c' d i r} hb h scanned := by
    have hpath : r.path = (c.region id).path := by
      obtain ⟨_, -, -, -, rfl⟩ := Region.beginIndex_spec hb
      rfl
    have hended : ((c'.region id).endIndex i scanned).2.path = (c'.region id).path := by
      cases scanned <;> rfl
    refine ⟨((near_setRegion hpath).trans h.toNear).trans (near_setRegion hended), fun hid ids hbusy => ?_⟩
    obtain ⟨hnew, hbegun⟩ := hbusy.began hb
    have hsize : id < (c.setRegion id r).shelves.length := (near_setRegion hpath).size ▸ hid
    exact busy_setRegion (h.size ▸ hsize) ((h.busy hsize _ (busy_setRegion hid hbegun)).ended hnew scanned)
  removal {c c' name i r} hu h := by
    have hpath : r.path = (c.region id).path := by
      obtain ⟨-, rfl⟩ := Region.unpublish_spec hu
      rfl
    exact ((within_setRegion hpath fun _ hb => hb.hidden hu).trans h).trans
      (within_setRegion rfl fun _ hb => hb.discarded i)

/-! ## Operations of a cache -/

theorem lookupIndex_within (id : RegionId) (i : IndexId) (op : Comparison) (probe : Option Key) (c : Cache) :
    Within id c (c.setRegion id ((c.region id).lookupIndex i op probe).2) := by
  refine (respects_within id).aside ?_
  change (c.region id).Aside _
  unfold Region.lookupIndex
  split
  · exact .refl _
  · exact ⟨Registry.standing_modify _ _ fun ix => ⟨rfl, rfl⟩, rfl, rfl, fun _ => .inl⟩

theorem collectRows_within (id : RegionId) (f : Filter) (scope : Scope) (keys : List Key) (c : Cache) :
    Within id c (c.setRegion id ((c.region id).collectRows f scope keys).2) :=
  (respects_within id).aside (Region.collectRows_same (c.region id) f scope keys).toKept.aside

theorem candidates_within (id : RegionId) (i : IndexId) (op : Comparison) (probe : Option Key) (c : Cache) :
    Within id c ((quietCache.hostOf id).candidates .silent i op probe c).2 := by
  have hlookup := lookupIndex_within id i op probe c
  unfold QueryHost.candidates
  simp only [Observer.silent, Host.run_eq]
  split <;> rename_i h <;> rw [← (Prod.mk.inj h).2] <;> exact hlookup

/-- A query changes no more than what is counted. -/
theorem execute_within (id : RegionId) (q : Query) (plan : Plan) (c : Cache) :
    Within id c ((quietCache.hostOf id).execute q plan c).2 := by
  have hcollect : ∀ f, Within id c ((quietCache.hostOf id).collect .silent q plan f c).2 := by
    intro f
    unfold QueryHost.collect
    cases plan.root with
    | scan region => exact collectRows_within id f q.scope (c.region id).keys c
    | indexScan i name op coverage =>
      have hfound := candidates_within id i op f.probe c
      simp only
      split <;> rename_i h <;> rw [h] at hfound
      · exact hfound
      · exact hfound.trans (collectRows_within id f q.scope _ _)
  unfold QueryHost.execute
  simp only
  split
  · exact .refl id c
  · split
    · exact .refl id c
    · rename_i f _
      have hrows := hcollect f
      simp only [CacheHost.hostOf, quietCache, Observer.silent] at hrows ⊢
      split <;> exact hrows

theorem removeEach_within (id : RegionId) (names : List String) (c : Cache) :
    Within id c (quietCache.removeEach id names c).2 := by
  induction names generalizing c with
  | nil => exact .refl id c
  | cons name rest ih =>
    have hfirst := (respects_within id).removeIndex name c
    unfold CacheHost.removeEach
    split <;> rename_i h <;> rw [h] at hfirst
    · exact hfirst.trans (ih _)
    · exact hfirst

/-- What is done with one region leaves the cache orderly. -/
theorem Orderly.within (h : c.Orderly) (hw : Within id c c') : c'.Orderly where
  paths := by rw [hw.catalog]; exact h.paths
  ids := by rw [hw.catalog]; exact h.ids
  located e he := (hw.path e.2).trans (h.located e (hw.catalog ▸ he))
  place e he := by
    rw [hw.size]
    exact h.place e (hw.catalog ▸ he)
  atRest e he := by
    rw [hw.catalog] at he
    have hrest := Region.busy_nil_iff.2 (h.atRest e he)
    refine Region.busy_nil_iff.1 ?_
    by_cases hid : e.2 = id
    · subst hid
      exact hw.busy (h.place e he) [] hrest
    · exact hrest.congr (hw.path e.2) (hw.registry e.2 hid)

/-- Further regions outside of the catalog leave the cache orderly. -/
theorem Orderly.extended (h : c.Orderly) (hcatalog : c'.catalog = c.catalog) (hshelves : c.shelves <+: c'.shelves) :
    c'.Orderly := by
  have hsame : ∀ e ∈ c.catalog, (c'.region e.2).path = (c.region e.2).path ∧
      (c'.region e.2).registry = (c.region e.2).registry := fun e he =>
    region_congr (by
      obtain ⟨added, hadded⟩ := hshelves
      rw [← hadded, List.getElem?_append_left (h.place e he)])
  refine ⟨hcatalog ▸ h.paths, hcatalog ▸ h.ids, fun e he => ?_, fun e he => ?_, fun e he => ?_⟩ <;>
    rw [hcatalog] at he
  · exact (hsame e he).1.trans (h.located e he)
  · exact (h.place e he).trans_le hshelves.length_le
  · exact Region.busy_nil_iff.1 ((Region.busy_nil_iff.2 (h.atRest e he)).congr (hsame e he).1 (hsame e he).2)

/-- Entries taken out of the catalog leave the cache orderly. -/
theorem Orderly.erased (h : c.Orderly) (path : String) :
    ({ c with catalog := Table.erase path c.catalog } : Cache).Orderly where
  paths := h.paths.erase path
  ids := h.ids.sublist ((Table.erase_sublist c.catalog path).map _)
  located e he := h.located e (Table.mem_of_mem_erase he)
  place e he := h.place e (Table.mem_of_mem_erase he)
  atRest e he := h.atRest e (Table.mem_of_mem_erase he)

/-- A region at rest may be entered in the catalog under its path. -/
theorem Orderly.entered (h : c.Orderly) (hid : id < c.shelves.length) (hnew : ∀ e ∈ c.catalog, e.2 ≠ id)
    (hrest : (c.region id).AtRest) (hpath : Table.find? (c.region id).path c.catalog = none) :
    ({ c with catalog := Table.set (c.region id).path id c.catalog } : Cache).Orderly where
  paths := h.paths.set _ id
  ids := by
    rw [Table.set_of_find?_eq_none hpath, List.map_append]
    refine List.nodup_append.2 ⟨h.ids, by simp, fun j hj k hk he => ?_⟩
    obtain ⟨e, hmem, rfl⟩ := List.mem_map.1 hj
    exact hnew e hmem (he.trans (List.mem_singleton.1 hk))
  located := Table.forall_set (P := fun e => (c.region e.2).path = e.1) h.located rfl
  place := Table.forall_set (P := fun e => e.2 < c.shelves.length) h.place hid
  atRest := Table.forall_set (P := fun e => (c.region e.2).AtRest) h.atRest hrest

theorem addRegion_spec (c : Cache) (r : Region) (store : Option StoreId) :
    (c.addRegion r store).1 = c.shelves.length ∧ (c.addRegion r store).2.catalog = c.catalog ∧
      ∃ store', (c.addRegion r store).2.shelves = c.shelves ++ [⟨r, store'⟩] := by
  unfold addRegion
  cases store <;> cases r.disk <;> exact ⟨rfl, rfl, _, rfl⟩

theorem Orderly.addRegion (h : c.Orderly) (r : Region) (store : Option StoreId) :
    (c.addRegion r store).2.Orderly := by
  obtain ⟨-, hcatalog, store', hshelves⟩ := addRegion_spec c r store
  exact h.extended hcatalog ⟨_, hshelves.symm⟩

/-- A region made for a path and entered there leaves the cache orderly. -/
theorem Orderly.enroll (h : c.Orderly) {path : String} {make : String → Except Error Region} {store : Option StoreId}
    (hmake : ∀ p r, make p = .ok r → pathOf p = .ok r.path ∧ r.AtRest)
    (he : c.enroll path make store = .ok (id, c')) : c'.Orderly := by
  unfold Cache.enroll at he
  split at he
  · cases he
  · rename_i p hp
    split at he
    · cases he
    · rename_i hfree
      split at he
      · cases he
      · rename_i r hr
        obtain ⟨hpath, hrest⟩ := hmake p r hr
        obtain rfl : p = r.path := Except.ok.inj ((pathOf_pathOf hp).symm.trans hpath)
        obtain ⟨hid, hcatalog, store', hshelves⟩ := addRegion_spec c r store
        have hadded := h.addRegion r store
        generalize c.addRegion r store = added at he hid hcatalog hshelves hadded
        obtain ⟨i, c₁⟩ := added
        simp only at hid hcatalog hshelves hadded
        subst hid
        have hshelf : c₁.shelves[c.shelves.length]? = some ⟨r, store'⟩ := by rw [hshelves]; simp
        have hregion := region_of_shelf hshelf
        have hplace : c.shelves.length < c₁.shelves.length := by rw [hshelves]; simp
        have hown : (c₁.region c.shelves.length).path = r.path := by rw [hregion]
        rw [← (Prod.mk.inj (Except.ok.inj he)).2, ← hown]
        refine hadded.entered hplace (fun e he => ?_) ?_ ?_
        · rw [hcatalog] at he
          exact Nat.ne_of_lt (h.place e he)
        · rw [hregion]
          exact ⟨hrest.idle, hrest.pending⟩
        · rw [hown, hcatalog]
          simpa [Table.contains] using hfree

/-! ## Every cache -/

/-- A call of a cache, or of a region that is or was in it. -/
inductive Call where
  | addStore
  | standalone (path : String) (settings : Settings)
  | createRegion (path : String) (settings : Settings) (store : Option StoreId)
  | recoverRegion (path : String) (settings : Settings) (store : StoreId)
  | destroyRegion (path : String)
  | close
  | createIndex (d : IndexDefinition)
  | define (d : IndexDefinition)
  | createDefined
  | removeIndex (path name : String)
  | removeIndexes (path : String)
  | execute (q : Query)
  | onRegion (id : RegionId) (command : Command)
  | get (id : RegionId) (key : Key)

/-- The cache after a region was made, or as it was if it was not. -/
def made (c : Cache) (outcome : Except Error (RegionId × Cache)) : Cache :=
  match outcome with
  | .ok (_, c') => c'
  | .error _ => c

/-- The cache after a call, whether or not that was refused. -/
def Call.run (c : Cache) : Call → Cache
  | .addStore => c.addStore.2
  | .standalone path settings => c.made (c.standalone path settings)
  | .createRegion path settings store => c.made (c.createRegion path settings store)
  | .recoverRegion path settings store => c.made (c.recoverRegion path settings store)
  | .destroyRegion path => (quietCache.destroyRegion path c).2
  | .close => quietCache.close c
  | .createIndex d => (quietCache.createIndex d c).2
  | .define d => (quietCache.define d c).2
  | .createDefined => (quietCache.createDefined c).2
  | .removeIndex path name => (quietCache.removeIndex path name c).2
  | .removeIndexes path => (quietCache.removeIndexes path c).2
  | .execute q => (quietCache.execute q c).2
  | .onRegion id command => command.run (quietCache.hostOf id).toHost c
  | .get id key => c.setRegion id ((c.region id).get key).2

theorem Orderly.empty (seeds : RegionId → Seeds) : (Cache.empty seeds).Orderly :=
  ⟨by simp [Cache.empty], by simp [Cache.empty], by simp [Cache.empty], by simp [Cache.empty], by simp [Cache.empty]⟩

theorem Orderly.createDefinedOnEach (h : c.Orderly) (ids : List RegionId) :
    (quietCache.createDefinedOnEach ids c).2.Orderly := by
  induction ids generalizing c with
  | nil => exact h
  | cons id rest ih => exact ih (h.within ((respects_within id).createDefined c))

theorem Orderly.destroyRegion (h : c.Orderly) (path : String) : (quietCache.destroyRegion path c).2.Orderly := by
  unfold CacheHost.destroyRegion
  split
  · exact h
  · rename_i p _
    simp only
    split
    · exact h
    · rename_i id _
      exact (h.erased p).within ((respects_within id).destroyRegion _)

theorem Orderly.closeRegion (h : c.Orderly) (path : String) : (quietCache.closeRegion c path).Orderly := by
  unfold CacheHost.closeRegion
  simp only
  split
  · exact h
  · rename_i id _
    exact (h.erased path).within ((respects_within id).close _)

theorem Orderly.close (h : c.Orderly) : (quietCache.close c).Orderly := by
  unfold CacheHost.close
  generalize Table.keys (quietCache.cache c).catalog = paths
  induction paths generalizing c with
  | nil => exact h
  | cons path rest ih => exact ih (h.closeRegion path)

theorem Orderly.made (h : c.Orderly) {outcome : Except Error (RegionId × Cache)}
    (hmade : ∀ id c', outcome = .ok (id, c') → c'.Orderly) : (c.made outcome).Orderly := by
  unfold Cache.made
  split
  · exact hmade _ _ rfl
  · exact h

theorem Orderly.standalone (h : c.Orderly) (path : String) (settings : Settings) :
    (c.made (c.standalone path settings)).Orderly := by
  refine h.made fun id c' hc => ?_
  unfold Cache.standalone at hc
  simp only at hc
  generalize Region.make c.nextSeeds path settings (if settings.usesDisk then some .empty else none) = outcome at hc
  cases outcome with
  | error e => cases hc
  | ok r =>
    have hadded := h.addRegion r none
    rwa [show c.addRegion r none = (id, c') from Except.ok.inj hc] at hadded

theorem Orderly.createIndex (h : c.Orderly) (d : IndexDefinition) : (quietCache.createIndex d c).2.Orderly := by
  unfold CacheHost.createIndex
  split
  · exact h
  · rename_i id _
    exact h.within ((respects_within id).createIndexLive d c)

theorem Orderly.define (h : c.Orderly) (d : IndexDefinition) : (quietCache.define d c).2.Orderly := by
  unfold CacheHost.define
  split
  · exact h
  · split
    · exact h
    · rename_i id _ _ r hr
      exact h.within ((respects_within id).aside (Region.define_aside hr))

theorem Orderly.removeIndex (h : c.Orderly) (path name : String) :
    (quietCache.removeIndex path name c).2.Orderly := by
  unfold CacheHost.removeIndex
  split
  · exact h
  · rename_i id _
    exact h.within ((respects_within id).removeIndex name c)

theorem Orderly.removeIndexes (h : c.Orderly) (path : String) : (quietCache.removeIndexes path c).2.Orderly := by
  unfold CacheHost.removeIndexes
  split
  · exact h
  · rename_i id _
    exact h.within (removeEach_within id _ c)

theorem Orderly.execute (h : c.Orderly) (q : Query) : (quietCache.execute q c).2.Orderly := by
  unfold CacheHost.execute CacheHost.executeOn
  split
  · exact h
  · rename_i id _
    split
    · exact h
    · rename_i plan _
      exact h.within (execute_within id q plan c)

/-- **No call disturbs the order of a cache.** -/
theorem Orderly.call (h : c.Orderly) (call : Call) : (call.run c).Orderly := by
  cases call with
  | addStore => exact h.extended rfl (List.prefix_refl _)
  | standalone path settings => exact h.standalone path settings
  | createRegion path settings store =>
    exact h.made fun id c' hc => h.enroll (fun p r hr =>
      ⟨Region.make_path hr, Region.atRest_of_empty (Region.make_spec hr).2.2.2.2.1⟩) hc
  | recoverRegion path settings store =>
    refine h.made fun id c' hc => h.enroll (fun p r hr => ?_) hc
    obtain ⟨made, hmade, hpath, hregistry⟩ := Region.recover_indexes hr
    exact ⟨hpath ▸ Region.make_path hmade,
      Region.atRest_of_empty (hregistry.trans (Region.make_spec hmade).2.2.2.2.1)⟩
  | destroyRegion path => exact h.destroyRegion path
  | close => exact h.close
  | createIndex d => exact h.createIndex d
  | define d => exact h.define d
  | createDefined => exact h.createDefinedOnEach _
  | removeIndex path name => exact h.removeIndex path name
  | removeIndexes path => exact h.removeIndexes path
  | execute q => exact h.execute q
  | onRegion id command => exact h.within ((respects_within id).run command c)
  | get id key => exact h.within ((respects_within id).aside (Region.get_same (c.region id) key).toKept.aside)

/-- **Whatever calls have made of an empty cache is orderly.** -/
theorem Orderly.calls (seeds : RegionId → Seeds) (calls : List Call) :
    (calls.foldl Call.run (.empty seeds)).Orderly := by
  have hrun : ∀ c : Cache, c.Orderly → (calls.foldl Call.run c).Orderly := by
    induction calls with
    | nil => exact fun _ h => h
    | cons call rest ih => exact fun c h => ih _ (h.call call)
  exact hrun _ (.empty seeds)

end Cache

end IndexedStore
