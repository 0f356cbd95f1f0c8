import IndexedStore.Cache.Basic
import IndexedStore.Proofs.Region.Attempts

/-!
# The regions of a cache

A region put back into a cache is found there (`region_setRegion`), and the others are what they were, also
those that write to the same backing store, as long as the store keeps its contents (`Exchanged`). An operation
on the indexes of one region is therefore the operation on that region by itself.
-/

namespace IndexedStore

namespace Cache

variable {c : Cache} {id : RegionId} {r : Region}

theorem region_of_shelf {shelf : Shelf} (h : c.shelves[id]? = some shelf) :
    c.region id = { shelf.region with disk := shelf.store.bind (c.stores[·]?) } := by
  simp only [region, h]

theorem shelves_setRegion (c : Cache) (id j : RegionId) (r : Region) :
    (c.setRegion id r).shelves[j]? =
      if id = j then (c.shelves[j]?).map fun shelf => ⟨r, shelf.store⟩ else c.shelves[j]? := by
  simp only [setRegion, List.getElem?_modify]
  split <;> simp

/-- A region put back has the backing store of its shelf. -/
theorem setRegion_region (hid : id < c.shelves.length) (r : Region) :
    ∃ disk, (c.setRegion id r).region id = { r with disk := disk } ∧
      (r.disk.isSome = (c.region id).disk.isSome → disk = r.disk) := by
  have hshelf : c.shelves[id]? = some c.shelves[id] := List.getElem?_eq_getElem hid
  have hput : (c.setRegion id r).shelves[id]? = some ⟨r, c.shelves[id].store⟩ := by
    rw [shelves_setRegion, if_pos rfl, hshelf]
    rfl
  refine ⟨_, region_of_shelf hput, ?_⟩
  rw [region_of_shelf hshelf]
  simp only [setRegion, hshelf, Option.bind_some]
  cases hs : c.shelves[id].store with
  | none => cases r.disk <;> simp
  | some store =>
    simp only [Option.bind_some]
    cases hr : r.disk with
    | none => simp
    | some disk =>
      intro hd
      have hlt : store < c.stores.length := by simpa using hd.symm
      exact List.getElem?_set_self hlt

/-- A region is found as it was put back, if it has a backing store exactly when it had one. -/
theorem region_setRegion (hid : id < c.shelves.length) (hd : r.disk.isSome = (c.region id).disk.isSome) :
    (c.setRegion id r).region id = r := by
  obtain ⟨disk, hregion, hdisk⟩ := setRegion_region hid r
  rw [hregion, hdisk hd]

/-- The backing stores keep their contents when a region is put back that has its stored values. -/
theorem stores_setRegion (hid : id < c.shelves.length) (hr : Region.SameEntries (c.region id) r) (store : StoreId) :
    ((c.setRegion id r).stores[store]?).isSome = (c.stores[store]?).isSome ∧
      ∀ key, ((c.setRegion id r).stores[store]?).bind (fun disk => Table.find? key disk.entries) =
        (c.stores[store]?).bind fun disk => Table.find? key disk.entries := by
  have hshelf : c.shelves[id]? = some c.shelves[id] := List.getElem?_eq_getElem hid
  have hregion := region_of_shelf hshelf
  simp only [setRegion, hshelf, Option.bind_some]
  cases hs : c.shelves[id].store with
  | none => exact ⟨rfl, fun _ => rfl⟩
  | some own =>
    cases hd : r.disk with
    | none => exact ⟨rfl, fun _ => rfl⟩
    | some disk =>
      simp only [List.getElem?_set]
      by_cases he : own = store
      · subst he
        have hown : (c.region id).disk = c.stores[own]? := by rw [hregion, hs]; rfl
        have hsome := hr.disk
        rw [hd, hown] at hsome
        obtain ⟨hlt, -⟩ := List.getElem?_eq_some_iff.1 (Option.isSome_iff_exists.1 hsome.symm).choose_spec
        refine ⟨by simp [hlt], fun key => ?_⟩
        have hstored := hr.stored key
        simp only [Region.stored, hd, hown] at hstored
        simp only [if_true, hlt]
        exact hstored
      · simp only [he, if_false]
        exact ⟨trivial, fun _ => trivial⟩

/-- A cache in which one region is another, and the other regions are what they were, but for what is counted. -/
structure Exchanged (id : RegionId) (r : Region) (c c' : Cache) : Prop where
  region : c'.region id = r
  catalog : c'.catalog = c.catalog
  size : c'.shelves.length = c.shelves.length
  others : ∀ j, j ≠ id → Region.SameValues (c.region j) (c'.region j)

theorem Exchanged.refl (id : RegionId) (c : Cache) : Exchanged id (c.region id) c c :=
  ⟨rfl, rfl, rfl, fun j _ => .refl (c.region j)⟩

theorem Exchanged.trans {r' : Region} {a b c : Cache} (h : Exchanged id r a b) (h' : Exchanged id r' b c) :
    Exchanged id r' a c :=
  ⟨h'.region, h'.catalog.trans h.catalog, h'.size.trans h.size, fun j hj => (h.others j hj).trans (h'.others j hj)⟩

theorem setRegion_exchanged (hid : id < c.shelves.length) (hr : Region.SameEntries (c.region id) r) :
    Exchanged id r c (c.setRegion id r) := by
  refine ⟨region_setRegion hid hr.disk, rfl, List.length_modify _ _ _, fun j hj => ?_⟩
  have hshelves : (c.setRegion id r).shelves[j]? = c.shelves[j]? := by
    rw [shelves_setRegion, if_neg (Ne.symm hj)]
  cases hs : c.shelves[j]? with
  | none =>
    have hregion : (c.setRegion id r).region j = c.region j := by simp only [region, hshelves, hs]
    rw [hregion]
    exact .refl _
  | some shelf =>
    rw [region_of_shelf hs, region_of_shelf (hshelves.trans hs)]
    -- the other region may have the same backing store
    refine ⟨⟨rfl, rfl, rfl, rfl, ?_⟩, rfl, fun key => ?_⟩
    · cases shelf.store with
      | none => rfl
      | some store => exact (stores_setRegion hid hr store).1
    · unfold Region.stored
      cases shelf.store with
      | none => rfl
      | some store => exact (stores_setRegion hid hr store).2 key

/-- An exchange made again of the region that is there by then. -/
theorem Exchanged.again {r' : Region} {c' : Cache} (h : Exchanged id r c c') (hid : id < c.shelves.length)
    (hr : Region.SameEntries r r') : Exchanged id r' c (c'.setRegion id r') :=
  h.trans (setRegion_exchanged (h.size ▸ hid) (h.region.symm ▸ hr))

end Cache

end IndexedStore
