import IndexedStore.Cache.Batch
import IndexedStore.Proofs.Cache.Regions

/-!
# Outcomes of a batch

A batch (`QueryService::create_defined_indexes`) attempts the pending definitions of all regions, in the order of
paths and within a region in the order of definition. What becomes of a definition is decided by the definitions of
its own region and by the indexes that this has, in the way `attempts` says; and no failure is lost when the causes
are grouped by name.
-/

namespace IndexedStore

/-- A cache by itself, with nobody listening. -/
def quietCache : CacheHost Cache where
  cache c := c
  setCache c _ := c
  listener _ _ c := c
  observer _ := .silent

/-! ## Causes by name -/

namespace Batch

/-- The causes for which definitions of a name failed, in order. -/
def causesOfName (failures : List IndexFailure) (name : String) : List Error :=
  (failures.filter (·.name = name)).map (·.error)

/-- Failures grouped by name: the names in order, and under each the causes in the order of the failures. -/
structure Grouped (failures : List IndexFailure) (grouped : List (String × List Error)) : Prop where
  names : (grouped.map (·.1)).Pairwise (· < ·)
  causes : ∀ name, Table.find? name grouped =
    if causesOfName failures name = [] then none else some (causesOfName failures name)
  count : sumOf (·.2.length) grouped = failures.length

theorem mem_addCause_names {name n : String} {cause : Error} {grouped : List (String × List Error)} :
    n ∈ (addCause name cause grouped).map (·.1) ↔ n = name ∨ n ∈ grouped.map (·.1) := by
  induction grouped with
  | nil => simp [addCause]
  | cons entry rest ih =>
    obtain ⟨first, causes⟩ := entry
    unfold addCause
    split
    · simp
    · split
      · rename_i he
        simp [he]
      · simp only [List.map_cons, List.mem_cons, ih]
        exact or_left_comm

theorem addCause_names (name : String) (cause : Error) {grouped : List (String × List Error)}
    (h : (grouped.map (·.1)).Pairwise (· < ·)) : ((addCause name cause grouped).map (·.1)).Pairwise (· < ·) := by
  induction grouped with
  | nil => simp [addCause]
  | cons entry rest ih =>
    obtain ⟨first, causes⟩ := entry
    obtain ⟨hfirst, hrest⟩ := List.pairwise_cons.1 h
    unfold addCause
    split
    · rename_i hlt
      refine List.pairwise_cons.2 ⟨fun n hn => ?_, h⟩
      rcases List.mem_cons.1 hn with rfl | hn
      · exact hlt
      · exact String.lt_trans hlt (hfirst n hn)
    · split
      · exact h
      · rename_i hnlt hne
        refine List.pairwise_cons.2 ⟨fun n hn => ?_, ih hrest⟩
        rcases mem_addCause_names.1 hn with rfl | hn
        · exact String.not_le.1 fun hle => hne (String.le_antisymm hle (String.not_lt.1 hnlt))
        · exact hfirst n hn

/-- A cause goes to the end of those of its name, or begins them. -/
theorem find?_addCause (name : String) (cause : Error) {grouped : List (String × List Error)}
    (h : (grouped.map (·.1)).Pairwise (· < ·)) (n : String) :
    Table.find? n (addCause name cause grouped) =
      if n = name then some ((Table.find? n grouped).getD [] ++ [cause]) else Table.find? n grouped := by
  induction grouped with
  | nil =>
    by_cases hn : n = name
    · simp [addCause, Table.find?, hn]
    · simp [addCause, Table.find?, hn, Ne.symm hn]
  | cons entry rest ih =>
    obtain ⟨first, causes⟩ := entry
    obtain ⟨hfirst, hrest⟩ := List.pairwise_cons.1 h
    unfold addCause
    split
    · rename_i hlt
      -- the names that follow are greater
      have hnone : Table.find? name ((first, causes) :: rest) = none := by
        rw [Table.find?_eq_none_iff]
        intro hmem
        rcases List.mem_cons.1 hmem with rfl | hmem
        · exact String.lt_irrefl _ hlt
        · exact String.lt_irrefl _ (String.lt_trans hlt (hfirst name hmem))
      by_cases hn : n = name
      · rw [hn, if_pos rfl, hnone]
        simp [Table.find?]
      · rw [if_neg hn, Table.find?, if_neg (Ne.symm hn)]
    · split
      · rename_i he
        by_cases hn : n = name
        · simp [Table.find?, hn, he]
        · simp [Table.find?, hn, ← he, Ne.symm hn]
      · rename_i hne
        by_cases hn : first = n
        · have hne' : n ≠ name := fun he => hne (he.symm.trans hn.symm)
          simp [Table.find?, hn, hne']
        · simpa [Table.find?, hn] using ih hrest

theorem sumOf_addCause (name : String) (cause : Error) (grouped : List (String × List Error)) :
    sumOf (·.2.length) (addCause name cause grouped) = sumOf (·.2.length) grouped + 1 := by
  induction grouped with
  | nil => rfl
  | cons entry rest ih =>
    obtain ⟨first, causes⟩ := entry
    unfold addCause
    split
    · simp only [sumOf, List.length_singleton]; omega
    · split
      · simp only [sumOf, List.length_append, List.length_singleton]; omega
      · simp only [sumOf, ih]; omega

theorem Grouped.add {failures : List IndexFailure} {grouped : List (String × List Error)}
    (h : Grouped failures grouped) (f : IndexFailure) :
    Grouped (failures ++ [f]) (addCause f.name f.error grouped) where
  names := addCause_names _ _ h.names
  causes name := by
    have hbefore : (Table.find? name grouped).getD [] = causesOfName failures name := by
      rw [h.causes]
      split
      · rename_i hnone; rw [hnone]; rfl
      · rfl
    have hafter : causesOfName (failures ++ [f]) name =
        causesOfName failures name ++ if name = f.name then [f.error] else [] := by
      by_cases hn : name = f.name
      · simp [causesOfName, hn]
      · simp [causesOfName, hn, Ne.symm hn]
    rw [find?_addCause _ _ h.names, hafter, hbefore]
    by_cases hn : name = f.name
    · simp [hn]
    · simp [hn, h.causes]
  count := by rw [sumOf_addCause, h.count, List.length_append, List.length_singleton]

/-- **Every failure is grouped under its name once.** -/
theorem causesByName_grouped (b : Batch) : Grouped b.failures b.causesByName := by
  have hfold : ∀ (failures done : List IndexFailure) (grouped : List (String × List Error)), Grouped done grouped →
      Grouped (done ++ failures) (failures.foldl (fun grouped f => addCause f.name f.error grouped) grouped) := by
    intro failures
    induction failures with
    | nil => intro done grouped h; simpa using h
    | cons f rest ih => intro done grouped h; simpa using ih (done ++ [f]) _ (h.add f)
  exact hfold b.failures [] [] ⟨by simp, by simp [causesOfName, Table.find?], rfl⟩

end Batch

namespace Cache

variable {c : Cache} {id : RegionId}

/-! ## One region of a cache -/

/-- A creation on a region of a cache is the creation on that region by itself. -/
theorem createIndex_exchanged (hid : id < c.shelves.length) (d : IndexDefinition) :
    let own := quiet.createIndex d (c.region id)
    let hosted := (quietCache.hostOf id).createIndex d c
    hosted.1 = own.1 ∧ Exchanged id own.2 c hosted.2 := by
  unfold Host.createIndex
  rw [show (quietCache.hostOf id).region c = c.region id from rfl,
    show quiet.region (c.region id) = c.region id from rfl]
  cases hb : (c.region id).beginIndex d with
  | error e => exact ⟨rfl, .refl id c⟩
  | ok begun =>
    obtain ⟨i, r⟩ := begun
    obtain ⟨compiled, -, -, -, hr⟩ := Region.beginIndex_spec hb
    have hbegun : Exchanged id r c (c.setRegion id r) :=
      setRegion_exchanged hid (hr ▸ Region.sameEntries_withRegistry (c.region id) _)
    have hscanned := hbegun.again hid (Region.scanEntries_scanned r i .empty r.keys).toSameEntries
    have hended := hscanned.again hid
      (Region.endIndex_sameEntries (r.scan i).2 i (r.scan i).1)
    simp only [Host.run, CacheHost.hostOf, quietCache, quiet, Host.alone, hbegun.region]
    rw [show ((c.setRegion id r).setRegion id (r.scan i).2).region id = (r.scan i).2 from hscanned.region]
    generalize (r.scan i).2.endIndex i (r.scan i).1 = ended at hended
    obtain ⟨_ | _, _⟩ := ended <;> exact ⟨rfl, hended⟩

theorem createEach_exchanged (hid : id < c.shelves.length) (definitions : List IndexDefinition) :
    let own := quiet.createEach definitions (c.region id)
    let hosted := (quietCache.hostOf id).createEach definitions c
    hosted.1 = own.1 ∧ Exchanged id own.2 c hosted.2 := by
  induction definitions generalizing c with
  | nil => exact ⟨rfl, .refl id c⟩
  | cons d rest ih =>
    obtain ⟨hsame, hfirst⟩ := createIndex_exchanged hid d
    unfold Host.createEach
    generalize (quietCache.hostOf id).createIndex d c = hosted at hsame hfirst
    generalize quiet.createIndex d (c.region id) = own at hsame hfirst
    obtain ⟨outcome, c₁⟩ := hosted
    obtain ⟨outcome', r₁⟩ := own
    simp only at hsame hfirst
    subst hsame
    obtain ⟨hrest, hothers⟩ := ih (hfirst.size ▸ hid)
    rw [hfirst.region] at hrest hothers
    simp only [show (quietCache.hostOf id).region c₁ = r₁ from hfirst.region,
      show quiet.region r₁ = r₁ from rfl, hrest]
    cases outcome <;> exact ⟨rfl, hfirst.trans hothers⟩

/-- The pending definitions of a region of a cache are built as by that region itself. -/
theorem createDefined_exchanged (hid : id < c.shelves.length) :
    let own := quiet.createDefined (c.region id)
    let hosted := (quietCache.hostOf id).createDefined c
    hosted.1 = own.1 ∧ Exchanged id own.2 c hosted.2 := by
  let g : Registry := { (c.region id).registry with pending := [] }
  have htaken : Exchanged id ((c.region id).withRegistry g) c (c.setRegion id ((c.region id).withRegistry g)) :=
    setRegion_exchanged hid (Region.sameEntries_withRegistry _ g)
  obtain ⟨hsame, hbuilt⟩ := createEach_exchanged (htaken.size ▸ hid) (c.region id).registry.pending
  rw [htaken.region] at hsame hbuilt
  exact ⟨hsame, htaken.trans hbuilt⟩

/-! ## One region after another -/

/-- A region of a cache that is at rest and whose entries can be read. -/
structure Ready (c : Cache) (id : RegionId) : Prop where
  place : id < c.shelves.length
  readable : (c.region id).Readable
  atRest : (c.region id).AtRest

/-- What a batch has of one region. -/
def batchOf (c : Cache) (id : RegionId) : Batch :=
  ⟨((c.region id).pendingAttempts.filterMap Attempt.built?).map fun built => ⟨id, built.1⟩,
    (c.region id).pendingAttempts.filterMap (Attempt.failure? (c.region id).path)⟩

/-- The indexes of a region after a batch: those that there were, then those that it built. -/
structure Built (r r' : Region) : Prop where
  idle : r'.registry.Idle
  pending : r'.registry.pending = []
  listed : r'.registry.listed = r.registry.listed ++ r.pendingAttempts.filterMap Attempt.built?

theorem Ready.congr {c' : Cache} (h : c.Ready id) (hsize : c'.shelves.length = c.shelves.length)
    (hsame : Region.SameValues (c.region id) (c'.region id)) : c'.Ready id where
  place := hsize ▸ h.place
  readable := hsame.sameEntries.readable h.readable
  atRest := ⟨by rw [hsame.registry]; exact h.atRest.idle, by rw [hsame.registry, hsame.path]; exact h.atRest.pending⟩

/-- What a batch has of a region is decided by that region. -/
theorem batchOf_congr {c' : Cache} (hpath : (c'.region id).path = (c.region id).path)
    (hregistry : (c'.region id).registry = (c.region id).registry) : c'.batchOf id = c.batchOf id := by
  simp only [batchOf, Region.pendingAttempts, hregistry, hpath]

/-- One region's part of a batch. -/
theorem Ready.createDefinedOn (h : c.Ready id) :
    (quietCache.createDefinedOn id c).1 = c.batchOf id ∧
      Built (c.region id) ((quietCache.createDefinedOn id c).2.region id) ∧
      Exchanged id ((quietCache.createDefinedOn id c).2.region id) c (quietCache.createDefinedOn id c).2 := by
  obtain ⟨houtcome, -, hidle, hpending, hlisted⟩ := Region.createDefined_spec h.readable h.atRest
  obtain ⟨hsame, hexchanged⟩ := createDefined_exchanged h.place
  have hstate : (quietCache.createDefinedOn id c).2 = ((quietCache.hostOf id).createDefined c).2 := rfl
  rw [hstate, hexchanged.region]
  refine ⟨?_, ⟨hidle, hpending, hlisted⟩, hexchanged⟩
  have hbatch : (quietCache.createDefinedOn id c).1 =
      ⟨((quietCache.hostOf id).createDefined c).1.1.map (⟨id, ·⟩), ((quietCache.hostOf id).createDefined c).1.2⟩ := rfl
  rw [hbatch, hsame, houtcome, batchOf, List.map_map]
  rfl

/-- **A batch on some regions attempts the definitions of each of them**, and leaves other regions alone. -/
theorem createDefinedOnEach_spec {ids : List RegionId} (hnodup : ids.Nodup) (hready : ∀ id ∈ ids, c.Ready id) :
    let outcome := quietCache.createDefinedOnEach ids c
    outcome.1 = ⟨ids.flatMap fun id => (c.batchOf id).created, ids.flatMap fun id => (c.batchOf id).failures⟩ ∧
      outcome.2.catalog = c.catalog ∧
      (∀ id ∈ ids, Built (c.region id) (outcome.2.region id)) ∧
      ∀ id, id ∉ ids → Region.SameValues (c.region id) (outcome.2.region id) := by
  induction ids generalizing c with
  | nil => exact ⟨rfl, rfl, by simp, fun id _ => .refl (c.region id)⟩
  | cons id rest ih =>
    obtain ⟨hnew, hrest⟩ := List.nodup_cons.1 hnodup
    obtain ⟨hbatch, hbuilt, hfirst⟩ := (hready id (by simp)).createDefinedOn
    unfold CacheHost.createDefinedOnEach
    generalize quietCache.createDefinedOn id c = first at hbatch hbuilt hfirst
    obtain ⟨batch, c₁⟩ := first
    simp only at hbatch hbuilt hfirst
    -- the regions still to come do not know of what was done
    have hother : ∀ j ∈ rest, Region.SameValues (c.region j) (c₁.region j) := fun j hj =>
      hfirst.others j fun he => hnew (he ▸ hj)
    obtain ⟨hbatches, hcatalog, hall, hleft⟩ := ih hrest fun j hj =>
      (hready j (List.mem_cons_of_mem _ hj)).congr hfirst.size (hother j hj)
    have hsame : ∀ j ∈ rest, c₁.batchOf j = c.batchOf j := fun j hj =>
      batchOf_congr (hother j hj).path (hother j hj).registry
    refine ⟨?_, hcatalog.trans hfirst.catalog, fun j hj => ?_, fun j hj => ?_⟩
    · simp only [hbatches, hbatch, Batch.append, List.flatMap_cons]
      rw [List.flatMap_congr fun j hj => congrArg Batch.created (hsame j hj),
        List.flatMap_congr fun j hj => congrArg Batch.failures (hsame j hj)]
    · rcases List.mem_cons.1 hj with rfl | hj
      · have hkept := hleft j hnew
        exact ⟨by rw [hkept.registry]; exact hbuilt.idle, by rw [hkept.registry]; exact hbuilt.pending,
          by rw [hkept.registry]; exact hbuilt.listed⟩
      · obtain ⟨hidle, hpending, hlisted⟩ := hall j hj
        refine ⟨hidle, hpending, ?_⟩
        rw [hlisted, (hother j hj).registry, Region.pendingAttempts, (hother j hj).registry, (hother j hj).path]
        rfl
    · obtain ⟨hne, hj⟩ := not_or.1 (mt List.mem_cons.2 hj)
      exact (hfirst.others j hne).trans (hleft j hj)

/-! ## All regions of the catalog -/

/-- A cache between two operations: each region of the catalog has its place, stands under its own path, and is at
rest. -/
structure Orderly (c : Cache) : Prop where
  paths : Table.Unique c.catalog
  ids : (c.catalog.map (·.2)).Nodup
  located : ∀ e ∈ c.catalog, (c.region e.2).path = e.1
  place : ∀ e ∈ c.catalog, e.2 < c.shelves.length
  atRest : ∀ e ∈ c.catalog, (c.region e.2).AtRest

theorem listing_perm (c : Cache) : c.listing.Perm c.catalog := List.mergeSort_perm _ _

theorem mem_regionIds : id ∈ c.regionIds ↔ ∃ path, (path, id) ∈ c.catalog := by
  simp only [regionIds, List.mem_map, Prod.exists, exists_eq_right, (listing_perm c).mem_iff]

theorem Orderly.regionIds_nodup (h : c.Orderly) : c.regionIds.Nodup := by
  have hperm : c.regionIds.Perm (c.catalog.map (·.2)) := (listing_perm c).map _
  exact hperm.nodup_iff.2 h.ids

theorem Orderly.ready (h : c.Orderly) (hid : id ∈ c.regionIds) (hread : (c.region id).Readable) : c.Ready id := by
  obtain ⟨path, he⟩ := mem_regionIds.1 hid
  exact ⟨h.place _ he, hread, h.atRest _ he⟩

/-- The regions stand in the order of their paths. -/
theorem Orderly.paths_sorted (h : c.Orderly) : (c.regionIds.map fun id => (c.region id).path).Pairwise (· < ·) := by
  have hpaths : (c.regionIds.map fun id => (c.region id).path) = c.listing.map (·.1) := by
    rw [regionIds, List.map_map]
    exact List.map_congr_left fun e he => h.located e ((listing_perm c).mem_iff.1 he)
  have hsorted : c.listing.Pairwise fun a b => a.1 ≤ b.1 := by
    let before (a b : String × RegionId) : Bool := decide (a.1 ≤ b.1)
    have htrans : ∀ a b d, before a b = true → before b d = true → before a d = true := fun a b d hab hbd =>
      decide_eq_true (String.le_trans (of_decide_eq_true hab) (of_decide_eq_true hbd))
    have htotal : ∀ a b, (before a b || before b a) = true := fun a b => by
      simpa [before] using String.le_total a.1 b.1
    exact (List.pairwise_mergeSort htrans htotal c.catalog).imp of_decide_eq_true
  have hnodup : (c.listing.map (·.1)).Nodup := by
    have hperm : (c.listing.map (·.1)).Perm (Table.keys c.catalog) := (listing_perm c).map _
    exact hperm.nodup_iff.2 h.paths
  rw [hpaths]
  refine ((List.pairwise_map.2 hsorted).and hnodup).imp fun {a b} hle => ?_
  exact String.not_le.1 fun hge => hle.2 (String.le_antisymm hle.1 hge)

/-- Without pending definitions a region has no part in a batch. -/
theorem batchOf_of_nil (h : (c.region id).registry.pending = []) : c.batchOf id = ⟨[], []⟩ := by
  simp only [batchOf, Region.pendingAttempts, h]
  rfl

/-- Regions without a part may be left out. -/
theorem flatMap_filter_of_nil {α β : Type} {p : α → Bool} {f : α → List β} {l : List α}
    (h : ∀ a ∈ l, p a = false → f a = []) : (l.filter p).flatMap f = l.flatMap f := by
  induction l with
  | nil => rfl
  | cons a rest ih =>
    have hrest := ih fun b hb => h b (List.mem_cons_of_mem _ hb)
    cases hp : p a with
    | true => rw [List.filter_cons_of_pos hp, List.flatMap_cons, List.flatMap_cons, hrest]
    | false =>
      rw [List.filter_cons_of_neg (by simp [hp]), List.flatMap_cons, h a (by simp) hp, hrest, List.nil_append]

/-- A batch is what it has of the regions, one after another. -/
theorem Orderly.createDefined_spec (h : c.Orderly) (hread : ∀ id ∈ c.regionIds, (c.region id).Readable) :
    let outcome := quietCache.createDefined c
    outcome.1 = ⟨c.regionIds.flatMap fun id => (c.batchOf id).created,
        c.regionIds.flatMap fun id => (c.batchOf id).failures⟩ ∧
      ∀ id ∈ c.regionIds, Built (c.region id) (outcome.2.region id) := by
  let ids := c.regionIds.filter fun id => !(c.region id).registry.pending.isEmpty
  have hempty : ∀ id ∈ c.regionIds, (!(c.region id).registry.pending.isEmpty) = false →
      (c.region id).registry.pending = [] := fun id _ hp => by simpa using hp
  have hnodup : ids.Nodup := h.regionIds_nodup.filter _
  have hready : ∀ id ∈ ids, c.Ready id := fun id hid =>
    h.ready (List.mem_filter.1 hid).1 (hread id (List.mem_filter.1 hid).1)
  obtain ⟨hbatch, -, hbuilt, hleft⟩ := createDefinedOnEach_spec hnodup hready
  have hrun : quietCache.createDefined c = quietCache.createDefinedOnEach ids c := rfl
  rw [hrun]
  refine ⟨?_, fun id hid => ?_⟩
  · rw [hbatch, flatMap_filter_of_nil fun id hid hp => by rw [batchOf_of_nil (hempty id hid hp)],
      flatMap_filter_of_nil fun id hid hp => by rw [batchOf_of_nil (hempty id hid hp)]]
  · by_cases hmem : id ∈ ids
    · exact hbuilt id hmem
    · have hnil := hempty id hid (by simpa [ids, hid] using hmem)
      have hsame := hleft id hmem
      obtain ⟨path, he⟩ := mem_regionIds.1 hid
      refine ⟨by rw [hsame.registry]; exact (h.atRest _ he).idle, by rw [hsame.registry]; exact hnil, ?_⟩
      rw [hsame.registry, Region.pendingAttempts, hnil]
      exact (List.append_nil _).symm

/-- The part of one item in a list of parts that tell whose they are. -/
theorem filter_flatMap_single {α β : Type} {p : β → Bool} {f : α → List β} {l : List α} (hnodup : l.Nodup) {a : α}
    (ha : a ∈ l) (hp : ∀ b ∈ l, ∀ x ∈ f b, p x = true ↔ b = a) : (l.flatMap f).filter p = f a := by
  induction l with
  | nil => cases ha
  | cons b rest ih =>
    obtain ⟨hb, hrest⟩ := List.nodup_cons.1 hnodup
    have hlater : ∀ d ∈ rest, ∀ x ∈ f d, p x = true ↔ d = a := fun d hd => hp d (List.mem_cons_of_mem _ hd)
    rw [List.flatMap_cons, List.filter_append]
    rcases List.mem_cons.1 ha with rfl | ha
    · have hown : (f a).filter p = f a := List.filter_eq_self.2 fun x hx => (hp a (by simp) x hx).2 rfl
      have hothers : (rest.flatMap f).filter p = [] := by
        refine List.filter_eq_nil_iff.2 fun x hx hpx => ?_
        obtain ⟨d, hd, hx⟩ := List.mem_flatMap.1 hx
        exact hb ((hlater d hd x hx).1 hpx ▸ hd)
      rw [hown, hothers, List.append_nil]
    · have hnone : (f b).filter p = [] := by
        refine List.filter_eq_nil_iff.2 fun x hx hpx => ?_
        exact hb ((hp b (by simp) x hx).1 hpx ▸ ha)
      rw [hnone, ih hrest ha hlater, List.nil_append]

/-- What a batch tells of one region is what it has of that region. -/
theorem Orderly.batch_of_region (h : c.Orderly) (hread : ∀ id ∈ c.regionIds, (c.region id).Readable)
    (hid : id ∈ c.regionIds) :
    let batch := (quietCache.createDefined c).1
    (batch.created.filter fun ref => ref.region = id) = (c.batchOf id).created ∧
      (batch.failures.filter fun f => f.region = (c.region id).path) = (c.batchOf id).failures := by
  have hpaths : (c.regionIds.map fun id => (c.region id).path).Nodup := by
    refine List.nodup_iff_pairwise_ne.2 (h.paths_sorted.imp fun {a b} hlt he => ?_)
    rw [he] at hlt
    exact String.lt_irrefl b hlt
  intro batch
  simp only [batch, (h.createDefined_spec hread).1]
  refine ⟨filter_flatMap_single h.regionIds_nodup hid fun j _ ref href => ?_,
    filter_flatMap_single h.regionIds_nodup hid fun j hj f hf => ?_⟩
  · obtain ⟨built, -, rfl⟩ := List.mem_map.1 href
    exact decide_eq_true_iff
  · obtain ⟨a, -, hfailure⟩ := List.mem_filterMap.1 hf
    have hregion : f.region = (c.region j).path := by
      unfold Attempt.failure? at hfailure
      split at hfailure
      · cases hfailure
      · rw [← Option.some.inj hfailure]
    rw [decide_eq_true_iff, hregion]
    exact ⟨List.inj_on_of_nodup_map hpaths hj hid, fun he => by rw [he]⟩

/-- What becomes of a definition where there are indexes of the definitions in `known`. -/
structure Decided (path : String) (known : List CompiledDefinition) (d : CompiledDefinition)
    (outcome : Except Error IndexId) : Prop where
  name : outcome = .error (.nameTaken d.name path) ↔ ∃ k ∈ known, k.name = d.name
  signature : (∃ existing, outcome = .error (.duplicateIndex d.name existing)) ↔
    (∀ k ∈ known, k.name ≠ d.name) ∧ ∃ k ∈ known, k.signature = d.signature
  created : (∃ i, outcome = .ok i) ↔ ∀ k ∈ known, k.name ≠ d.name ∧ k.signature ≠ d.signature

theorem decided_of_refusal {path : String} {known : List CompiledDefinition} {d : CompiledDefinition}
    {outcome : Except Error IndexId}
    (h : match d.refusal? path known with
      | some e => outcome = .error e
      | none => ∃ i, outcome = .ok i) : Decided path known d outcome := by
  cases hr : d.refusal? path known with
  | some e =>
    rw [hr] at h
    have hnot : ¬ ∃ i, outcome = .ok i := by simp [h]
    refine ⟨?_, ?_, ?_⟩
    · rw [← CompiledDefinition.refusal?_name_iff, hr, h]; simp
    · rw [← CompiledDefinition.refusal?_signature_iff, hr, h]; simp
    · rw [← CompiledDefinition.refusal?_none_iff, hr]; simp [hnot]
  | none =>
    rw [hr] at h
    obtain ⟨i, rfl⟩ := h
    refine ⟨?_, ?_, ?_⟩
    · rw [← CompiledDefinition.refusal?_name_iff, hr]; simp
    · rw [← CompiledDefinition.refusal?_signature_iff, hr]; simp
    · rw [← CompiledDefinition.refusal?_none_iff, hr]; simp

/-- What becomes of a pending definition is decided by the indexes that its region has by then. -/
theorem Orderly.decided (h : c.Orderly) (hid : id ∈ c.regionIds) {before later : List Attempt}
    {d : IndexDefinition} {outcome : Except Error IndexId}
    (hsplit : (c.region id).pendingAttempts = before ++ (d, outcome) :: later) :
    ∃ compiled, d.compile = .ok compiled ∧ compiled.name = d.name ∧ Decided (c.region id).path
      ((c.region id).registry.knownDefinitions ++ (before.filterMap Attempt.built?).map (·.2)) compiled outcome := by
  obtain ⟨path, he⟩ := mem_regionIds.1 hid
  have hd : d ∈ (c.region id).registry.pending := by
    have hfst : (c.region id).pendingAttempts.map (·.1) = (c.region id).registry.pending := map_fst_attempts
    rw [← hfst, hsplit]
    simp
  obtain ⟨compiled, hc, -⟩ := (h.atRest _ he).pending d hd
  exact ⟨compiled, hc, congrArg IndexDefinition.name (IndexDefinition.compile_spec hc).1,
    decided_of_refusal (attempts_split hc hsplit)⟩

/-- **A batch accounts for every definition.** In a cache on which nothing else is in progress and whose entries
can be read, each pending definition is attempted once, region by region in the order of paths and in the order
of definition. It fails for its name if an index had that before the batch or was built under it earlier in the
batch on the same region, or else for its signature likewise, and is built otherwise. Afterwards nothing is
pending, the indexes built stand after those that were there, what became of a region's definitions would have
been the same whatever the other regions are, and the failures are grouped by name, one cause for each. -/
theorem Orderly.createDefined_accounts (h : c.Orderly) (hread : ∀ id ∈ c.regionIds, (c.region id).Readable) :
    let batch := (quietCache.createDefined c).1
    let after := (quietCache.createDefined c).2
    (c.regionIds.map fun id => (c.region id).path).Pairwise (· < ·) ∧
      batch.created = c.regionIds.flatMap (fun id =>
        ((c.region id).pendingAttempts.filterMap Attempt.built?).map fun built => ⟨id, built.1⟩) ∧
      batch.failures = c.regionIds.flatMap (fun id =>
        (c.region id).pendingAttempts.filterMap (Attempt.failure? (c.region id).path)) ∧
      batch.created.length + batch.failures.length =
        sumOf (fun id => (c.region id).registry.pending.length) c.regionIds ∧
      (∀ id ∈ c.regionIds, (c.region id).pendingAttempts.map (·.1) = (c.region id).registry.pending ∧
        ∀ before d outcome later, (c.region id).pendingAttempts = before ++ (d, outcome) :: later →
          ∃ compiled, d.compile = .ok compiled ∧ compiled.name = d.name ∧ Decided (c.region id).path
            ((c.region id).registry.knownDefinitions ++ (before.filterMap Attempt.built?).map (·.2)) compiled outcome) ∧
      (∀ id ∈ c.regionIds, (after.region id).registry.pending = [] ∧ (after.region id).registry.listed =
        (c.region id).registry.listed ++ (c.region id).pendingAttempts.filterMap Attempt.built?) ∧
      (∀ c' : Cache, c'.Orderly → (∀ id ∈ c'.regionIds, (c'.region id).Readable) →
        ∀ id ∈ c.regionIds, id ∈ c'.regionIds → (c'.region id).path = (c.region id).path →
          (c'.region id).registry = (c.region id).registry →
          let batch' := (quietCache.createDefined c').1
          (batch'.created.filter fun ref => ref.region = id) = (batch.created.filter fun ref => ref.region = id) ∧
            (batch'.failures.filter fun f => f.region = (c.region id).path) =
              (batch.failures.filter fun f => f.region = (c.region id).path)) ∧
      Batch.Grouped batch.failures batch.causesByName := by
  obtain ⟨hbatch, hbuilt⟩ := h.createDefined_spec hread
  intro batch after
  have hcreated : batch.created = c.regionIds.flatMap fun id => (c.batchOf id).created := congrArg Batch.created hbatch
  have hfailures : batch.failures = c.regionIds.flatMap fun id => (c.batchOf id).failures :=
    congrArg Batch.failures hbatch
  refine ⟨h.paths_sorted, hcreated, hfailures, ?_, fun id hid => ⟨map_fst_attempts, ?_⟩, fun id hid => ?_, ?_,
    batch.causesByName_grouped⟩
  · rw [hcreated, hfailures]
    generalize c.regionIds = ids
    induction ids with
    | nil => rfl
    | cons id rest ih =>
      have hfirst : (c.batchOf id).created.length + (c.batchOf id).failures.length =
          (c.region id).registry.pending.length := by
        rw [batchOf, List.length_map]
        exact length_attempts
      rw [List.flatMap_cons, List.flatMap_cons, List.length_append, List.length_append, sumOf]
      omega
  · intro before d outcome later hsplit
    exact h.decided hid hsplit
  · exact ⟨(hbuilt id hid).pending, (hbuilt id hid).listed⟩
  · intro c' h' hread' id hid hid' hpath hregistry
    obtain ⟨hown, hfailed⟩ := h.batch_of_region hread hid
    obtain ⟨hown', hfailed'⟩ := h'.batch_of_region hread' hid'
    have hsame : c'.batchOf id = c.batchOf id := batchOf_congr hpath hregistry
    rw [hpath] at hfailed'
    exact ⟨by rw [hown', hown, hsame], by rw [hfailed', hfailed, hsame]⟩

/-- Five definitions for two regions, of which the one at "/r" has an index on the values already. -/
def mixedDefinitions : List IndexDefinition :=
  [⟨"weights", .range, "w", "/r"⟩, ⟨"values", .range, "u", "/r"⟩, ⟨"again", .hash, "x.v", "/r x"⟩,
    ⟨"weights", .range, "u", "/r"⟩, ⟨"values", .hash, "v", "/s"⟩]

def mixed : Cache :=
  let made : Except Error Cache := do
    let (_, c) ← (Cache.empty default).createRegion "/s" .replicate none
    let (id, c) ← c.createRegion "/r" .replicate none
    let c := ((quietCache.hostOf id).put (.int 1) (valued 1) c).2
    return mixedDefinitions.foldl (fun c d => (quietCache.define d c).2) (quietCache.createIndex valueDefinition c).2
  made.toOption.getD default

theorem orderly_mixed : mixed.Orderly := by
  have hcatalog : mixed.catalog = [("/s", 0), ("/r", 1)] := rfl
  have hpending : (mixed.region 0).registry.pending = [⟨"values", .hash, "v", "/s"⟩] ∧
      (mixed.region 1).registry.pending = mixedDefinitions.take 4 := ⟨rfl, rfl⟩
  refine ⟨?_, ?_, ?_, ?_, ?_⟩
  · unfold Table.Unique
    rw [hcatalog]
    decide
  · rw [hcatalog]
    decide
  · rw [hcatalog]
    simp only [List.forall_mem_cons]
    exact ⟨rfl, rfl, by simp⟩
  · rw [hcatalog]
    decide
  · rw [hcatalog]
    simp only [List.forall_mem_cons]
    refine ⟨⟨⟨rfl, by decide⟩, ?_⟩, ⟨⟨rfl, by decide⟩, ?_⟩, by simp⟩
    · rw [hpending.1]
      simp only [List.forall_mem_cons]
      exact ⟨⟨_, rfl, rfl⟩, by simp⟩
    · rw [hpending.2]
      simp only [mixedDefinitions, List.take, List.forall_mem_cons]
      exact ⟨⟨_, rfl, rfl⟩, ⟨_, rfl, rfl⟩, ⟨_, rfl, rfl⟩, ⟨_, rfl, rfl⟩, by simp⟩

/-- A name that an index of the region has, a signature that one has under another alias, and a name that the
batch itself has used: three failures, while the same index is built on the other region. -/
theorem Orderly.createDefined_accounts_mixed :
    let batch := (quietCache.createDefined mixed).1
    batch.created = [⟨1, 1⟩, ⟨0, 0⟩] ∧
      batch.failures = [⟨"/r", "values", .nameTaken "values" "/r"⟩, ⟨"/r", "again", .duplicateIndex "again" "values"⟩,
        ⟨"/r", "weights", .nameTaken "weights" "/r"⟩] := by
  have hids : mixed.regionIds = [1, 0] := by
    simp [regionIds, listing, show mixed.catalog = [("/s", 0), ("/r", 1)] from rfl, List.mergeSort]
  have hread : ∀ id ∈ mixed.regionIds, (mixed.region id).Readable := by
    rw [hids]
    simp only [List.forall_mem_cons]
    refine ⟨?_, ?_, by simp⟩ <;> unfold Region.Readable
    · rw [show (mixed.region 1).keys = [.int 1] from rfl]
      simp only [List.forall_mem_cons]
      exact ⟨⟨_, rfl⟩, by simp⟩
    · rw [show (mixed.region 0).keys = [] from rfl]
      simp
  obtain ⟨-, hcreated, hfailures, -⟩ := orderly_mixed.createDefined_accounts hread
  intro batch
  rw [show batch.created = _ from hcreated, show batch.failures = _ from hfailures, hids]
  exact ⟨rfl, rfl⟩

end Cache

end IndexedStore
