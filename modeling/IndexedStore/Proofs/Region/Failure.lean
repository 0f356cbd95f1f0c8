import IndexedStore.Proofs.Region.Attempts
import IndexedStore.Proofs.Region.Filling
import IndexedStore.Proofs.Region.Lifecycle

/-!
# Creations that fail

`IndexManager::create_index` fails before its index is begun, or at the first entry that `builder::populate` cannot
read (`scanEntries_error_iff`). In the first case nothing has happened. In the second the index has been entered,
filled as far as the scan came and abandoned: the registry then is the old one with a spare index behind all others,
which nothing lists (`createIndex_error`). What is asked of a registry goes through its lists, so the spare index is
not seen, and a creation that is tried next fares as it would have without the failed one
(`Placed.createIndex_leaves_no_trace`).
-/

namespace IndexedStore

namespace Registry

/-- Every place that is listed is the place of an index. -/
structure Placed (g : Registry) : Prop where
  published : ∀ id ∈ g.published, id < g.all.length
  building : ∀ id ∈ g.building, id < g.all.length
  targets : ∀ id ∈ g.targets, id < g.all.length

/-- The registry with one more index, which nothing lists. -/
def withSpare (g : Registry) (ix : Index) : Registry := { g with all := g.all ++ [ix] }

variable {g : Registry}

/-- An index that was begun, filled and abandoned is a spare one. -/
theorem Placed.abandoned (h : g.Placed) (ix : Index) (fill : Index → Index) :
    ((g.enter ix).2.modify g.all.length fill).abandon g.all.length = g.withSpare (fill ix).discard := by
  have hlast : ∀ ids : List IndexId, (∀ id ∈ ids, id < g.all.length) →
      (ids ++ [g.all.length]).erase g.all.length = ids := by
    intro ids hids
    have hnew : g.all.length ∉ ids := fun hid => lt_irrefl _ (hids _ hid)
    rw [List.erase_append_right _ hnew, List.erase_cons_head, List.append_nil]
  have hall : ((g.all ++ [ix]).modify g.all.length fill).modify g.all.length Index.discard =
      g.all ++ [(fill ix).discard] := by
    apply List.ext_getElem?
    intro i
    simp only [List.getElem?_modify]
    rcases Nat.lt_trichotomy i g.all.length with hi | rfl | hi
    · have hne : g.all.length ≠ i := by omega
      simp [hne, List.getElem?_append_left hi]
    · simp
    · have hne : g.all.length ≠ i := by omega
      simp [hne, List.getElem?_append, show ¬ i < g.all.length by omega, show i - g.all.length ≠ 0 by omega]
  simp only [abandon, modify, enter, withSpare, hall, hlast _ h.building, hlast _ h.targets]

theorem index?_withSpare {ix : Index} {id : IndexId} (hid : id < g.all.length) :
    (g.withSpare ix).index? id = g.index? id := by
  simp only [index?, withSpare, List.getElem?_append_left hid]

/-- Behind all others stands the spare index. -/
theorem eq_of_index?_withSpare {ix ix' : Index} {id : IndexId} (hid : g.all.length ≤ id)
    (h : (g.withSpare ix).index? id = some ix') : ix' = ix := by
  simp only [index?, withSpare, List.getElem?_append_right hid] at h
  exact List.mem_singleton.1 (List.mem_of_getElem? h)

theorem indexesAt_withSpare {ix : Index} {ids : List IndexId} (h : ∀ id ∈ ids, id < g.all.length) :
    (g.withSpare ix).indexesAt ids = g.indexesAt ids :=
  List.filterMap_congr fun id hid => by rw [index?_withSpare (h id hid)]

theorem Placed.liveTargets_withSpare (h : g.Placed) (ix : Index) :
    (g.withSpare ix).liveTargets = g.liveTargets :=
  congrArg (List.filter _) (indexesAt_withSpare h.targets)

theorem Placed.conflict?_withSpare (h : g.Placed) (ix : Index) (region : String) (c : CompiledDefinition) :
    (g.withSpare ix).conflict? region c = g.conflict? region c := by
  have hknown : (g.withSpare ix).known = g.known :=
    congrArg (List.map fun e : IndexId × Index => e.2) (indexesAt_withSpare fun id hid =>
      (List.mem_append.1 hid).elim (h.published id) (h.building id))
  unfold conflict?
  rw [hknown]
  rfl

end Registry

/-- The registry of a region is placed whatever commands listeners have nested in commands. -/
theorem Chronicle.Continues.placed {r : Region} (hopen : r.Opened) {c : Chronicle}
    (h : Continues ⟨r, []⟩ c) : c.now.registry.Placed := by
  obtain ⟨phase, hkept, -⟩ := h.keeps _ (Kept.opened hopen)
  have hplace : ∀ id, phase id ≠ .unborn → id < c.now.registry.all.length :=
    fun id => (hkept.1.lives id).place
  refine ⟨fun id hid => hplace id ?_, fun id hid => hplace id ?_, fun id hid => hplace id ?_⟩
  · rw [(hkept.1.lives id).published.1 hid]
    simp
  · rw [((hkept.1.lives id).building.1 hid).1]
    simp
  · rcases ((hkept.1.lives id).targets.1 hid).1 with hp | hp <;> rw [hp] <;> simp

/-! ## An index given up -/

namespace Index

/-- An index that is removed and has nothing in it. -/
structure Spent (ix : Index) : Prop where
  removed : ix.state = .removed
  unmapped : ix.mapped = []
  sound : ix.degraded = []
  nowhere : ∀ slot key, ix.store.contains slot key = false
  nothing : ix.store.counts = (0, 0)

theorem spent_discard (ix : Index) : ix.discard.Spent where
  removed := rfl
  unmapped := rfl
  sound := rfl
  nowhere slot key := by
    cases hs : ix.store with
    | ordered slots => cases slot <;> simp [discard, hs, SlotStore.cleared, SlotStore.contains] <;> rfl
    | unique slots => cases slot <;> simp [discard, hs, SlotStore.cleared, SlotStore.contains] <;> rfl
    | striped slots =>
      have hblank : ∀ i, slots.cleared.stripeAt i = .empty := by
        intro i
        simp only [StripedSlots.stripeAt, StripedSlots.cleared, List.getElem?_map]
        cases slots.stripes[i]? <;> rfl
      simp only [discard, hs, SlotStore.cleared, SlotStore.contains, StripedSlots.contains, hblank]
      rfl
  nothing := by
    cases hs : ix.store with
    | ordered slots => simp only [discard, hs, SlotStore.cleared]; rfl
    | unique slots => simp only [discard, hs, SlotStore.cleared]; rfl
    | striped slots =>
      have hsum : ∀ stripes : List Stripe, sumOf (fun _ => 0) stripes = 0 := by
        intro stripes
        induction stripes with
        | nil => rfl
        | cons stripe rest ih => rw [sumOf, ih]
      simp only [discard, hs, SlotStore.cleared, SlotStore.counts, StripedSlots.counts, StripedSlots.cleared, sumOf_map]
      exact Prod.ext (hsum slots.stripes) (hsum slots.stripes)

end Index

namespace Region

/-! ## Scans -/

theorem snapshot_recency (r : Region) (key : Key) : (r.snapshot key).2.recency = r.recency := by
  have hfault : (r.faultIn key).2.recency = r.recency := by
    unfold faultIn
    split
    · rfl
    · split <;> rfl
  unfold snapshot
  split
  · rfl
  · split
    · rfl
    · split
      · rfl
      · split
        · rfl
        · split <;> rename_i h <;> rw [h] at hfault <;> exact hfault

/-- A scan changes the index that it fills, and nothing else of the registry. -/
theorem scanEntry_registry (r : Region) (id : IndexId) (report : BuildReport) (key : Key) :
    (∃ fill, (r.scanEntry id report key).2.registry = r.registry.modify id fill) ∧
      (r.scanEntry id report key).2.recency = r.recency := by
  have hsame := (snapshot_same r key).registry
  have hrecency := snapshot_recency r key
  have hself : r.registry = r.registry.modify id fun ix => ix := (Registry.modify_self fun _ _ => rfl).symm
  unfold scanEntry
  split <;> rename_i h <;> rw [h] at hsame hrecency
  · exact ⟨⟨_, hsame.trans hself⟩, hrecency⟩
  · exact ⟨⟨_, hsame.trans hself⟩, hrecency⟩
  · rename_i value fromDisk r₁
    split
    · exact ⟨⟨_, hsame.trans hself⟩, hrecency⟩
    · rename_i ix _
      exact ⟨⟨fun _ => (ix.maintain key (some value)).2,
        congrArg (Registry.modify · id fun _ => (ix.maintain key (some value)).2) hsame⟩, hrecency⟩

theorem scanEntries_registry (r : Region) (id : IndexId) (report : BuildReport) (keys : List Key) :
    (∃ fill, (r.scanEntries id report keys).2.registry = r.registry.modify id fill) ∧
      (r.scanEntries id report keys).2.recency = r.recency := by
  induction keys generalizing r report with
  | nil => exact ⟨⟨_, (Registry.modify_self fun _ _ => rfl).symm⟩, rfl⟩
  | cons key rest ih =>
    obtain ⟨⟨fill, hentry⟩, hrecency⟩ := scanEntry_registry r id report key
    unfold scanEntries
    split <;> rename_i r₁ h <;> rw [h] at hentry hrecency
    · obtain ⟨⟨fill', hrest⟩, hrecency'⟩ := ih r₁ _
      exact ⟨⟨_, by rw [hrest, hentry, Registry.modify_modify]⟩, hrecency'.trans hrecency⟩
    · exact ⟨⟨fill, hentry⟩, hrecency⟩

/-- Why the first of some entries that cannot be read cannot. -/
def unreadable? (r : Region) (keys : List Key) : Option Error :=
  keys.findSome? fun key => match (r.snapshot key).1 with
    | .ok _ => none
    | .error e => some e

theorem SameEntries.unreadable?_eq {r r' : Region} (h : SameEntries r r') (keys : List Key) :
    r'.unreadable? keys = r.unreadable? keys := by
  simp only [unreadable?, h.snapshot_eq]

/-- **A scan fails at the first entry that cannot be read.** -/
theorem scanEntries_error_iff {r : Region} {id : IndexId} {report : BuildReport} {keys : List Key} {e : Error} :
    (r.scanEntries id report keys).1 = .error e ↔ r.unreadable? keys = some e := by
  induction keys generalizing r report with
  | nil => simp [scanEntries, unreadable?]
  | cons key rest ih =>
    have hentry := scanEntry_scanned r id report key
    have hread : ∀ e, (r.scanEntry id report key).1 = .error e ↔ (r.snapshot key).1 = .error e := by
      intro e
      unfold scanEntry
      generalize r.snapshot key = read
      obtain ⟨_ | ⟨_ | value, fromDisk⟩, r₁⟩ := read
      · simp only [Except.error.injEq]
      · simp
      · simp only
        split <;> simp
    have hcons : r.unreadable? (key :: rest) = match (r.snapshot key).1 with
        | .ok _ => r.unreadable? rest
        | .error e => some e := by
      rw [unreadable?, List.findSome?_cons]
      cases (r.snapshot key).1 <;> rfl
    unfold scanEntries
    generalize r.scanEntry id report key = scanned at hentry hread
    obtain ⟨outcome, r₁⟩ := scanned
    cases hs : (r.snapshot key).1 with
    | error e' =>
      obtain rfl : outcome = .error e' := (hread e').2 hs
      rw [hcons, hs]
      simp
    | ok snapshot =>
      obtain ⟨report', rfl⟩ : ∃ report', outcome = .ok report' := by
        cases outcome with
        | ok report' => exact ⟨report', rfl⟩
        | error e' => cases hs.symm.trans ((hread e').1 rfl)
      rw [hcons, hs]
      simp only
      rw [ih, hentry.unreadable?_eq]

/-! ## Creations -/

/-- A creation by its phases. -/
theorem quiet_createIndex (d : IndexDefinition) (r : Region) : quiet.createIndex d r =
    match r.beginIndex d with
    | .error e => (.error e, r)
    | .ok (id, begun) => (begun.scan id).2.endIndex id (begun.scan id).1 := by
  unfold Host.createIndex
  rw [show quiet.region r = r from rfl]
  cases r.beginIndex d with
  | error e => rfl
  | ok begun =>
    obtain ⟨id, r₁⟩ := begun
    simp only [Host.run, quiet, Host.alone]
    cases hs : (r₁.scan id).1 <;> rfl

/-- Whether an index can be begun depends on the path of the region and on the conflicts. -/
theorem beginIndex_alike {r r' : Region} (hpath : r'.path = r.path)
    (hconflict : ∀ c, r'.registry.conflict? r.path c = r.registry.conflict? r.path c) (d : IndexDefinition) :
    (∀ e, r'.beginIndex d = .error e ↔ r.beginIndex d = .error e) ∧
      ((∃ begun, r'.beginIndex d = .ok begun) ↔ ∃ begun, r.beginIndex d = .ok begun) := by
  unfold beginIndex
  cases d.compile with
  | error fault => simp
  | ok c =>
    simp only [hpath, hconflict]
    split
    · simp
    · cases r.registry.conflict? r.path c <;> simp

/-- A creation fails where its index cannot be begun, or else where an entry cannot be read. -/
theorem createIndex_error_iff {r : Region} {d : IndexDefinition} {e : Error} :
    (quiet.createIndex d r).1 = .error e ↔ r.beginIndex d = .error e ∨
      (∃ begun, r.beginIndex d = .ok begun) ∧ r.unreadable? r.keys = some e := by
  rw [quiet_createIndex]
  cases hb : r.beginIndex d with
  | error e' => simp
  | ok begun =>
    obtain ⟨id, r₁⟩ := begun
    obtain ⟨c, -, -, -, rfl⟩ := beginIndex_spec hb
    let begun := r.withRegistry (r.registry.enter (r.newIndex c)).2
    have hread : begun.unreadable? r.keys = r.unreadable? r.keys := (sameEntries_withRegistry r _).unreadable?_eq _
    have hscan : (begun.scan id).1 = .error e ↔ begun.unreadable? r.keys = some e := scanEntries_error_iff
    rw [← hread, ← hscan]
    simp only [reduceCtorEq, false_or, Except.ok.injEq, exists_eq', true_and]
    cases hs : (begun.scan id).1 <;> simp [endIndex]

/-- **A creation that fails leaves no more than a spare index behind**, and what it has read as it was. -/
theorem createIndex_error {r r' : Region} (h : r.registry.Placed) {d : IndexDefinition} {e : Error}
    (hf : quiet.createIndex d r = (.error e, r')) : SameEntries r r' ∧ r'.recency = r.recency ∧
      (r'.registry = r.registry ∨ ∃ ix : Index, r'.registry = r.registry.withSpare ix.discard) := by
  have hsame := createIndex_sameEntries d r
  rw [hf] at hsame
  refine ⟨hsame, ?_⟩
  rw [quiet_createIndex] at hf
  cases hb : r.beginIndex d with
  | error e' =>
    rw [hb] at hf
    obtain ⟨-, rfl⟩ := Prod.mk.inj hf
    exact ⟨rfl, .inl rfl⟩
  | ok begun =>
    obtain ⟨id, r₁⟩ := begun
    obtain ⟨c, -, -, rfl, rfl⟩ := beginIndex_spec hb
    let blank := r.newIndex c
    let begun := r.withRegistry (r.registry.enter blank).2
    obtain ⟨⟨fill, hfill⟩, hrecency⟩ := scanEntries_registry begun r.registry.all.length .empty begun.keys
    have hend : (begun.scan r.registry.all.length).2.endIndex r.registry.all.length
        (begun.scan r.registry.all.length).1 = (.error e, r') := by rwa [hb] at hf
    cases hs : (begun.scan r.registry.all.length).1 with
    | ok report => simp [hs, endIndex] at hend
    | error e' =>
      rw [hs] at hend
      obtain ⟨-, rfl⟩ := Prod.mk.inj hend
      refine ⟨hrecency, .inr ⟨fill blank, ?_⟩⟩
      rw [← h.abandoned]
      exact congrArg (Registry.abandon · _) hfill

/-- **A creation that fails leaves no trace.** The entries and the lists of indexes, definitions and targets are
as they were, and so is every other index; the half-built one, if it came to that, is removed and empty. What is
created next fails exactly where it would have failed without, whatever its name. -/
theorem failed_creation_leaves_no_trace {r r' : Region} (h : r.registry.Placed) {d : IndexDefinition} {e : Error}
    (hf : quiet.createIndex d r = (.error e, r') ∨ quiet.createIndexLive d r = (.error e, r')) :
    (r'.entries = r.entries ∧ (∀ key, r'.stored key = r.stored key) ∧ r'.recency = r.recency) ∧
    (r'.registry.published = r.registry.published ∧ r'.registry.building = r.registry.building ∧
      r'.registry.pending = r.registry.pending ∧ r'.registry.queue = r.registry.queue ∧
      r'.registry.liveTargets = r.registry.liveTargets) ∧
    (∀ id < r.registry.all.length, r'.registry.index? id = r.registry.index? id) ∧
    (∀ id ix, r.registry.all.length ≤ id → r'.registry.index? id = some ix → ix.Spent) ∧
    ∀ next e', ((quiet.createIndex next r').1 = .error e' ↔ (quiet.createIndex next r).1 = .error e') ∧
      ((quiet.createIndexLive next r').1 = .error e' ↔ (quiet.createIndexLive next r).1 = .error e') := by
  have hleft : SameEntries r r' ∧ r'.recency = r.recency ∧
      (r'.registry = r.registry ∨ ∃ ix : Index, r'.registry = r.registry.withSpare ix.discard) := by
    rcases hf with hf | hf
    · exact createIndex_error h hf
    · unfold Host.createIndexLive at hf
      rw [show quiet.region r = r from rfl] at hf
      split at hf
      · obtain ⟨-, rfl⟩ := Prod.mk.inj hf
        exact ⟨.refl r, rfl, .inl rfl⟩
      · exact createIndex_error h hf
  obtain ⟨hsame, hrecency, hregistry⟩ := hleft
  have hconflict : ∀ c, r'.registry.conflict? r.path c = r.registry.conflict? r.path c := by
    intro c
    rcases hregistry with hr | ⟨ix, hr⟩ <;> rw [hr]
    exact h.conflict?_withSpare _ _ _
  have hcreate : ∀ next e', (quiet.createIndex next r').1 = .error e' ↔ (quiet.createIndex next r).1 = .error e' := by
    intro next e'
    have hbegin := beginIndex_alike hsame.path hconflict next
    have hkeys : r'.keys = r.keys := by rw [keys, keys, hsame.entries]
    rw [createIndex_error_iff, createIndex_error_iff, hbegin.1, hbegin.2, hkeys, hsame.unreadable?_eq]
  refine ⟨⟨hsame.entries, hsame.stored, hrecency⟩, ?_, ?_, ?_, fun next e' => ⟨hcreate next e', ?_⟩⟩
  · rcases hregistry with hr | ⟨ix, hr⟩ <;> rw [hr]
    · exact ⟨rfl, rfl, rfl, rfl, rfl⟩
    · exact ⟨rfl, rfl, rfl, rfl, h.liveTargets_withSpare _⟩
  · intro id hid
    rcases hregistry with hr | ⟨ix, hr⟩ <;> rw [hr]
    exact Registry.index?_withSpare hid
  · intro id ix hid hix
    rcases hregistry with hr | ⟨spare, hr⟩ <;> rw [hr] at hix
    · exact absurd (Registry.index?_lt hix) (not_lt.2 hid)
    · rw [Registry.eq_of_index?_withSpare hid hix]
      exact spare.spent_discard
  · unfold Host.createIndexLive ensureLive
    simp only [show ∀ r, quiet.region r = r from fun _ => rfl, hsame.destroyed, hsame.path]
    split
    · simp
    · exact hcreate next e'

/-- A region with an index over one value, and with an evicted entry whose value is not in the backing store. -/
def bereft : Region :=
  { oneValue with entries := oneValue.entries.set (.int 2) ⟨.evicted, false⟩, disk := some .empty }

theorem failed_creation_leaves_no_trace_bereft : bereft.registry.Placed ∧
    (quiet.createIndex ownerDefinition bereft).1 = .error (.notInBackingStore (.int 2)) ∧
    (quiet.createIndex ownerDefinition bereft).2.registry.published = [0] ∧
    (∃ ix, (quiet.createIndex ownerDefinition bereft).2.registry.index? 1 = some ix ∧ ix.name = "owners" ∧
      ix.Spent) ∧
    (quiet.createIndex ownerDefinition (quiet.createIndex ownerDefinition bereft).2).1 =
      .error (.notInBackingStore (.int 2)) := by
  have hplaced : bereft.registry.Placed := by
    constructor <;> intro id hid
    · exact (List.mem_singleton.1 (show id ∈ [0] from hid)).trans_lt Nat.one_pos
    · cases (show id ∈ [] from hid)
    · exact (List.mem_singleton.1 (show id ∈ [0] from hid)).trans_lt Nat.one_pos
  have herror : (quiet.createIndex ownerDefinition bereft).1 = .error (.notInBackingStore (.int 2)) := rfl
  obtain ⟨-, ⟨hpublished, -⟩, -, hspent, hnext⟩ :=
    failed_creation_leaves_no_trace hplaced (.inl (Prod.ext herror rfl))
  exact ⟨hplaced, herror, hpublished, ⟨_, rfl, rfl, hspent 1 _ le_rfl rfl⟩, (hnext _ _).1.2 herror⟩

end Region

end IndexedStore
