import IndexedStore.Proofs.Region.Registry
import IndexedStore.Proofs.Region.Values

/-!
# Complete operations

What the operations of a region do from beginning to end where the listener is silent. A put or a destroy
changes one value and passes the update on to the indexes (`put_spec`, `destroy_spec`), creating an index
adds one that serves every value there is (`createIndex_spec`), and removing an index takes one away
(`removeIndex_spec`).
-/

namespace IndexedStore

/-- A region by itself, with nobody listening. -/
def quiet : Host Region := .alone fun _ _ r => r

namespace Region

/-- The same entries with other indexes. -/
def withRegistry (r : Region) (g : Registry) : Region := { r with registry := g }

theorem Sound.withRegistry {r : Region} (h : r.Sound) (g : Registry) : (r.withRegistry g).Sound :=
  ⟨h.entries, h.disk, h.evicted, h.through⟩

@[simp] theorem registry_withRegistry (r : Region) (g : Registry) : (r.withRegistry g).registry = g := rfl

@[simp] theorem current_withRegistry (r : Region) (g : Registry) (key : Key) :
    (r.withRegistry g).current key = r.current key := rfl

theorem sameEntries_withRegistry (r : Region) (g : Registry) : SameEntries r (r.withRegistry g) :=
  ⟨rfl, rfl, rfl, rfl, rfl, fun _ => rfl⟩

/-! ## Mutations -/

/-- Telling indexes one after another is a change of the registry. -/
theorem foldl_updateTarget (r : Region) (u : Update) (byWorker : Bool) (targets : List (IndexId × Index)) :
    quiet.updateTargets (fun _ r => r) byWorker u targets r =
      r.withRegistry (r.registry.told u (targets.map (·.1))) := by
  unfold Host.updateTargets
  induction targets generalizing r with
  | nil => rfl
  | cons target rest ih =>
    rw [List.foldl_cons, ih]
    rfl

/-- With nobody listening, a mutation that is told brings every target up to date, or is queued. -/
theorem quiet_notify_eq (r : Region) {event : EntryEvent} (he : event.operation ≠ .evict) :
    quiet.notify event r =
      if r.registry.liveTargets.isEmpty then r
      else if r.settings.maintenance = .synchronous then
        quiet.updateTargets (fun _ r => r) false ⟨event.key, event.new.value?⟩ r.registry.liveTargets r
      else r.enqueue ⟨event.key, event.new.value?⟩ := by
  unfold Host.notify
  rw [if_neg he]
  cases hm : r.settings.maintenance
  · simp [quiet, Host.alone, hm]
  · simp [quiet, Host.alone, hm]; rfl

/-- Whatever is told, that is a change of the registry. -/
theorem quiet_notify_registry (r : Region) (event : EntryEvent) :
    ∃ g, quiet.notify event r = r.withRegistry g := by
  by_cases he : event.operation = .evict
  · exact ⟨r.registry, if_pos he⟩
  · rw [quiet_notify_eq r he]
    split
    · exact ⟨r.registry, rfl⟩
    · split
      · exact ⟨_, foldl_updateTarget r _ _ _⟩
      · exact ⟨_, rfl⟩

theorem quiet_notify {r : Region} (h : r.registry.WF) {event : EntryEvent} (he : event.operation ≠ .evict) :
    quiet.notify event r =
      r.withRegistry (r.registry.received r.settings.maintenance ⟨event.key, event.new.value?⟩) := by
  have hids := h.liveTargets_ids
  have hempty : r.registry.liveTargets.isEmpty = true ↔ r.registry.targets = [] := by
    rw [← hids, List.map_eq_nil_iff, List.isEmpty_iff]
  rw [quiet_notify_eq r he]
  unfold Registry.received
  by_cases hnone : r.registry.targets = []
  · rw [if_pos (hempty.2 hnone)]
    cases r.settings.maintenance
    · simp only [hnone]; rfl
    · simp only [hnone, if_true]; rfl
  · rw [if_neg fun he => hnone (hempty.1 he)]
    cases r.settings.maintenance
    · simp only [if_true, foldl_updateTarget, hids]
    · simp only [hnone, reduceCtorEq, if_false]; rfl

/-- What a complete put or destroy does to a region: one value is another, no lock is left, and the
indexes have received the update. -/
structure Mutated (u : Update) (r r' : Region) : Prop where
  path : r'.path = r.path
  settings : r'.settings = r.settings
  destroyed : r'.destroyed = r.destroyed
  sound : r'.Sound
  current : ∀ k, r'.current k = if k = u.key then u.value else r.current k
  locks : ∀ k, r'.lockedAt k = r.lockedAt k
  registry : r'.registry = r.registry.received r.settings.maintenance u

/-- **A put is refused, or sets the value of its key.** -/
theorem put_spec {r : Region} (h : r.Sound) (hg : r.registry.WF) (key : Key) (value : Value) :
    (∃ e, quiet.put key value r = (.error e, r)) ∨
      ∃ r', quiet.put key value r = (.ok (), r') ∧ Mutated ⟨key, some value⟩ r r' := by
  cases hb : r.beginPut key value with
  | error e => exact .inl ⟨e, by unfold Host.put; rw [show quiet.region r = r from rfl, hb]⟩
  | ok begun =>
    obtain ⟨event, r₁⟩ := begun
    obtain ⟨hbegin, hfree, hvalue, -, hkey, hnew, hop⟩ := beginPut_spec h hb
    have hput : quiet.put key value r = (.ok (), (quiet.notify event r₁).endPut key) := by
      unfold Host.put
      rw [show quiet.region r = r from rfl, hb]
      rfl
    have hnotify := quiet_notify (hbegin.registry ▸ hg) hop
    rw [hkey, hnew, hbegin.registry, hbegin.settings] at hnotify
    rw [hnotify] at hput
    refine .inr ⟨_, hput, ?_⟩
    have hsound := hbegin.sound.withRegistry (r.registry.received r.settings.maintenance ⟨key, some value⟩)
    obtain ⟨hend, hlast, hunlocked⟩ := endPut_spec hsound key
    refine ⟨hend.path.trans hbegin.path, hend.settings.trans hbegin.settings,
      hend.destroyed.trans hbegin.destroyed, hend.sound, ?_, ?_, hend.registry⟩
    · intro k
      by_cases hk : k = key
      · subst hk
        rw [if_pos rfl, hlast]
        exact hvalue
      · rw [if_neg hk, hend.current k hk]
        exact hbegin.current k hk
    · intro k
      by_cases hk : k = key
      · subst hk; rw [hunlocked, hfree]
      · rw [hend.locks k hk]
        exact hbegin.locks k hk

/-- **A destroy is refused, or leaves its key without a value.** -/
theorem destroy_spec {r : Region} (h : r.Sound) (hg : r.registry.WF) (key : Key) :
    (∃ e, quiet.destroy key r = (.error e, r)) ∨
      ∃ value r', quiet.destroy key r = (.ok value, r') ∧ Mutated ⟨key, none⟩ r r' := by
  cases hu : r.unmap key with
  | error e => exact .inl ⟨e, by unfold Host.destroy; rw [show quiet.region r = r from rfl, hu]⟩
  | ok unmapped =>
    obtain ⟨event, r₁⟩ := unmapped
    obtain ⟨hunmap, hfree, -, hgone, hunlocked, hkey, hnew, hop⟩ := unmap_spec h hu
    have hdestroy : quiet.destroy key r = (.ok event.old.value?, quiet.notify event r₁) := by
      unfold Host.destroy
      rw [show quiet.region r = r from rfl, hu]
      rfl
    have hnotify := quiet_notify (hunmap.registry ▸ hg) hop
    rw [hkey, hnew, hunmap.registry, hunmap.settings] at hnotify
    rw [hnotify] at hdestroy
    refine .inr ⟨_, _, hdestroy, hunmap.path, hunmap.settings, hunmap.destroyed,
      hunmap.sound.withRegistry _, ?_, ?_, rfl⟩
    · intro k
      by_cases hk : k = key
      · subst hk; rw [if_pos rfl]; exact hgone
      · rw [if_neg hk]; exact hunmap.current k hk
    · intro k
      by_cases hk : k = key
      · subst hk; rw [hfree]; exact hunlocked
      · exact hunmap.locks k hk

/-! ## Creating an index -/

/-- Reading on with other indexes in between. -/
theorem SameValues.across {a b c : Region} {g : Registry} (h : SameValues a b)
    (h' : SameValues (b.withRegistry g) c) : SameValues a (c.withRegistry a.registry) :=
  ⟨⟨h'.path.trans h.path, h'.settings.trans h.settings, rfl, h'.destroyed.trans h.destroyed,
    h'.disk.trans h.disk⟩, h'.entries.trans h.entries, fun k => (h'.stored k).trans (h.stored k)⟩

/-- An entry that is not locked is read, and taken into the index if it is there. -/
theorem scanEntry_spec {r : Region} (h : r.Sound) (hlive : r.destroyed = false) {key : Key}
    (hfree : r.lockedAt key = false) (id : IndexId) (report : BuildReport) :
    ∃ r', (r.scanEntry id report key).2 = r'.withRegistry (r.registry.modify id (·.filled r.current [key])) ∧
      SameValues r r' ∧ ∃ report', (r.scanEntry id report key).1 = .ok report' := by
  obtain ⟨hsame, fromDisk, hread⟩ := snapshot_spec h hlive hfree
  have hregistry := hsame.registry
  unfold scanEntry
  generalize r.snapshot key = outcome at hsame hread hregistry
  obtain ⟨read, r'⟩ := outcome
  simp only at hread hregistry hsame
  subst hread
  -- without a value, or without the index, nothing happens
  have unchanged : (∀ ix, r.registry.index? id = some ix → ix.filled r.current [key] = ix) →
      r' = r'.withRegistry (r.registry.modify id (·.filled r.current [key])) := by
    intro hself
    rw [Registry.modify_self hself, ← hregistry]
    rfl
  cases hc : r.current key with
  | none => exact ⟨r', unchanged fun ix _ => by simp [Index.filled, hc], hsame, _, rfl⟩
  | some value =>
    simp only [hregistry]
    cases hix : r.registry.index? id with
    | none => exact ⟨r', unchanged fun ix hix' => absurd (hix.symm.trans hix') (by simp), hsame, _, rfl⟩
    | some ix =>
      refine ⟨r', ?_, hsame, _, rfl⟩
      rw [← Registry.modify_congr (f := fun _ => (ix.maintain key (some value)).2) fun ix' hix' => ?_]
      · rfl
      · obtain rfl := Option.some.inj (hix.symm.trans hix')
        simp [Index.filled, hc]

/-- A scan reads every key that is not locked, and takes its value into the index. -/
theorem scanEntries_spec {r : Region} (h : r.Sound) (hlive : r.destroyed = false)
    (hfree : ∀ k, r.lockedAt k = false) (id : IndexId) (report : BuildReport) (keys : List Key) :
    ∃ r', (r.scanEntries id report keys).2 = r'.withRegistry (r.registry.modify id (·.filled r.current keys)) ∧
      SameValues r r' ∧ ∃ report', (r.scanEntries id report keys).1 = .ok report' := by
  induction keys generalizing r report with
  | nil =>
    have hself : r.registry.modify id (·.filled r.current []) = r.registry :=
      Registry.modify_self fun _ _ => rfl
    refine ⟨r, ?_, .refl r, report, rfl⟩
    rw [hself]
    rfl
  | cons key rest ih =>
    obtain ⟨r₁, hstep, hsame, report₁, hreport₁⟩ := scanEntry_spec h hlive (hfree key) id report
    have hund := hsame.undisturbed h
    have hcurrent : (r₁.withRegistry (r.registry.modify id (·.filled r.current [key]))).current = r.current :=
      funext hund.current
    obtain ⟨r₂, hrest, hsame₂, report₂, hreport₂⟩ := ih
      (hund.sound.withRegistry (r.registry.modify id (·.filled r.current [key])))
      (hsame.destroyed.trans hlive) (fun k => (hund.locks k).trans (hfree k)) report₁
    have hcons : r.scanEntries id report (key :: rest) =
        (r₁.withRegistry (r.registry.modify id (·.filled r.current [key]))).scanEntries id report₁ rest := by
      rw [← hstep, scanEntries]
      generalize r.scanEntry id report key = outcome at hreport₁
      obtain ⟨_, _⟩ := outcome
      simp only at hreport₁
      subst hreport₁
      rfl
    refine ⟨r₂.withRegistry r.registry, ?_, hsame.across hsame₂, report₂, by rw [hcons]; exact hreport₂⟩
    rw [hcons, hrest, hcurrent, registry_withRegistry, Registry.modify_modify]
    rfl

theorem mem_keys_iff {r : Region} (h : r.Sound) {key : Key} : key ∈ r.keys ↔ r.current key ≠ none := by
  rw [keys, Partitioned.mem_keys_iff h.entries, Ne, current_eq_none_iff h, Option.isSome_iff_ne_none]

theorem wf_newIndex (r : Region) {d : IndexDefinition} {c : CompiledDefinition} (hc : d.compile = .ok c) :
    (r.newIndex c).WF :=
  Index.wf_new hc _ _

theorem serves_newIndex (r : Region) (c : CompiledDefinition) (key : Key) : (r.newIndex c).Serves key none :=
  Index.serves_new c _ _ key

theorem beginIndex_spec {r r₁ : Region} {d : IndexDefinition} {id : IndexId}
    (h : r.beginIndex d = .ok (id, r₁)) :
    ∃ c, d.compile = .ok c ∧ c.regionPath = r.path ∧ id = r.registry.all.length ∧
      r₁ = r.withRegistry (r.registry.enter (r.newIndex c)).2 := by
  unfold beginIndex at h
  cases hc : d.compile with
  | error fault => simp [hc] at h
  | ok c =>
    simp only [hc] at h
    split at h
    · cases h
    · rename_i hpath
      split at h
      · cases h
      · simp only [Except.ok.injEq, Prod.mk.injEq] at h
        obtain ⟨rfl, rfl⟩ := h
        exact ⟨c, rfl, not_not.1 hpath, rfl, rfl⟩

/-- An index entered, filled and published is one index more. -/
theorem extended_of_filled {g : Registry} (ix : Index) (f : Index → Index) (report : BuildReport)
    (hf : (f ix).WF) :
    g.Extended g.all.length { f ix with build := report, state := .ready }
      ((((g.enter ix).2).modify g.all.length f).publish g.all.length report) where
  place := rfl
  size := by simp [Registry.publish, Registry.modify, Registry.enter]
  index := by
    simp [Registry.publish, Registry.modify, Registry.enter, Registry.index?]
  others j hj := by
    simp only [Registry.publish, Registry.modify, Registry.enter, Registry.index?,
      List.getElem?_modify_ne _ _ (Ne.symm hj)]
    rw [List.getElem?_append]
    split
    · rfl
    · rename_i hlt
      have hpast : g.all.length < j := Nat.lt_of_le_of_ne (Nat.le_of_not_lt hlt) (Ne.symm hj)
      rw [List.getElem?_eq_none (Nat.sub_pos_of_lt hpast), List.getElem?_eq_none (Nat.le_of_lt hpast)]
  wf := hf.readied report
  ready := rfl
  targets := rfl
  published := rfl
  queue := rfl
  worker := rfl

/-- An index filled from all keys serves every value there is. -/
theorem filled_serves {r : Region} (h : r.Sound) {d : IndexDefinition} {c : CompiledDefinition}
    (hc : d.compile = .ok c) :
    let filled := (r.newIndex c).filled r.current r.keys
    filled.WF ∧ filled.compiled = c ∧ ∀ k, filled.Serves k (r.current k) := by
  obtain ⟨hwf, hcompiled, -, hserves⟩ := Index.filled_spec (r.wf_newIndex hc) r.current r.keys []
    (fun k => by simpa using r.serves_newIndex c k)
  refine ⟨hwf, hcompiled, fun k => ?_⟩
  have hall := hserves k
  by_cases hk : k ∈ r.keys
  · simpa [hk] using hall
  · have hnone : r.current k = none := not_not.1 fun hne => hk ((mem_keys_iff h).2 hne)
    simpa [hnone] using hall

/-- An index that can be begun is filled with every value there is, and published. -/
theorem createIndex_fills {r r₁ : Region} (h : r.Sound) (hlive : r.destroyed = false)
    (hfree : ∀ k, r.lockedAt k = false) {d : IndexDefinition} {id : IndexId} (hb : r.beginIndex d = .ok (id, r₁)) :
    ∃ c report r', d.compile = .ok c ∧ c.regionPath = r.path ∧ id = r.registry.all.length ∧ SameValues r r' ∧
      quiet.createIndex d r = (.ok id, r'.withRegistry
        (((r.registry.enter (r.newIndex c)).2.modify id
          (·.filled r.current r.keys)).publish id report)) := by
  obtain ⟨c, hc, hpath, rfl, hr₁⟩ := beginIndex_spec hb
  let blank := r.newIndex c
  obtain ⟨r₂, hscanned, hsame, report, hreport⟩ := scanEntries_spec (h.withRegistry (r.registry.enter blank).2)
    hlive hfree r.registry.all.length .empty r.keys
  refine ⟨c, report, r₂.withRegistry r.registry, hc, hpath, rfl, SameValues.across (.refl r) hsame, ?_⟩
  have hscan : (r.withRegistry (r.registry.enter blank).2).scan r.registry.all.length = (.ok report,
      r₂.withRegistry ((r.registry.enter blank).2.modify r.registry.all.length
        (·.filled r.current r.keys))) := Prod.ext hreport hscanned
  unfold Host.createIndex
  rw [show quiet.region r = r from rfl, hb, hr₁]
  simp only [Host.run, quiet, Host.alone]
  rw [hscan]
  rfl

/-- **Creating an index is refused, or adds one that serves every value there is.** -/
theorem createIndex_spec {r : Region} (h : r.Sound) (hlive : r.destroyed = false)
    (hfree : ∀ k, r.lockedAt k = false) (d : IndexDefinition) :
    (∃ e, quiet.createIndex d r = (.error e, r)) ∨
      ∃ id c ix g' r', quiet.createIndex d r = (.ok id, r'.withRegistry g') ∧ SameValues r r' ∧
        d.compile = .ok c ∧ ix.compiled = c ∧ c.regionPath = r.path ∧ (∀ k, ix.Serves k (r.current k)) ∧
        r.registry.Extended id ix g' := by
  cases hb : r.beginIndex d with
  | error e => exact .inl ⟨e, by unfold Host.createIndex; rw [show quiet.region r = r from rfl, hb]⟩
  | ok begun =>
    obtain ⟨c, report, r', hc, hpath, hid, hsame, hcreate⟩ := createIndex_fills h hlive hfree hb
    obtain ⟨hwf, hcompiled, hserves⟩ := filled_serves h hc
    let filled := (r.newIndex c).filled r.current r.keys
    refine .inr ⟨_, c, { filled with build := report, state := .ready }, _, r', hcreate, hsame, hc, hcompiled,
      hpath, hserves, ?_⟩
    rw [hid]
    exact extended_of_filled _ (·.filled r.current r.keys) report hwf

/-! ## Removing an index -/

/-- **Removing an index is refused, or takes a published index away.** -/
theorem removeIndex_spec (r : Region) (name : String) :
    (∃ e, quiet.removeIndex name r = (.error e, r)) ∨
      ∃ id g', quiet.removeIndex name r = (.ok (), r.withRegistry g') ∧ r.registry.Reduced id g' := by
  cases hn : r.registry.named? name with
  | none =>
    refine .inl ⟨.indexNotFoundOn name r.path, ?_⟩
    unfold Host.removeIndex unpublish
    rw [show quiet.region r = r from rfl, hn]
  | some found =>
    obtain ⟨id, ix⟩ := found
    have hid : (id, ix) ∈ r.registry.publishedIndexes := List.mem_of_find?_eq_some hn
    refine .inr ⟨id, (r.registry.unpublish id).modify id Index.discard, ?_, ?_⟩
    · unfold Host.removeIndex unpublish
      rw [show quiet.region r = r from rfl, hn]
      rfl
    · refine ⟨(Registry.mem_publishedIndexes.1 hid).1, List.length_modify _ _ _, ?_, rfl, rfl, rfl, rfl⟩
      intro j hj
      rw [Registry.index?_modify, if_neg (Ne.symm hj)]
      rfl

end Region

end IndexedStore
