import IndexedStore.Proofs.Region.Operations

/-!
# Runs of complete operations

A region is opened in one of three ways, and from then on changed by complete operations. `Transition`
says all that one of these can do; what holds of every region that a run reaches is derived from it. In a
synchronous region every target serves, after each operation, the current value of every key
(`Opened.served`).
-/

namespace IndexedStore

namespace Region

/-- The ways in which a region comes to be: with a backing store of its own where its settings need one,
over a given one, or made again from one. -/
inductive Opened : Region → Prop where
  | made {seeds : Seeds} {path : String} {settings : Settings} {r : Region}
      (h : make seeds path settings (if settings.usesDisk then some .empty else none) = .ok r) : Opened r
  | given {seeds : Seeds} {path : String} {settings : Settings} {disk : BackingStore} {r : Region}
      (h : make seeds path settings (some disk) = .ok r) : Opened r
  | recovered {seeds : Seeds} {path : String} {settings : Settings} {disk : BackingStore} {r : Region}
      (h : recover seeds path settings disk = .ok r) : Opened r

/-- A region between two complete operations. -/
structure Steady (r : Region) : Prop where
  sound : r.Sound
  registry : r.registry.WF
  live : r.destroyed = false
  unlocked : ∀ key, r.lockedAt key = false

/-! ## Opening -/

theorem make_spec {seeds : Seeds} {path : String} {settings : Settings} {disk : Option BackingStore}
    {r : Region} (h : make seeds path settings disk = .ok r) :
    r.entries = .empty seeds.hasher seeds.listing settings.bucketCount ∧ 0 < settings.bucketCount ∧ r.settings = settings ∧
      r.disk = disk ∧ r.registry = .empty settings.maintenance ∧ r.destroyed = false := by
  unfold make at h
  simp only [bind, Except.bind, pure, Except.pure, throw, throwThe, MonadExceptOf.throw] at h
  cases hv : settings.validate with
  | error e => simp [hv] at h
  | ok valid =>
    have hroom : 0 < settings.bucketCount := by
      unfold Settings.validate Settings.fault? at hv
      unfold Settings.bucketCount
      cases hl : settings.layout with
      | replicate => simp
      | partition buckets =>
        rcases Nat.eq_zero_or_pos buckets with rfl | hpos
        · simp [hl] at hv
        · exact hpos
    simp only [hv] at h
    split at h
    · cases h
    · cases h
      exact ⟨rfl, hroom, rfl, rfl, rfl, rfl⟩

theorem make_steady {seeds : Seeds} {path : String} {settings : Settings} {disk : Option BackingStore}
    {r : Region} (h : make seeds path settings disk = .ok r)
    (hd : settings.usesDisk = true → disk.isSome = true) : r.Steady := by
  obtain ⟨he, hroom, hs, hdisk, hg, hlive⟩ := make_spec h
  have hnone : ∀ key, r.entries.find? key = none := fun key => by rw [he, Partitioned.find?_empty]
  refine ⟨⟨?_, ?_, ?_, ?_⟩, ?_, hlive,
    fun key => lockedAt_of_none (hnone key)⟩
  · rw [he]; exact Partitioned.wf_empty seeds.hasher seeds.listing hroom
  · intro hu
    rw [hdisk]; exact hd (hs ▸ hu)
  · intro key locked hf
    rw [hnone] at hf; cases hf
  · intro _ key value locked hf
    rw [hnone] at hf; cases hf
  · rw [hg]; exact Registry.wf_empty _

/-- One entry recovered: another entry, whose value is stored, and the same backing store. -/
theorem recoverEntry_spec {r : Region} (h : r.Sound) {disk : BackingStore} (hd : r.disk = some disk)
    {key : Key} (hstored : (r.stored key).isSome = true) (n : Nat) :
    ChangedAt key r (r.recoverEntry n key).2 ∧ (r.recoverEntry n key).2.lockedAt key = false ∧
      ∃ disk', (r.recoverEntry n key).2.disk = some disk' ∧ disk'.entries = disk.entries := by
  have hr : r = { r with disk := some disk } := by rw [← hd]
  obtain ⟨value, hv⟩ := Option.isSome_iff_exists.1 hstored
  have hfound : Table.find? key disk.entries = some value := by simpa [stored, hd] using hv
  unfold recoverEntry
  split
  · rw [hd, Option.getD_some, BackingStore.read, hfound]
    simp only
    let counted : BackingStore := { disk with reads := disk.reads + 1 }
    let r' : Region := { r with
      entries := r.entries.set key ⟨.resident value, false⟩
      disk := some counted
      recency := if r.settings.overflow.isSome then r.recency ++ [key] else r.recency }
    have hk : Kept r r' := ⟨rfl, rfl, rfl, rfl, by simp [r', hd]⟩
    have hs : ∀ k, stored { r with disk := some counted } k = r.stored k := by
      intro k
      simp [stored, hd, counted]
    obtain ⟨hchanged, hentry⟩ := setEntry_spec (w := { r with disk := some counted }) h ⟨.resident value, false⟩
      rfl (fun k _ => hs k) hk rfl rfl (by simp)
      (fun _ v hval => by rw [hs, hv, ← EntryValue.resident.inj hval])
    exact ⟨hchanged, lockedAt_of_entry hentry, counted, rfl, rfl⟩
  · have hk : Kept r { r with entries := r.entries.set key ⟨.evicted, false⟩ } := ⟨rfl, rfl, rfl, rfl, rfl⟩
    obtain ⟨hchanged, hentry⟩ := setEntry_spec (w := r) h ⟨.evicted, false⟩ rfl (fun _ _ => rfl) hk rfl rfl
      (fun _ => hstored) (by simp)
    exact ⟨hchanged, lockedAt_of_entry hentry, disk, hd, rfl⟩

theorem recoverEntries_spec {r : Region} (h : r.Sound) (hfree : ∀ k, r.lockedAt k = false)
    {disk : BackingStore} (hd : r.disk = some disk) (keys : List Key)
    (hkeys : ∀ k ∈ keys, (Table.find? k disk.entries).isSome = true) (n : Nat) :
    let r' := (keys.foldl (fun (n, r) key => r.recoverEntry n key) (n, r)).2
    r'.Sound ∧ (∀ k, r'.lockedAt k = false) ∧ Kept r r' := by
  induction keys generalizing r disk n with
  | nil => exact ⟨h, hfree, .refl r⟩
  | cons key rest ih =>
    have hstored : (r.stored key).isSome = true := by
      simpa [stored, hd] using hkeys key (by simp)
    obtain ⟨hchanged, hunlocked, disk', hd', hentries⟩ := recoverEntry_spec h hd hstored n
    have hfree' : ∀ k, (r.recoverEntry n key).2.lockedAt k = false := by
      intro k
      by_cases hk : k = key
      · rw [hk]; exact hunlocked
      · rw [hchanged.locks k hk]; exact hfree k
    obtain ⟨hsound, hlocks, hkept⟩ := ih hchanged.sound hfree' hd'
      (fun k hk => by rw [hentries]; exact hkeys k (List.mem_cons_of_mem _ hk)) (r.recoverEntry n key).1
    exact ⟨hsound, hlocks, hchanged.toKept.trans hkept⟩

/-- **A region that was opened is steady, and has no index.** -/
theorem Opened.spec {r : Region} (h : r.Opened) :
    r.Steady ∧ r.registry = .empty r.settings.maintenance := by
  cases h with
  | made h =>
    obtain ⟨-, -, hs, -, hg, -⟩ := make_spec h
    exact ⟨make_steady h (by intro hu; simp [hu]), hs ▸ hg⟩
  | given h =>
    obtain ⟨-, -, hs, -, hg, -⟩ := make_spec h
    exact ⟨make_steady h (by simp), hs ▸ hg⟩
  | recovered h =>
    rename_i seeds path settings disk
    unfold recover at h
    split at h
    · cases h
    · cases hm : make seeds path settings (some disk) with
      | error e => simp [hm] at h
      | ok made =>
        simp only [hm, Except.ok.injEq] at h
        subst h
        obtain ⟨-, -, hs, hdisk, hg, hlive⟩ := make_spec hm
        have hsteady := make_steady hm (by simp)
        obtain ⟨hsound, hlocks, hkept⟩ := recoverEntries_spec hsteady.sound hsteady.unlocked hdisk disk.keys
          (fun k hk => Table.mem_keys_iff.1 hk) 0
        refine ⟨⟨hsound, ?_, hkept.destroyed.trans hlive, hlocks⟩, ?_⟩
        · rw [hkept.registry]; exact hsteady.registry
        · rw [hkept.registry, hkept.settings, hs]; exact hg

/-- A region with nothing in it. -/
def blank (maintenance : Maintenance) : Region where
  path := "/r"
  settings := { Settings.replicate with maintenance := maintenance }
  entries := .empty default default 1
  indexHasher := default
  disk := none
  recency := []
  registry := .empty maintenance
  counters := ⟨0, 0, 0, 0, 0⟩
  destroyed := false

theorem opened_blank (maintenance : Maintenance) : (blank maintenance).Opened := by
  have hmade : make default "/r" { Settings.replicate with maintenance := maintenance } none =
      .ok (blank maintenance) := by cases maintenance <;> rfl
  exact .made hmade

end Region

def valueDefinition : IndexDefinition := ⟨"values", .hash, "v", "/r"⟩

def valued (i : Int64) : Value := .map [("v", .integer i)]

/-! ## Operations -/

/-- A complete operation of a region. -/
inductive Action where
  | put (key : Key) (value : Value)
  | get (key : Key)
  | destroy (key : Key)
  | createIndex (definition : IndexDefinition)
  | removeIndex (name : String)

/-- The region after an operation, whether or not that was refused. -/
def Action.run (r : Region) : Action → Region
  | .put key value => (quiet.put key value r).2
  | .get key => (r.get key).2
  | .destroy key => (quiet.destroy key r).2
  | .createIndex definition => (quiet.createIndex definition r).2
  | .removeIndex name => (quiet.removeIndex name r).2

namespace Region

/-- All that one complete operation can do to a region. -/
inductive Transition (r : Region) : Region → Prop where
  | none {r' : Region} (h : SameValues r r') : Transition r r'
  | mutated (u : Update) {r' : Region} (h : Mutated u r r') : Transition r r'
  | created {id : IndexId} {ix : Index} {g' : Registry} {r' : Region} (h : SameValues r r')
      (he : r.registry.Extended id ix g') (hp : ix.compiled.regionPath = r.path)
      (hs : ∀ k, ix.Serves k (r.current k)) :
      Transition r (r'.withRegistry g')
  | removed {id : IndexId} {g' : Registry} (h : r.registry.Reduced id g') :
      Transition r (r.withRegistry g')

theorem Steady.transition {r : Region} (h : r.Steady) (a : Action) : Transition r (a.run r) := by
  cases a with
  | put key value =>
    rcases put_spec h.sound h.registry key value with ⟨e, he⟩ | ⟨r', hok, hm⟩
    · simp only [Action.run, he]; exact .none (.refl r)
    · simp only [Action.run, hok]; exact .mutated _ hm
  | get key => exact .none (get_same r key)
  | destroy key =>
    rcases destroy_spec h.sound h.registry key with ⟨e, he⟩ | ⟨_, r', hok, hm⟩
    · simp only [Action.run, he]; exact .none (.refl r)
    · simp only [Action.run, hok]; exact .mutated _ hm
  | createIndex d =>
    rcases createIndex_spec h.sound h.live h.unlocked d with
      ⟨e, he⟩ | ⟨id, c, ix, g', r', hok, hsame, -, hc, hp, hs, hx⟩
    · simp only [Action.run, he]; exact .none (.refl r)
    · simp only [Action.run, hok]; exact .created hsame hx (hc ▸ hp) hs
  | removeIndex name =>
    rcases removeIndex_spec r name with ⟨e, he⟩ | ⟨id, g', hok, hr⟩
    · simp only [Action.run, he]; exact .none (.refl r)
    · simp only [Action.run, hok]; exact .removed hr

theorem Transition.settings {r r' : Region} (h : Transition r r') : r'.settings = r.settings := by
  cases h with
  | none h => exact h.settings
  | mutated u h => exact h.settings
  | created h => exact h.settings
  | removed => rfl

theorem Transition.steady {r r' : Region} (hr : r.Steady) (h : Transition r r') : r'.Steady := by
  cases h with
  | none h =>
    have hund := h.undisturbed hr.sound
    refine ⟨hund.sound, ?_, h.destroyed.trans hr.live, fun k => (hund.locks k).trans (hr.unlocked k)⟩
    rw [h.registry]
    exact hr.registry
  | mutated u h =>
    refine ⟨h.sound, ?_, h.destroyed.trans hr.live, fun k => (h.locks k).trans (hr.unlocked k)⟩
    rw [h.registry]
    exact hr.registry.received _ u
  | created h he =>
    have hund := h.undisturbed hr.sound
    exact ⟨hund.sound.withRegistry _, hr.registry.extended he, h.destroyed.trans hr.live,
      fun k => (hund.locks k).trans (hr.unlocked k)⟩
  | removed h => exact ⟨hr.sound.withRegistry _, hr.registry.reduced h, hr.live, hr.unlocked⟩

/-- A region after some operations. -/
def after (r : Region) (actions : List Action) : Region := actions.foldl Action.run r

/-- What every transition between steady regions preserves holds after any run. -/
theorem Steady.after {r : Region} (h : r.Steady) {P : Region → Prop} (hp : P r)
    (step : ∀ {a b : Region}, a.Steady → Transition a b → P a → P b) (actions : List Action) :
    (r.after actions).Steady ∧ P (r.after actions) := by
  induction actions generalizing r with
  | nil => exact ⟨h, hp⟩
  | cons a rest ih =>
    have ht := h.transition a
    exact ih (ht.steady h) (step h ht hp)

/-! ## What the indexes hold in a synchronous region -/

/-- Every target serves the current value of every key. -/
def Served (r : Region) : Prop :=
  ∀ id ∈ r.registry.targets, ∀ ix, r.registry.index? id = some ix → ∀ key, ix.Serves key (r.current key)

theorem Transition.served {r r' : Region} (hr : r.Steady) (hsync : r.settings.maintenance = .synchronous)
    (hs : r.Served) (h : Transition r r') : r'.Served := by
  cases h with
  | none h =>
    intro id hid ix hix key
    rw [h.registry] at hid hix
    rw [(h.undisturbed hr.sound).current]
    exact hs id hid ix hix key
  | mutated u h =>
    intro id hid ix' hix' key
    have hg : r'.registry = r.registry.told u r.registry.targets := by rw [h.registry, hsync]; rfl
    rw [hg] at hid hix'
    rw [(Registry.told_sameLists _ _ _).targets] at hid
    obtain ⟨ix, hix, hchanged, hserves⟩ := Registry.serves_told hr.registry hid hix'
    rw [h.current]
    by_cases hk : key = u.key
    · rw [if_pos hk, hk]; exact hserves
    · rw [if_neg hk]; exact (hchanged.serves hk).2 (hs id hid ix hix key)
  | @created id _ _ r' h he _ hserves =>
    intro j hj ix hix key
    rw [current_withRegistry, (h.undisturbed hr.sound).current]
    rw [registry_withRegistry] at hj hix
    rcases he.target hj hix with ⟨-, rfl⟩ | ⟨hj, hix⟩
    · exact hserves key
    · exact hs j hj ix hix key
  | @removed id g' h =>
    intro j hj ix hix key
    rw [registry_withRegistry] at hj hix
    obtain ⟨hj, hix⟩ := h.target hr.registry hj hix
    exact hs j hj ix hix key

/-- **After any run of complete operations of a synchronous region, every target serves the current value
of every key.** -/
theorem Opened.served {r : Region} (h : r.Opened) (hsync : r.settings.maintenance = .synchronous)
    (actions : List Action) : (r.after actions).Steady ∧ (r.after actions).Served := by
  obtain ⟨hsteady, hg⟩ := h.spec
  have hstart : r.settings.maintenance = .synchronous ∧ r.Served := by
    refine ⟨hsync, ?_⟩
    intro id hid
    rw [hg] at hid
    cases hid
  obtain ⟨hafter, -, hserved⟩ := hsteady.after
    (P := fun r => r.settings.maintenance = .synchronous ∧ r.Served) hstart
    (fun ha ht hp => ⟨by rw [ht.settings]; exact hp.1, ht.served ha hp.1 hp.2⟩) actions
  exact ⟨hafter, hserved⟩

/-! ## The region that indexes are on -/

/-- Every target is an index on the region itself. -/
def Indexed (r : Region) : Prop :=
  ∀ id ∈ r.registry.targets, ∀ ix, r.registry.index? id = some ix → ix.compiled.regionPath = r.path

theorem Transition.indexed {r r' : Region} (hr : r.Steady) (hi : r.Indexed) (h : Transition r r') :
    r'.Indexed := by
  intro j hj ix' hix'
  cases h with
  | none h =>
    rw [h.registry] at hj hix'
    rw [h.path]
    exact hi j hj ix' hix'
  | mutated u h =>
    rw [h.registry] at hj hix'
    obtain ⟨hj, ix, hix, hc⟩ := Registry.received_target hr.registry hj hix'
    rw [hc, h.path]
    exact hi j hj ix hix
  | @created id ix g' r' h he hp =>
    rw [registry_withRegistry] at hj hix'
    rw [show (r'.withRegistry g').path = r.path from h.path]
    rcases he.target hj hix' with ⟨-, rfl⟩ | ⟨hj, hix⟩
    · exact hp
    · exact hi j hj ix' hix
  | @removed id g' h =>
    rw [registry_withRegistry] at hj hix'
    obtain ⟨hj, hix⟩ := h.target hr.registry hj hix'
    exact hi j hj ix' hix

theorem Opened.indexed {r : Region} (h : r.Opened) (actions : List Action) : (r.after actions).Indexed := by
  obtain ⟨hsteady, hg⟩ := h.spec
  have hstart : r.Indexed := by
    intro id hid
    rw [hg] at hid
    cases hid
  exact (hsteady.after hstart (fun ha ht hi => ht.indexed ha hi) actions).2

end Region

end IndexedStore
