import IndexedStore.Proofs.Region.Contents
import IndexedStore.Proofs.Region.Filling

/-!
# Violations of a primary-key index

A put that would give a value of a primary-key index a second owner is not refused. The index turns the entry
away and marks its key, nothing else changes, and the region answers every request as it does without the index.
Between two operations a key that has a value is therefore in one of three states to the index (`Membership`),
and a put takes its key in exactly when no other key owns one of its slots by then
(`Index.mapped_iff`).
-/

namespace IndexedStore

/-! ## One primary-key index -/

/-- Where an entry stands to a primary-key index. -/
inductive Membership where
  /-- Its slots in the store are those of its value. -/
  | mapped
  /-- Its value has slots, and none of them is there: another key had one when the value was put. -/
  | refused
  /-- Its value has no slots. -/
  | excluded
deriving DecidableEq

/-- What it takes for an entry to stand so. -/
def Membership.Of (ix : Index) (key : Key) (value : Value) : Membership → Prop
  | .mapped => (∃ slots, ix.project value = .ok slots ∧ ∀ slot, ix.store.occurrences slot key = slots.count slot) ∧
      key ∉ ix.degraded
  | .refused => (∃ slots, ix.project value = .ok slots) ∧ (∀ slot, ix.store.occurrences slot key = 0) ∧
      key ∈ ix.degraded
  | .excluded => (∃ fault, ix.project value = .error fault) ∧ (∀ slot, ix.store.occurrences slot key = 0) ∧
      key ∉ ix.degraded

theorem Membership.eq_of_of {ix : Index} {key : Key} {value : Value} {m m' : Membership} (h : m.Of ix key value)
    (h' : m'.Of ix key value) : m = m' := by
  have hproject : ∀ {slots fault}, ix.project value = .ok slots → ix.project value ≠ .error fault :=
    fun hs hf => by rw [hs] at hf; cases hf
  cases m <;> cases m'
  case mapped.excluded =>
    obtain ⟨⟨⟨slots, hs, -⟩, -⟩, ⟨fault, hf⟩, -⟩ := And.intro h h'
    exact absurd hf (hproject hs)
  case excluded.mapped =>
    obtain ⟨⟨⟨fault, hf⟩, -⟩, ⟨slots, hs, -⟩, -⟩ := And.intro h h'
    exact absurd hf (hproject hs)
  all_goals simp_all [Membership.Of]

/-- No two keys own one defined slot of a primary-key store. -/
theorem SlotStore.owner_unique {s : SlotStore} (h : s.WF) (hkind : s.kind = .primaryKey) {v k key : Key}
    (hk : s.contains (.defined v) k = true) (hkey : s.contains (.defined v) key = true) : k = key := by
  cases s with
  | ordered | striped => cases hkind
  | unique slots =>
    exact UniqueSlots.owner_unique h ((UniqueSlots.contains_iff h).1 hk) ((UniqueSlots.contains_iff h).1 hkey)

namespace Index

variable {ix : Index} {key : Key} {value : Value}

theorem Filed.contains_iff (h : ix.Filed) {slot : Slot} :
    ix.store.contains slot key = true ↔ slot ∈ ix.slotsAt key := by
  rw [SlotStore.contains_iff h.store, h.occurrences, List.count_pos_iff]

theorem Filed.owner_unique (h : ix.Filed) (hkind : ix.kind = .primaryKey) {v k : Key}
    (hk : .defined v ∈ ix.slotsAt k) (hkey : .defined v ∈ ix.slotsAt key) : k = key :=
  SlotStore.owner_unique h.store (h.kind.trans hkind) (h.contains_iff.2 hk) (h.contains_iff.2 hkey)

/-- An entry that the index accounts for is in exactly one state. -/
theorem Accounts.membership (ha : ix.Accounts key (some value)) (h : ix.Filed) :
    ∃ m : Membership, m.Of ix key value ∧ ∀ m' : Membership, m'.Of ix key value → m' = m := by
  have hnone : ix.slotsAt key = [] → ∀ slot, ix.store.occurrences slot key = 0 := fun hs slot => by
    rw [h.occurrences, hs, List.count_nil]
  obtain ⟨m, hm⟩ : ∃ m : Membership, m.Of ix key value := by
    cases ha with
    | mapped hp hd => exact ⟨.mapped, ⟨_, hp, fun slot => h.occurrences slot key⟩, hd⟩
    | refused _ hp _ hs hd => exact ⟨.refused, ⟨_, hp⟩, hnone hs, hd⟩
    | excluded hp hs hd => exact ⟨.excluded, ⟨_, hp⟩, hnone hs, hd⟩
  exact ⟨m, hm, fun m' hm' => Membership.eq_of_of hm' hm⟩

/-- Counting does not change the marks. -/
theorem maintain_degraded (ix : Index) (key : Key) (value : Option Value) :
    (ix.maintain key value).2.degraded = (ix.apply key value).2.degraded := by
  unfold maintain
  generalize ix.apply key value = applied
  obtain ⟨_ | (fault | violation), applied⟩ := applied <;> rfl

/-- **An update takes an entry in exactly when its value has slots and no other key owns one of them**, whatever
the index had of the key before. -/
theorem mapped_iff (h : ix.WF) (hkind : ix.kind = .primaryKey) :
    Membership.mapped.Of (ix.maintain key (some value)).2 key value ↔
      ∃ slots, ix.project value = .ok slots ∧
        ∀ v, .defined v ∈ slots → ∀ k, ix.store.contains (.defined v) k = true → k = key := by
  obtain ⟨hwf, -, hchanged⟩ := maintain_spec h key (some value)
  have haccounts := maintain_accounts h key (some value)
  have hdegraded := maintain_degraded ix key (some value)
  generalize (ix.maintain key (some value)).2 = ix' at hwf hchanged haccounts hdegraded
  have hproject : ix'.project value = ix.project value := by simp [project, hchanged.compiled]
  have hkind' : ix'.kind = .primaryKey := by simpa [kind, hchanged.compiled] using hkind
  constructor
  · rintro ⟨⟨slots, hp, hocc⟩, -⟩
    refine ⟨slots, hproject ▸ hp, fun v hv k hk => ?_⟩
    by_contra hne
    -- the other key keeps its slots in the update, so the value would have two owners
    have hother : .defined v ∈ ix'.slotsAt k := by
      rw [hchanged.slots k hne]
      exact h.toFiled.contains_iff.1 hk
    have hmine : .defined v ∈ ix'.slotsAt key := by
      rw [← List.count_pos_iff, ← hwf.occurrences, hocc]
      exact List.count_pos_iff.2 hv
    exact hne (hwf.toFiled.owner_unique hkind' hother hmine)
  · rintro ⟨slots, hp, hfree⟩
    cases haccounts with
    | mapped hp' hd => exact ⟨⟨_, hp', fun slot => hwf.occurrences slot key⟩, hd⟩
    | refused _ _ _ _ hd =>
      obtain ⟨violation, hv⟩ := violation_of_degraded h (hdegraded ▸ hd)
      obtain ⟨-, -, -, -, -, hkey⟩ := settle_spec h.toFiled key (some value)
      rw [hv] at hkey
      obtain ⟨-, -, slots', hslots', hmem, hne, howner⟩ := hkey
      obtain rfl : slots = slots' := Except.ok.inj (hp.symm.trans hslots')
      exact absurd (hfree _ hmem _ (h.toFiled.contains_iff.2 howner)) hne
    | excluded hp' => exact absurd (hp'.symm.trans (hproject.trans hp)) (by simp)

end Index

namespace Region

variable {r : Region}

/-! ## Requests do not see the indexes -/

theorem get_withRegistry (r : Region) (g : Registry) (key : Key) :
    (r.withRegistry g).get key = ((r.get key).1, (r.get key).2.withRegistry g) := by
  have hvalue : (r.withRegistry g).readValue key = ((r.readValue key).1, (r.readValue key).2.withRegistry g) := by
    unfold readValue valueOf faultIn
    rw [show (r.withRegistry g).entries = r.entries from rfl, show (r.withRegistry g).disk = r.disk from rfl]
    rcases r.entries.find? key with _ | ⟨value | _, locked⟩
    · rfl
    · rfl
    · cases r.disk with
      | none => rfl
      | some disk =>
        simp only [BackingStore.read]
        cases Table.find? key disk.entries <;> rfl
  have hpromote : ∀ r : Region, (r.withRegistry g).promote key = (r.promote key).withRegistry g := fun r => by
    unfold promote
    rw [show (r.withRegistry g).recency = r.recency from rfl]
    split <;> rfl
  unfold Region.get
  rw [show (r.withRegistry g).ensureLive = r.ensureLive from rfl, hvalue]
  cases r.ensureLive with
  | error e => rfl
  | ok =>
    simp only
    generalize r.readValue key = read
    obtain ⟨_ | (_ | _), r'⟩ := read
    · rfl
    · rfl
    · simp only [hpromote]

theorem beginPut_withRegistry (r : Region) (g : Registry) (key : Key) (value : Value) :
    (r.withRegistry g).beginPut key value =
      (r.beginPut key value).map fun (event, r') => (event, r'.withRegistry g) := by
  unfold beginPut
  rw [show (r.withRegistry g).ensureLive = r.ensureLive from rfl,
    show (r.withRegistry g).entries = r.entries from rfl, show (r.withRegistry g).settings = r.settings from rfl]
  cases r.ensureLive with
  | error e => rfl
  | ok =>
    simp only
    split
    · rfl
    · by_cases hp : r.settings.persistent = true <;> rcases r.entries.find? key with _ | ⟨_ | _, _⟩ <;>
        simp [hp, countPut, dropEvicted, writeDisk, removeDisk, withRegistry, Except.map]

theorem evict?_withRegistry (r : Region) (g : Registry) (key : Key) :
    (r.withRegistry g).evict? key = (r.evict? key).map (·.withRegistry g) := by
  unfold evict?
  rw [show (r.withRegistry g).entries = r.entries from rfl, show (r.withRegistry g).settings = r.settings from rfl]
  rcases r.entries.find? key with _ | ⟨_ | _, _ | _⟩
  · rfl
  · by_cases hp : r.settings.persistent = true <;> simp [hp, writeDisk, withRegistry]
  · rfl
  · rfl
  · rfl

theorem evictFrom_withRegistry (r : Region) (g : Registry) (limit : Nat) (keys : List Key) :
    (r.withRegistry g).evictFrom limit keys = (r.evictFrom limit keys).withRegistry g := by
  induction keys generalizing r with
  | nil => rfl
  | cons key rest ih =>
    unfold evictFrom
    rw [evict?_withRegistry]
    split
    · rfl
    · cases r.evict? key with
      | none => rfl
      | some evicted => exact ih evicted

theorem endPut_withRegistry (r : Region) (g : Registry) (key : Key) :
    (r.withRegistry g).endPut key = (r.endPut key).withRegistry g := by
  have htouch : (r.withRegistry g).touch key = (r.touch key).withRegistry g := by
    unfold touch
    rw [show (r.withRegistry g).settings = r.settings from rfl]
    split <;> rfl
  have hunlock : ∀ r : Region, (r.withRegistry g).unlock key = (r.unlock key).withRegistry g := fun r => by
    unfold unlock
    rw [show (r.withRegistry g).entries = r.entries from rfl]
    split <;> rfl
  have hevict : ∀ r : Region, (r.withRegistry g).evictOverflow = r.evictOverflow.withRegistry g := fun r => by
    unfold evictOverflow
    rw [show (r.withRegistry g).settings = r.settings from rfl]
    split
    · exact evictFrom_withRegistry r g _ _
    · rfl
  unfold endPut
  rw [htouch, hunlock, hevict]

theorem unmap_withRegistry (r : Region) (g : Registry) (key : Key) :
    (r.withRegistry g).unmap key = (r.unmap key).map fun (event, r') => (event, r'.withRegistry g) := by
  unfold unmap
  rw [show (r.withRegistry g).ensureLive = r.ensureLive from rfl,
    show (r.withRegistry g).entries = r.entries from rfl]
  cases r.ensureLive with
  | error e => rfl
  | ok =>
    simp only
    cases r.entries.find? key with
    | none => rfl
    | some entry =>
      simp only
      split <;> rfl

/-- **A request is answered alike whatever indexes there are**, and changes the same but for the indexes. -/
theorem serve_withRegistry (r : Region) (g : Registry) (request : Request) :
    ∃ g', (r.withRegistry g).serve request = ((r.serve request).1, (r.serve request).2.withRegistry g') := by
  cases request with
  | put key value =>
    simp only [Region.serve, Host.put, show ∀ r, quiet.region r = r from fun _ => rfl, beginPut_withRegistry]
    cases r.beginPut key value with
    | error e => exact ⟨g, rfl⟩
    | ok begun =>
      obtain ⟨event, r₁⟩ := begun
      obtain ⟨g₁, hnotify⟩ := quiet_notify_registry r₁ event
      obtain ⟨g₂, hnotify'⟩ := quiet_notify_registry (r₁.withRegistry g) event
      refine ⟨g₂, Prod.ext rfl ?_⟩
      calc (quiet.notify event (r₁.withRegistry g)).endPut key
          = (r₁.withRegistry g₂).endPut key := congrArg (endPut · key) hnotify'
        _ = ((r₁.withRegistry g₁).endPut key).withRegistry g₂ := by
            rw [endPut_withRegistry, endPut_withRegistry]; rfl
        _ = ((quiet.notify event r₁).endPut key).withRegistry g₂ := by rw [hnotify]
  | destroy key =>
    simp only [Region.serve, Host.destroy, show ∀ r, quiet.region r = r from fun _ => rfl, unmap_withRegistry]
    cases r.unmap key with
    | error e => exact ⟨g, rfl⟩
    | ok unmapped =>
      obtain ⟨event, r₁⟩ := unmapped
      obtain ⟨g₁, hnotify⟩ := quiet_notify_registry r₁ event
      obtain ⟨g₂, hnotify'⟩ := quiet_notify_registry (r₁.withRegistry g) event
      refine ⟨g₂, Prod.ext rfl ?_⟩
      calc quiet.notify event (r₁.withRegistry g)
          = (r₁.withRegistry g₁).withRegistry g₂ := hnotify'
        _ = (quiet.notify event r₁).withRegistry g₂ := by rw [hnotify]
  | get key =>
    refine ⟨g, ?_⟩
    simp only [Region.serve, get_withRegistry]
  | contains | size | keys => exact ⟨g, rfl⟩

theorem serveAll_withRegistry (r : Region) (g : Registry) (requests : List Request) :
    ∃ g', IndexedStore.serveAll Region.serve (r.withRegistry g) requests =
      ((IndexedStore.serveAll Region.serve r requests).1,
        (IndexedStore.serveAll Region.serve r requests).2.withRegistry g') := by
  induction requests generalizing r g with
  | nil => exact ⟨g, rfl⟩
  | cons request rest ih =>
    obtain ⟨g₁, hserve⟩ := serve_withRegistry r g request
    obtain ⟨g₂, hrest⟩ := ih (r.serve request).2 g₁
    exact ⟨g₂, by simp only [IndexedStore.serveAll, hserve, hrest]⟩

/-! ## Requests and an index -/

variable {id : IndexId} {c : CompiledDefinition} {published : List IndexId}

/-- A request leaves an index that accounts for every key accounting for every key. -/
theorem Following.serve (h : r.Following id c published fun _ => False) (request : Request) :
    (r.serve request).2.Following id c published fun _ => False := by
  cases request with
  | put key value => exact h.mutate (.put key value)
  | destroy key => exact h.mutate (.destroy key)
  | get key =>
    have hsame := get_same r key
    obtain ⟨ix, hix, hc, hall⟩ := h.index
    refine ⟨(Transition.none hsame).steady h.toSteady, hsame.settings ▸ h.synchronous, ?_, ?_, ix, ?_, hc, fun k => ?_⟩
    · exact hsame.registry ▸ h.target
    · exact hsame.registry ▸ h.shown
    · exact hsame.registry ▸ hix
    · exact .inl ((hsame.undisturbed h.sound).current k ▸ (hall k).resolve_right fun hdue => hdue.1)
  | contains | size | keys => exact h

theorem Following.serveAll (h : r.Following id c published fun _ => False) (requests : List Request) :
    (IndexedStore.serveAll Region.serve r requests).2.Following id c published fun _ => False := by
  induction requests generalizing r with
  | nil => exact h
  | cons request rest ih => exact ih (h.serve request)

/-- **A violation of a primary-key index stays with the key that made it.** In a synchronous region, after any
requests: no value of the index has two owners; every key with a value is mapped, refused or excluded, in exactly
one of these ways, and a key without one has no slot and no mark; the requests were answered as they are with
any other indexes; and a further put is not refused, and maps its key exactly when the new value has slots and no
other key owns one of them. -/
theorem Opened.violations_contained {r₀ : Region} (h : r₀.Opened)
    (hsync : r₀.settings.maintenance = .synchronous) (actions : List Action) {ix₀ : Index}
    (hid : (id, ix₀) ∈ (r₀.after actions).registry.publishedIndexes) (hkind : ix₀.kind = .primaryKey)
    (requests : List Request) :
    let served := IndexedStore.serveAll Region.serve (r₀.after actions) requests
    ∃ ix, (id, ix) ∈ served.2.registry.publishedIndexes ∧ ix.compiled = ix₀.compiled ∧
      (∀ v k key, ix.store.contains (.defined v) k = true → ix.store.contains (.defined v) key = true → k = key) ∧
      (∀ key, (served.2.get key).1 = .ok (served.2.current key) ∧
        match served.2.current key with
        | none => (∀ slot, ix.store.occurrences slot key = 0) ∧ key ∉ ix.degraded
        | some value => ∃ m : Membership, m.Of ix key value ∧ ∀ m' : Membership, m'.Of ix key value → m' = m) ∧
      (∀ g, (IndexedStore.serveAll Region.serve ((r₀.after actions).withRegistry g) requests).1 = served.1) ∧
      ∀ key value, ∃ r' ix', quiet.put key value served.2 = (.ok (), r') ∧
        (id, ix') ∈ r'.registry.publishedIndexes ∧
        (Membership.mapped.Of ix' key value ↔ ∃ slots, ix.project value = .ok slots ∧
          ∀ v, .defined v ∈ slots → ∀ k, ix.store.contains (.defined v) k = true → k = key) := by
  obtain ⟨hsteady, hsettings, haccounted⟩ := h.accounted hsync actions
  obtain ⟨htarget, hix₀⟩ := hsteady.registry.mem_published hid
  have hfollowing := (haccounted.following hsteady hsettings htarget hix₀).serveAll requests
  intro served
  obtain ⟨ix, hix, hc, hall⟩ := hfollowing.accounts
  have hwf := (hfollowing.registry.index hfollowing.target hix).1
  have hkind' : ix.kind = .primaryKey := by simpa [Index.kind, hc] using hkind
  have hpublished : id ∈ served.2.registry.published := by
    rw [hfollowing.shown]
    exact (Registry.mem_publishedIndexes.1 hid).1
  refine ⟨ix, Registry.mem_publishedIndexes.2 ⟨hpublished, hix⟩, hc, fun v k key hk hkey => ?_, fun key => ?_,
    fun g => ?_, fun key value => ?_⟩
  · exact SlotStore.owner_unique hwf.store (hwf.kind.trans hkind') hk hkey
  · refine ⟨(hfollowing.toSteady.get key).1, ?_⟩
    have haccounts := hall key
    cases hv : served.2.current key with
    | none =>
      rw [show _ = none from hv] at haccounts
      obtain ⟨hslots, hd⟩ := haccounts.absent
      exact ⟨fun slot => by rw [hwf.occurrences, hslots, List.count_nil], hd⟩
    | some value =>
      rw [show _ = some value from hv] at haccounts
      exact haccounts.membership hwf.toFiled
  · obtain ⟨g', hserved⟩ := serveAll_withRegistry (r₀.after actions) g requests
    rw [hserved]
  · obtain ⟨r', hput, hmutated, -⟩ := hfollowing.toSteady.put key value
    have hregistry : r'.registry = served.2.registry.told ⟨key, some value⟩ served.2.registry.targets := by
      rw [hmutated.registry, show served.2.settings.maintenance = .synchronous from hfollowing.synchronous]
      rfl
    refine ⟨r', (ix.maintain key (some value)).2, hput, Registry.mem_publishedIndexes.2 ⟨?_, ?_⟩,
      Index.mapped_iff hwf hkind'⟩
    · rw [hregistry, (Registry.told_sameLists _ _ _).published]
      exact hpublished
    · rw [hregistry, Registry.index?_told hfollowing.registry.targets, if_pos hfollowing.target, hix]
      rfl

/-- A key refused for the slot of another, and put again when that one is gone. -/
def freeing : List Request := [.put (.int 1) (valued 1), .put (.int 2) (valued 1), .destroy (.int 1)]

/-- The key stays refused when its slot is free, and the next put maps it. -/
theorem Opened.violations_contained_freed :
    let r := (IndexedStore.serveAll Region.serve
      ((blank .synchronous).after [.createIndex ownerDefinition]) freeing).2
    ∃ id ix r' ix', (id, ix) ∈ r.registry.publishedIndexes ∧ Membership.refused.Of ix (.int 2) (valued 1) ∧
      quiet.put (.int 2) (valued 1) r = (.ok (), r') ∧ (id, ix') ∈ r'.registry.publishedIndexes ∧
      Membership.mapped.Of ix' (.int 2) (valued 1) := by
  obtain ⟨ix, hpub, -, -, hall, -, hput⟩ := violations_contained (opened_blank .synchronous) rfl
    [.createIndex ownerDefinition] (List.mem_singleton.2 rfl) rfl freeing
  obtain ⟨r', ix', hok, hpub', hmapped⟩ := hput (.int 2) (valued 1)
  obtain ⟨-, m, hm, -⟩ := hall (.int 2)
  obtain rfl := (Prod.mk.inj (List.mem_singleton.1 hpub)).2
  refine ⟨_, _, r', ix', hpub, ?_, hok, hpub', hmapped.2 ⟨_, rfl, ?_⟩⟩
  · cases m with
    | refused => exact hm
    | mapped => exact absurd (List.mem_singleton.2 rfl) hm.2
    | excluded => exact absurd (List.mem_singleton.2 rfl) hm.2.2
  · intro v _ k hk
    cases hk

end Region

end IndexedStore
