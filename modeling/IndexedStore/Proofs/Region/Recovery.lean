import IndexedStore.Proofs.Region.Contents

/-!
# Recovery of persistent regions

The backing store of a persistent region that began with an empty one has at every moment exactly the values of the
region (`Mirrors`), because a put writes the store before it ends, a destroy takes the key out of it, and an eviction
does not touch it. Closing the region leaves the store alone, so a region made again from it has the same values, of
which the first that `LocalRegion::recover` comes to are resident as far as the settings allow (`Persisted.recovers`).
-/

namespace IndexedStore

namespace Table

variable {t t' : Table Key Value}

/-- Two tables with the same values for all keys. -/
structure Same (t t' : Table Key Value) : Prop where
  unique : Unique t
  unique' : Unique t'
  find : ∀ key, find? key t = find? key t'

theorem Same.of_perm (h : t.Perm t') (ht : Unique t) : Same t t' := by
  have hkeys : (keys t).Perm (keys t') := h.map _
  have ht' : Unique t' := hkeys.nodup_iff.1 ht
  refine ⟨ht, ht', fun key => ?_⟩
  ext value
  rw [find?_eq_some_iff ht, find?_eq_some_iff ht', h.mem_iff]

theorem Same.symm (h : Same t t') : Same t' t := ⟨h.unique', h.unique, fun key => (h.find key).symm⟩

theorem Same.trans {t'' : Table Key Value} (h : Same t t') (h' : Same t' t'') : Same t t'' :=
  ⟨h.unique, h'.unique', fun key => (h.find key).trans (h'.find key)⟩

theorem Same.serve (h : Same t t') (path : String) (request : Request) :
    Same (Table.serve path t request).2 (Table.serve path t' request).2 := by
  cases request with
  | put key value =>
    exact ⟨h.unique.set key value, h.unique'.set key value, fun k => by simp [Table.serve, h.find]⟩
  | destroy key =>
    simp only [Table.serve, ← h.find]
    cases find? key t with
    | none => exact h
    | some value =>
      refine ⟨h.unique.erase key, h.unique'.erase key, fun k => ?_⟩
      simp only [find?_erase h.unique, find?_erase h.unique', h.find]
  | get | contains | size | keys => exact h

end Table

namespace Region

variable {t : Table Key Value} {r : Region}

/-! ## The backing store of a persistent region -/

/-- A persistent region whose backing store has the values of the region, and those of a table. -/
structure Mirrors (t : Table Key Value) (r : Region) : Prop extends Denotes t r where
  persistent : r.settings.persistent = true
  mirrored : ∃ stored, r.onDisk = some stored ∧ Table.Same stored t

/-- A request does to the backing store of a persistent region what it does to the table. -/
theorem Mirrors.onDisk_serve (h : r.Mirrors t) {stored : Table Key Value} (hs : r.onDisk = some stored)
    (hsame : Table.Same stored t) (request : Request) :
    (r.serve request).2.onDisk = some (Table.serve r.path stored request).2 := by
  cases request with
  | put key value =>
    obtain ⟨r', hput, -, -, -, hdisk⟩ := h.toSteady.put key value
    simp only [Region.serve, hput, Table.serve, hdisk h.persistent, hs, Option.map_some]
  | get key =>
    obtain ⟨-, -, hspared⟩ := h.toSteady.get key
    exact (hspared.onDisk h.persistent).trans hs
  | destroy key =>
    simp only [Region.serve, Table.serve, hsame.find, ← h.values]
    rcases h.toSteady.destroy key with ⟨hnone, hdestroy⟩ | ⟨value, r', hvalue, hdestroy, -, -, -, hdisk⟩
    · rw [hdestroy, hnone]; exact hs
    · rw [hdestroy, hvalue]; exact hdisk.trans (by rw [hs]; rfl)
  | contains | size | keys => exact hs

theorem Mirrors.serve (h : r.Mirrors t) (request : Request) :
    (r.serve request).2.Mirrors (Table.serve r.path t request).2 := by
  have hserved := h.toDenotes.serve request
  obtain ⟨stored, hs, hsame⟩ := h.mirrored
  exact ⟨hserved.denotes, by rw [hserved.settings]; exact h.persistent, _, h.onDisk_serve hs hsame request,
    hsame.serve r.path request⟩

theorem Mirrors.serveAll (h : r.Mirrors t) (requests : List Request) :
    (serveAll Region.serve r requests).2.Mirrors (serveAll (Table.serve r.path) t requests).2 := by
  induction requests generalizing r t with
  | nil => exact h
  | cons request rest ih =>
    have hrest := ih (h.serve request)
    rw [(h.toDenotes.serve request).path] at hrest
    exact hrest

/-- The table of a region exchanged for one with the same values. -/
theorem Mirrors.congr {t' : Table Key Value} (h : r.Mirrors t) (hsame : Table.Same t t') : r.Mirrors t' := by
  obtain ⟨stored, hs, hstored⟩ := h.mirrored
  exact ⟨⟨h.toSteady, hsame.unique', fun key => (h.values key).trans (hsame.find key)⟩, h.persistent, stored, hs,
    hstored.trans hsame⟩

/-! ## Closing -/

theorem quiet_workerStep_registry (r : Region) : ∃ g, quiet.workerStep r = r.withRegistry g := by
  unfold Host.workerStep
  split
  · exact ⟨r.registry, rfl⟩
  · exact ⟨_, foldl_updateTarget r.dequeued _ _ _⟩

theorem quiet_workerSteps_disk (r : Region) (n : Nat) : (quiet.workerSteps n r).disk = r.disk := by
  induction n generalizing r with
  | zero => rfl
  | succ n ih =>
    obtain ⟨g, hstep⟩ := quiet_workerStep_registry r
    rw [Host.workerSteps, ih, hstep]
    rfl

/-- Closing a region leaves its backing store as it is. -/
theorem quiet_close_disk (r : Region) : (quiet.close r).disk = r.disk := by
  unfold Host.close
  split
  · rfl
  · exact quiet_workerSteps_disk _ _

/-! ## Recovering -/

/-- The keys whose values are resident after a recovery of `keys` that goes on from `n` entries. -/
def recoveredResidents (settings : Settings) (n : Nat) (keys : List Key) : List Key :=
  match settings.overflow with
  | none => keys
  | some limit => keys.take (limit - n)

theorem recoveredResidents_cons (settings : Settings) (n : Nat) (key : Key) (keys : List Key) :
    recoveredResidents settings n (key :: keys) =
      if settings.overflow.all (n < ·) then key :: recoveredResidents settings (n + 1) keys else [] := by
  unfold recoveredResidents
  cases settings.overflow with
  | none => rfl
  | some limit =>
    by_cases hlt : n < limit
    · have hsucc : limit - n = (limit - (n + 1)) + 1 := by omega
      simp [hlt, hsucc]
    · have hzero : limit - n = 0 := by omega
      simp [hlt, hzero]

theorem recoveredResidents_of_full {settings : Settings} {n : Nat}
    (h : settings.overflow.all (n < ·) = false) (keys : List Key) :
    recoveredResidents settings (n + 1) keys = [] := by
  unfold recoveredResidents
  cases ho : settings.overflow with
  | none => simp [ho] at h
  | some limit =>
    have hzero : limit - (n + 1) = 0 := by simp [ho] at h; omega
    simp [hzero]

theorem recoveredResidents_sublist (settings : Settings) (n : Nat) (keys : List Key) :
    (recoveredResidents settings n keys).Sublist keys := by
  unfold recoveredResidents
  split
  · exact .refl keys
  · exact List.take_sublist _ keys

theorem length_recoveredResidents (settings : Settings) (keys : List Key) :
    (recoveredResidents settings 0 keys).length = settings.overflow.elim keys.length (min keys.length) := by
  unfold recoveredResidents
  cases settings.overflow with
  | none => rfl
  | some limit => simp [Nat.min_comm]

/-- One entry recovered that is in the backing store. -/
theorem recoverEntry_entries (h : r.Sound) {disk : BackingStore} (hd : r.disk = some disk) {key : Key}
    {value : Value} (hfound : Table.find? key disk.entries = some value) (n : Nat) :
    (r.recoverEntry n key).1 = n + 1 ∧
      ∀ k, (r.recoverEntry n key).2.entries.find? k =
        if k = key then
          some ⟨if r.settings.overflow.all (n < ·) then .resident value else .evicted, false⟩
        else r.entries.find? k := by
  unfold recoverEntry
  by_cases hroom : r.settings.overflow.all (n < ·) = true
  · simp only [hroom, if_true, hd, Option.getD_some, BackingStore.read, hfound]
    exact ⟨trivial, fun k => Partitioned.find?_set h.entries key k _⟩
  · simp only [hroom]
    exact ⟨rfl, fun k => Partitioned.find?_set h.entries key k _⟩

/-- Recovering keys of the backing store makes an entry of each, resident as far as there is room. -/
theorem recoverEntries_entries (h : r.Sound) {disk : BackingStore} (hd : r.disk = some disk) {keys : List Key}
    (hnodup : keys.Nodup) (hkeys : ∀ k ∈ keys, (Table.find? k disk.entries).isSome = true) (n : Nat) :
    let r' := (keys.foldl (fun (n, r) key => r.recoverEntry n key) (n, r)).2
    r'.onDisk = r.onDisk ∧ (∀ k, r'.contains k = (decide (k ∈ keys) || r.contains k)) ∧
      ∀ k, r'.isResident k =
        if k ∈ keys then decide (k ∈ recoveredResidents r.settings n keys) else r.isResident k := by
  induction keys generalizing r disk n with
  | nil => exact ⟨rfl, fun k => by simp, fun k => by simp⟩
  | cons key rest ih =>
    obtain ⟨hkey, hrest⟩ := List.nodup_cons.1 hnodup
    obtain ⟨value, hfound⟩ := Option.isSome_iff_exists.1 (hkeys key (by simp))
    obtain ⟨hnext, hentries⟩ := recoverEntry_entries h hd hfound n
    have hstored : (r.stored key).isSome = true := by simp [stored, hd, hfound]
    obtain ⟨hchanged, -, disk', hd', hsame⟩ := recoverEntry_spec h hd hstored n
    obtain ⟨hdisk, hcontains, hresident⟩ := ih hchanged.sound hd' hrest
      (fun k hk => by rw [hsame]; exact hkeys k (List.mem_cons_of_mem _ hk)) (r.recoverEntry n key).1
    refine ⟨hdisk.trans (by simp [onDisk, hd, hd', hsame]), fun k => ?_, fun k => ?_⟩
    · rw [List.foldl_cons, hcontains, contains, hentries]
      by_cases hk : k = key <;> simp [hk, contains]
    · rw [List.foldl_cons, hresident, hchanged.settings, hnext, isResident, hentries, recoveredResidents_cons]
      by_cases hroom : r.settings.overflow.all (n < ·) = true
      · by_cases hk : k = key
        · simp [hk, hkey, hroom]
        · simp [hk, hroom, isResident]
      · have hnone := recoveredResidents_of_full (Bool.eq_false_iff.2 hroom) rest
        by_cases hk : k = key
        · simp [hk, hkey, hroom]
        · simp [hk, hroom, hnone, isResident]

/-- The values of a region that writes through are those of its backing store. -/
theorem Sound.current_of_persistent (h : r.Sound) (hp : r.settings.persistent = true) (key : Key) :
    r.current key = if r.contains key then r.stored key else none := by
  unfold contains
  cases hf : r.entries.find? key with
  | none => simp [current_of_none hf]
  | some entry =>
    obtain ⟨value | _, locked⟩ := entry
    · simp [current_of_resident hf, h.through hp key value locked hf]
    · simp [current_of_evicted hf]

/-- What a recovery makes: the values of the backing store, the first of them resident. -/
structure Recovered (settings : Settings) (disk : BackingStore) (r : Region) : Prop
    extends Mirrors disk.entries r where
  resident : ∀ key, r.isResident key = true ↔ key ∈ recoveredResidents settings 0 disk.keys
  sameSettings : r.settings = settings

theorem recover_spec {seeds : Seeds} {path : String} {settings : Settings} {disk : BackingStore}
    (h : recover seeds path settings disk = .ok r) (hunique : Table.Unique disk.entries) :
    Recovered settings disk r := by
  obtain ⟨hsteady, -⟩ := (Opened.recovered h).spec
  unfold recover at h
  split at h
  · cases h
  rename_i hpersistent
  cases hm : make seeds path settings (some disk) with
  | error e => simp [hm] at h
  | ok made =>
    simp only [hm, Except.ok.injEq] at h
    have hr : r = (disk.keys.foldl (fun (n, r) key => r.recoverEntry n key) (0, made)).2 := h.symm
    obtain ⟨hempty, -, hsettings, hdisk, -, -⟩ := make_spec hm
    have hmade := make_steady hm (by simp)
    have hfound : ∀ k ∈ disk.keys, (Table.find? k disk.entries).isSome = true := fun k hk => Table.mem_keys_iff.1 hk
    have hnodup : disk.keys.Nodup := hunique
    obtain ⟨hstored, hcontains, hresident⟩ := recoverEntries_entries hmade.sound hdisk hnodup hfound 0
    obtain ⟨-, -, hkept⟩ := recoverEntries_spec hmade.sound hmade.unlocked hdisk disk.keys hfound 0
    rw [← hr] at hstored hcontains hresident hkept
    have hs : r.settings = settings := hkept.settings.trans hsettings
    have hp : r.settings.persistent = true := by rw [hs]; simpa using hpersistent
    have hnone : ∀ k, made.entries.find? k = none := fun k => by rw [hempty, Partitioned.find?_empty]
    have hall : r.onDisk = some disk.entries := by rw [hstored, onDisk, hdisk]; rfl
    refine ⟨⟨⟨hsteady, hunique, fun key => ?_⟩, hp, _, hall, .of_perm (.refl _) hunique⟩, fun key => ?_, hs⟩
    · have hvalue : r.stored key = Table.find? key disk.entries := by
        obtain ⟨disk', hd', he'⟩ := Option.map_eq_some_iff.1 hall
        simp [stored, hd', he']
      rw [hsteady.sound.current_of_persistent hp, hvalue, hcontains, contains, hnone]
      by_cases hk : key ∈ disk.keys
      · simp [hk]
      · simp [hk, Table.find?_eq_none_iff.2 hk]
    · rw [hresident, hsettings]
      by_cases hk : key ∈ disk.keys
      · simp [hk]
      · have hout : key ∉ recoveredResidents settings 0 disk.keys := fun hmem =>
          hk ((recoveredResidents_sublist settings 0 disk.keys).subset hmem)
        simp [hk, hout, isResident, hnone]

/-- As many entries are resident as the settings allow. -/
theorem Recovered.residency {settings : Settings} {disk : BackingStore} (h : Recovered settings disk r) :
    r.residency.1 = settings.overflow.elim disk.size (min disk.size) := by
  have hnodup : (recoveredResidents settings 0 disk.keys).Nodup :=
    h.unique.sublist (recoveredResidents_sublist settings 0 disk.keys)
  have hperm : (r.keys.filter r.isResident).Perm (recoveredResidents settings 0 disk.keys) := by
    refine (List.perm_ext_iff_of_nodup (h.sound.keys_nodup.filter _) hnodup).2 fun key => ?_
    rw [List.mem_filter, h.resident, and_iff_right_iff_imp]
    exact fun hkey => h.keys_perm.mem_iff.2 ((recoveredResidents_sublist settings 0 disk.keys).subset hkey)
  have hsize : disk.keys.length = disk.size := Table.length_keys disk.entries
  rw [residency_eq h.sound, hperm.length_eq, length_recoveredResidents, hsize]

/-- A recovery with settings that are valid, persistent and for a region that can be is not refused. -/
theorem recover_ok (seeds : Seeds) {path : String} {settings : Settings} (disk : BackingStore) {scope : Scope}
    (hp : settings.persistent = true) (hv : settings.validate = .ok ())
    (hs : Scope.parse path.toList = .ok scope) : ∃ r, recover seeds path settings disk = .ok r := by
  simp [recover, hp, make, hv, hs, bind, Except.bind, pure, Except.pure]

/-! ## Any number of lives -/

/-- A persistent region after requests and recoveries, with the table that answered the requests alike. It began
over an empty backing store, and each recovery was from the store that the last region left, in any order. -/
inductive Persisted : Table Key Value → Region → Prop where
  | made {seeds : Seeds} {path : String} {settings : Settings} {disk : BackingStore} {r : Region}
      (h : make seeds path settings (some disk) = .ok r) (hp : settings.persistent = true)
      (hempty : disk.entries = []) : Persisted [] r
  | served {t : Table Key Value} {r : Region} (h : Persisted t r) (requests : List Request) :
      Persisted (serveAll (Table.serve r.path) t requests).2 (serveAll Region.serve r requests).2
  | recovered {t : Table Key Value} {r r' : Region} {disk reopened : BackingStore} {seeds : Seeds} {path : String}
      {settings : Settings} (h : Persisted t r) (hdisk : (quiet.close r).disk = some disk)
      (horder : reopened.entries.Perm disk.entries) (hr : recover seeds path settings reopened = .ok r') :
      Persisted t r'

/-- What is recovered from the backing store that a region leaves. -/
theorem Mirrors.recovered (h : r.Mirrors t) {disk reopened : BackingStore} (hdisk : (quiet.close r).disk = some disk)
    (horder : reopened.entries.Perm disk.entries) {seeds : Seeds} {path : String} {settings : Settings} {r' : Region}
    (hr : recover seeds path settings reopened = .ok r') :
    Recovered settings reopened r' ∧ Table.Same reopened.entries t := by
  obtain ⟨stored, hs, hsame⟩ := h.mirrored
  obtain rfl : disk.entries = stored := by
    rw [quiet_close_disk] at hdisk
    simpa [onDisk, hdisk] using hs
  have hreopened := (Table.Same.of_perm horder.symm hsame.unique).symm
  exact ⟨recover_spec hr hreopened.unique, hreopened.trans hsame⟩

theorem Persisted.mirrors (h : Persisted t r) : r.Mirrors t := by
  induction h with
  | made h hp hempty =>
    obtain ⟨-, -, hsettings, hdisk, -⟩ := make_spec h
    refine ⟨(denotes_made h (by simp)).1, hsettings ▸ hp, [], ?_, .of_perm (.refl _) Table.unique_nil⟩
    rw [onDisk, hdisk, Option.map_some, hempty]
  | served _ requests ih => exact ih.serveAll requests
  | recovered _ hdisk horder hr ih =>
    obtain ⟨hrecovered, hsame⟩ := ih.recovered hdisk horder hr
    exact hrecovered.toMirrors.congr hsame

/-- **Recovery restores a persistent region.** However often a region was closed and recovered and whatever was
put and destroyed in between, it has the values that a plain table has after the same requests; and closing it
once more leaves a backing store from which a region with other persistent settings is recovered with these
values, in whatever order the store lists them. The first entries listed are resident, as many as the settings
allow, and the others evicted. -/
theorem Persisted.recovers (h : Persisted t r) :
    (∀ key, (r.get key).1 = .ok (Table.find? key t)) ∧ r.size = t.length ∧
      ∃ disk, (quiet.close r).disk = some disk ∧
        ∀ (seeds : Seeds) (path : String) (settings : Settings) (reopened : BackingStore) (scope : Scope),
          settings.persistent = true → settings.validate = .ok () → Scope.parse path.toList = .ok scope →
          reopened.entries.Perm disk.entries →
          ∃ r', recover seeds path settings reopened = .ok r' ∧
            (∀ key, (r'.get key).1 = (r.get key).1) ∧ r'.keys.Perm r.keys ∧
            r'.residency.1 = settings.overflow.elim r.size (min r.size) ∧
            r'.residency.2 = r.size - r'.residency.1 ∧
            ∀ key, r'.isResident key = true ↔ key ∈ recoveredResidents settings 0 reopened.keys := by
  have hmirrors := h.mirrors
  have hread : ∀ key, (r.get key).1 = .ok (Table.find? key t) := fun key => by
    rw [(hmirrors.toSteady.get key).1, hmirrors.values]
  obtain ⟨disk, hdisk⟩ : ∃ disk, (quiet.close r).disk = some disk := by
    obtain ⟨stored, hs, -⟩ := hmirrors.mirrored
    obtain ⟨disk, hd, -⟩ := Option.map_eq_some_iff.1 hs
    exact ⟨disk, (quiet_close_disk r).trans hd⟩
  refine ⟨hread, hmirrors.size_eq, disk, hdisk, fun seeds path settings reopened scope hp hv hs horder => ?_⟩
  obtain ⟨r', hr⟩ := recover_ok seeds reopened hp hv hs
  obtain ⟨hrecovered, hsame⟩ := hmirrors.recovered hdisk horder hr
  have hmirrors' := hrecovered.toMirrors.congr hsame
  have hkeys : r'.keys.Perm r.keys := hmirrors'.keys_perm.trans hmirrors.keys_perm.symm
  have hsize : r'.size = r.size := by rw [← length_keys, ← length_keys, hkeys.length_eq]
  have hstored : reopened.size = r.size := hrecovered.size_eq.symm.trans hsize
  refine ⟨r', hr, fun key => ?_, hkeys, ?_, ?_, hrecovered.resident⟩
  · rw [hread, (hmirrors'.toSteady.get key).1, hmirrors'.values]
  · rw [hrecovered.residency, hstored]
  · rw [show r'.residency.2 = r'.size - r'.residency.1 from rfl, hsize]

/-- Two values, of which one was evicted, recovered from the reversed order where again one may be resident. -/
theorem recovers_reversed : ∃ r : Region,
    make default "/r" ((Settings.partition 2).withPersistence.withOverflow 1) (some .empty) = .ok r ∧
      let served := (IndexedStore.serveAll Region.serve r overflowing).2
      ∃ disk r', (quiet.close served).disk = some disk ∧
        recover default "/r" (Settings.replicate.withPersistence.withOverflow 1)
          { disk with entries := disk.entries.reverse } = .ok r' ∧
        (r'.get (.int 1)).1 = .ok (some (valued 4)) ∧ (r'.get (.int 2)).1 = .ok (some (valued 2)) ∧
        r'.residency = (1, 1) := by
  obtain ⟨r, hmade⟩ : ∃ r, make default "/r" ((Settings.partition 2).withPersistence.withOverflow 1)
      (some .empty) = .ok r := ⟨_, rfl⟩
  obtain ⟨scope, hscope⟩ : ∃ scope, Scope.parse "/r".toList = .ok scope := ⟨_, rfl⟩
  obtain ⟨hread, hsize, disk, hdisk, hrecovers⟩ := ((Persisted.made hmade rfl rfl).served overflowing).recovers
  obtain ⟨r', hr, hsame, -, hresident, hevicted, -⟩ := hrecovers default "/r"
    (Settings.replicate.withPersistence.withOverflow 1) { disk with entries := disk.entries.reverse } scope rfl rfl
    hscope (List.reverse_perm _)
  obtain rfl := Except.ok.inj hmade
  refine ⟨_, rfl, disk, r', hdisk, hr, (hsame _).trans (hread _), (hsame _).trans (hread _), ?_⟩
  have hfirst : r'.residency.1 = 1 := by rw [hresident, hsize]; rfl
  refine Prod.ext hfirst ?_
  rw [hevicted, hfirst, hsize]
  rfl

end Region

end IndexedStore
