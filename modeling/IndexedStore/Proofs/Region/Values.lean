import IndexedStore.Region.Operations
import IndexedStore.Proofs.Region.Partitioned

/-!
# The values of a region

`current` is the value that a region has for a key, resident or in the backing store. Of a sound region
it is what reading gives (`readValue_spec`), because every evicted value is in the backing store. Each
phase of a mutation has a spec lemma that says what becomes of the values and of the locks; reading,
promoting and evicting change no value, and no phase looks at the indexes.
-/

namespace IndexedStore

namespace Region

/-- The value of a key in the backing store. -/
def stored (r : Region) (key : Key) : Option Value := r.disk.bind fun disk => Table.find? key disk.entries

/-- The value of a key. -/
def current (r : Region) (key : Key) : Option Value :=
  match r.entries.find? key with
  | none => none
  | some ⟨.resident value, _⟩ => some value
  | some ⟨.evicted, _⟩ => r.stored key

/-- Whether a mutation of a key is in progress. -/
def lockedAt (r : Region) (key : Key) : Bool := (r.entries.find? key).any (·.locked)

/-- No value is lost: an evicted one is in the backing store, and so is every value of a persistent
region. -/
structure Sound (r : Region) : Prop where
  entries : r.entries.WF
  disk : r.settings.usesDisk = true → r.disk.isSome = true
  evicted : ∀ key locked, r.entries.find? key = some ⟨.evicted, locked⟩ → (r.stored key).isSome = true
  through : r.settings.persistent = true → ∀ key value locked,
    r.entries.find? key = some ⟨.resident value, locked⟩ → r.stored key = some value

/-- What no operation on entries changes. -/
structure Kept (r r' : Region) : Prop where
  path : r'.path = r.path
  settings : r'.settings = r.settings
  registry : r'.registry = r.registry
  destroyed : r'.destroyed = r.destroyed
  disk : r'.disk.isSome = r.disk.isSome

theorem Kept.refl (r : Region) : Kept r r := ⟨rfl, rfl, rfl, rfl, rfl⟩

theorem Kept.trans {a b c : Region} (h : Kept a b) (h' : Kept b c) : Kept a c :=
  ⟨h'.path.trans h.path, h'.settings.trans h.settings, h'.registry.trans h.registry,
    h'.destroyed.trans h.destroyed, h'.disk.trans h.disk⟩

theorem current_eq_none_iff {r : Region} (h : r.Sound) {key : Key} :
    r.current key = none ↔ r.entries.find? key = none := by
  unfold current
  cases hf : r.entries.find? key with
  | none => simp
  | some entry =>
    obtain ⟨_ | _, locked⟩ := entry
    · simp
    · have := h.evicted key locked hf
      simp [Option.isSome_iff_ne_none.1 this]

theorem current_congr {r r' : Region} {key : Key} (he : r'.entries.find? key = r.entries.find? key)
    (hs : r'.stored key = r.stored key) : r'.current key = r.current key := by
  simp only [current, he, hs]

theorem current_of_resident {r : Region} {key : Key} {value : Value} {locked : Bool}
    (h : r.entries.find? key = some ⟨.resident value, locked⟩) : r.current key = some value := by
  simp [current, h]

theorem current_of_evicted {r : Region} {key : Key} {locked : Bool}
    (h : r.entries.find? key = some ⟨.evicted, locked⟩) : r.current key = r.stored key := by
  simp [current, h]

theorem current_of_none {r : Region} {key : Key} (h : r.entries.find? key = none) : r.current key = none := by
  simp [current, h]

theorem lockedAt_congr {r r' : Region} {key : Key} (he : r'.entries.find? key = r.entries.find? key) :
    r'.lockedAt key = r.lockedAt key := by
  simp only [lockedAt, he]

theorem lockedAt_of_entry {r : Region} {key : Key} {value : EntryValue} {locked : Bool}
    (h : r.entries.find? key = some ⟨value, locked⟩) : r.lockedAt key = locked := by
  simp [lockedAt, h]

theorem lockedAt_of_none {r : Region} {key : Key} (h : r.entries.find? key = none) :
    r.lockedAt key = false := by
  simp [lockedAt, h]

/-! ## Frames -/

/-- Entries and stored values are what they were. -/
structure SameValues (r r' : Region) : Prop extends Kept r r' where
  entries : r'.entries = r.entries
  stored : ∀ key, r'.stored key = r.stored key

/-- Values and locks are what they were but at one key. -/
structure ChangedAt (key : Key) (r r' : Region) : Prop extends Kept r r' where
  sound : r'.Sound
  current : ∀ k, k ≠ key → r'.current k = r.current k
  locks : ∀ k, k ≠ key → r'.lockedAt k = r.lockedAt k

/-- All values and locks are what they were. -/
structure Undisturbed (r r' : Region) : Prop extends Kept r r' where
  sound : r'.Sound
  current : ∀ k, r'.current k = r.current k
  locks : ∀ k, r'.lockedAt k = r.lockedAt k

theorem SameValues.refl (r : Region) : SameValues r r := ⟨.refl r, rfl, fun _ => rfl⟩

theorem SameValues.trans {a b c : Region} (h : SameValues a b) (h' : SameValues b c) : SameValues a c :=
  ⟨h.toKept.trans h'.toKept, h'.entries.trans h.entries, fun key => (h'.stored key).trans (h.stored key)⟩

/-- A region that is the same but for its indexes and what is counted. -/
structure SameEntries (r r' : Region) : Prop where
  path : r'.path = r.path
  settings : r'.settings = r.settings
  destroyed : r'.destroyed = r.destroyed
  entries : r'.entries = r.entries
  disk : r'.disk.isSome = r.disk.isSome
  stored : ∀ key, r'.stored key = r.stored key

theorem SameEntries.refl (r : Region) : SameEntries r r := ⟨rfl, rfl, rfl, rfl, rfl, fun _ => rfl⟩

theorem SameEntries.trans {a b c : Region} (h : SameEntries a b) (h' : SameEntries b c) : SameEntries a c :=
  ⟨h'.path.trans h.path, h'.settings.trans h.settings, h'.destroyed.trans h.destroyed, h'.entries.trans h.entries,
    h'.disk.trans h.disk, fun key => (h'.stored key).trans (h.stored key)⟩

theorem SameValues.sameEntries {r r' : Region} (h : SameValues r r') : SameEntries r r' :=
  ⟨h.path, h.settings, h.destroyed, h.entries, h.disk, h.stored⟩

theorem SameValues.undisturbed {r r' : Region} (h : SameValues r r') (hr : r.Sound) : Undisturbed r r' where
  toKept := h.toKept
  sound := {
    entries := by rw [h.entries]; exact hr.entries
    disk := fun hu => by rw [h.disk]; exact hr.disk (h.settings ▸ hu)
    evicted := fun key locked hf => by rw [h.stored]; exact hr.evicted key locked (h.entries ▸ hf)
    through := by
      intro hp key value locked hf
      rw [h.stored]; exact hr.through (h.settings ▸ hp) key value locked (h.entries ▸ hf) }
  current k := current_congr (by rw [h.entries]) (h.stored k)
  locks k := lockedAt_congr (by rw [h.entries])

theorem Undisturbed.refl {r : Region} (h : r.Sound) : Undisturbed r r :=
  ⟨.refl r, h, fun _ => rfl, fun _ => rfl⟩

theorem Undisturbed.trans {a b c : Region} (h : Undisturbed a b) (h' : Undisturbed b c) : Undisturbed a c :=
  ⟨h.toKept.trans h'.toKept, h'.sound, fun k => (h'.current k).trans (h.current k),
    fun k => (h'.locks k).trans (h.locks k)⟩

theorem Undisturbed.changedAt {r r' : Region} (h : Undisturbed r r') (key : Key) : ChangedAt key r r' :=
  ⟨h.toKept, h.sound, fun k _ => h.current k, fun k _ => h.locks k⟩

theorem ChangedAt.refl {r : Region} (h : r.Sound) (key : Key) : ChangedAt key r r :=
  (Undisturbed.refl h).changedAt key

theorem ChangedAt.trans {key : Key} {a b c : Region} (h : ChangedAt key a b) (h' : ChangedAt key b c) :
    ChangedAt key a c :=
  ⟨h.toKept.trans h'.toKept, h'.sound, fun k hk => (h'.current k hk).trans (h.current k hk),
    fun k hk => (h'.locks k hk).trans (h.locks k hk)⟩

/-- A change at a key that leaves the key's value and lock as they were. -/
theorem ChangedAt.undisturbed {key : Key} {r r' : Region} (h : ChangedAt key r r')
    (hc : r'.current key = r.current key) (hl : r'.lockedAt key = r.lockedAt key) : Undisturbed r r' where
  toKept := h.toKept
  sound := h.sound
  current k := by
    by_cases hk : k = key
    · rw [hk]; exact hc
    · exact h.current k hk
  locks k := by
    by_cases hk : k = key
    · rw [hk]; exact hl
    · exact h.locks k hk

/-- The entry and the stored value of one key exchanged, so that no value is lost. -/
theorem changedAt_of_entry {key : Key} {r r' : Region} (hr : r.Sound) (hk : Kept r r')
    (hwf : r'.entries.WF) (he : ∀ k, k ≠ key → r'.entries.find? k = r.entries.find? k)
    (hs : ∀ k, k ≠ key → r'.stored k = r.stored k)
    (hevicted : ∀ locked, r'.entries.find? key = some ⟨.evicted, locked⟩ → (r'.stored key).isSome = true)
    (hthrough : r.settings.persistent = true → ∀ value locked,
      r'.entries.find? key = some ⟨.resident value, locked⟩ → r'.stored key = some value) :
    ChangedAt key r r' where
  toKept := hk
  sound := {
    entries := hwf
    disk := fun hu => by rw [hk.disk]; exact hr.disk (hk.settings ▸ hu)
    evicted := by
      intro k locked hf
      by_cases hkey : k = key
      · subst hkey; exact hevicted locked hf
      · rw [hs k hkey]; exact hr.evicted k locked (he k hkey ▸ hf)
    through := by
      intro hp k value locked hf
      rw [hk.settings] at hp
      by_cases hkey : k = key
      · subst hkey; exact hthrough hp value locked hf
      · rw [hs k hkey]; exact hr.through hp k value locked (he k hkey ▸ hf) }
  current k hkey := current_congr (he k hkey) (hs k hkey)
  locks k hkey := lockedAt_congr (he k hkey)

/-- An entry set for a key of which the right value is stored, where it has to be. -/
theorem setEntry_spec {key : Key} {r w r' : Region} (hr : r.Sound) (entry : Entry)
    (hw : w.entries = r.entries) (hs : ∀ k, k ≠ key → w.stored k = r.stored k) (hk : Kept r r')
    (he : r'.entries = w.entries.set key entry) (hd : r'.disk = w.disk)
    (hevicted : entry.value = .evicted → (w.stored key).isSome = true)
    (hthrough : r.settings.persistent = true → ∀ value, entry.value = .resident value →
      w.stored key = some value) :
    ChangedAt key r r' ∧ r'.entries.find? key = some entry := by
  have hset : ∀ k, r'.entries.find? k = if k = key then some entry else r.entries.find? k := by
    intro k
    rw [he, hw]; exact Partitioned.find?_set hr.entries key k entry
  have hkey : r'.entries.find? key = some entry := (hset key).trans (if_pos rfl)
  have hstored : ∀ k, r'.stored k = w.stored k := fun k => by simp only [stored, hd]
  refine ⟨changedAt_of_entry hr hk (by rw [he, hw]; exact hr.entries.set key entry)
    (fun k hne => (hset k).trans (if_neg hne)) (fun k hne => (hstored k).trans (hs k hne))
    (fun locked hf => ?_) (fun hp value locked hf => ?_), hkey⟩
  · rw [hstored]
    exact hevicted (by rw [Option.some.inj (hkey.symm.trans hf)])
  · rw [hstored]
    exact hthrough hp value (by rw [Option.some.inj (hkey.symm.trans hf)])

/-! ## Reading -/

theorem faultIn_spec (r : Region) (key : Key) : SameValues r (r.faultIn key).2 ∧
    ∀ value, r.stored key = some value → (r.faultIn key).1 = .ok value := by
  unfold faultIn
  cases hd : r.disk with
  | none => exact ⟨.refl r, by simp [stored, hd]⟩
  | some disk =>
    simp only [BackingStore.read]
    cases hf : Table.find? key disk.entries with
    | none =>
      exact ⟨⟨⟨rfl, rfl, rfl, rfl, by simp [hd]⟩, rfl, fun k => by simp [stored, hd]⟩,
        by simp [stored, hd, hf]⟩
    | some value =>
      refine ⟨⟨⟨rfl, rfl, rfl, rfl, by simp [hd]⟩, rfl, fun k => by simp [stored, hd]⟩, ?_⟩
      intro v hv
      have : value = v := by simpa [stored, hd, hf] using hv
      rw [this]

/-- **Reading gives the value there is, and changes none.** -/
theorem readValue_spec {r : Region} (h : r.Sound) (key : Key) :
    (r.readValue key).1 = .ok (r.current key) ∧ SameValues r (r.readValue key).2 := by
  unfold readValue current
  cases hf : r.entries.find? key with
  | none => exact ⟨rfl, .refl r⟩
  | some entry =>
    obtain ⟨value | _, locked⟩ := entry
    · exact ⟨rfl, .refl r⟩
    · obtain ⟨value, hv⟩ := Option.isSome_iff_exists.1 (h.evicted key locked hf)
      obtain ⟨hsame, hok⟩ := faultIn_spec r key
      have hread := hok value hv
      simp only [valueOf]
      generalize r.faultIn key = outcome at hsame hread
      obtain ⟨_ | _, r'⟩ := outcome
      · cases hread
      · obtain rfl := Except.ok.inj hread
        exact ⟨congrArg Except.ok hv.symm, hsame⟩

theorem promote_same (r : Region) (key : Key) : SameValues r (r.promote key) := by
  unfold promote
  split <;> exact ⟨⟨rfl, rfl, rfl, rfl, rfl⟩, rfl, fun _ => rfl⟩

/-- Reading changes no value even where a value is missing. -/
theorem readValue_same (r : Region) (key : Key) : SameValues r (r.readValue key).2 := by
  unfold readValue
  split
  · exact .refl r
  · rename_i entry _
    obtain ⟨value | _, locked⟩ := entry
    · exact .refl r
    · have hsame := (faultIn_spec r key).1
      simp only [valueOf]
      generalize r.faultIn key = outcome at hsame
      obtain ⟨_ | _, r'⟩ := outcome <;> exact hsame

theorem get_same (r : Region) (key : Key) : SameValues r (r.get key).2 := by
  unfold get
  split
  · exact .refl r
  · have hread := readValue_same r key
    generalize r.readValue key = outcome at hread
    obtain ⟨_ | (_ | _), r'⟩ := outcome
    · exact hread
    · exact hread
    · exact hread.trans (promote_same r' key)

theorem snapshot_same (r : Region) (key : Key) : SameValues r (r.snapshot key).2 := by
  unfold snapshot
  split
  · exact .refl r
  · split
    · exact .refl r
    · split
      · exact .refl r
      · split
        · exact .refl r
        · have hsame := (faultIn_spec r key).1
          split <;> rename_i h <;> rw [h] at hsame <;> exact hsame

/-- An entry that is not locked is read as it stands in a region that is not closed. -/
theorem snapshot_spec {r : Region} (h : r.Sound) (hlive : r.destroyed = false) {key : Key}
    (hl : r.lockedAt key = false) :
    SameValues r (r.snapshot key).2 ∧ ∃ fromDisk, (r.snapshot key).1 = .ok ⟨r.current key, fromDisk⟩ := by
  unfold snapshot ensureLive current
  simp only [hlive, Bool.false_eq_true, if_false]
  cases hf : r.entries.find? key with
  | none => exact ⟨.refl r, false, rfl⟩
  | some entry =>
    obtain ⟨value | _, locked⟩ := entry
    all_goals
      obtain rfl : locked = false := (lockedAt_of_entry hf).symm.trans hl
      simp only [Bool.false_eq_true, if_false]
    · exact ⟨.refl r, false, rfl⟩
    · obtain ⟨value, hv⟩ := Option.isSome_iff_exists.1 (h.evicted key false hf)
      obtain ⟨hsame, hok⟩ := faultIn_spec r key
      have hread := hok value hv
      generalize r.faultIn key = outcome at hsame hread
      obtain ⟨_ | _, r'⟩ := outcome
      · cases hread
      · obtain rfl := Except.ok.inj hread
        exact ⟨hsame, true, by rw [hv]⟩

/-! ## Writing -/

theorem stored_writeDisk {r : Region} (hd : r.disk.isSome = true) (key k : Key) (value : Value) :
    (r.writeDisk key value).stored k = if k = key then some value else r.stored k := by
  obtain ⟨disk, hd⟩ := Option.isSome_iff_exists.1 hd
  by_cases hk : k = key
  · subst hk; simp [stored, writeDisk, BackingStore.write, hd]
  · simp [stored, writeDisk, BackingStore.write, hd, hk, Ne.symm hk]

theorem writeDisk_kept (r : Region) (key : Key) (value : Value) : Kept r (r.writeDisk key value) :=
  ⟨rfl, rfl, rfl, rfl, by simp [writeDisk]⟩

theorem writeDisk_spec {r : Region} (hd : r.disk.isSome = true) (key : Key) (value : Value) :
    Kept r (r.writeDisk key value) ∧ (r.writeDisk key value).entries = r.entries ∧
      (∀ k, k ≠ key → (r.writeDisk key value).stored k = r.stored k) ∧
      (r.writeDisk key value).stored key = some value := by
  refine ⟨writeDisk_kept r key value, rfl, ?_, ?_⟩
  · intro k hk
    rw [stored_writeDisk hd, if_neg hk]
  · rw [stored_writeDisk hd, if_pos rfl]

theorem stored_removeDisk (r : Region) {key k : Key} (hk : k ≠ key) :
    (r.removeDisk key).stored k = r.stored k := by
  cases hd : r.disk with
  | none => simp [stored, removeDisk, hd]
  | some disk =>
    simp only [stored, removeDisk, hd, Option.map_some, Option.bind_some, BackingStore.remove]
    split
    · exact Table.find?_erase_of_ne (Ne.symm hk)
    · rfl

theorem removeDisk_kept (r : Region) (key : Key) : Kept r (r.removeDisk key) :=
  ⟨rfl, rfl, rfl, rfl, by simp [removeDisk]⟩

/-- A region that writes through has the value in its backing store before it is in the entry. -/
theorem writeThrough_spec {r : Region} (h : r.Sound) (key : Key) (value : Value) :
    let w : Region := if r.settings.persistent then r.writeDisk key value else r
    Kept r w ∧ w.entries = r.entries ∧ (∀ k, k ≠ key → w.stored k = r.stored k) ∧
      (r.settings.persistent = true → w.stored key = some value) := by
  intro w
  by_cases hp : r.settings.persistent = true
  · have hd : r.disk.isSome = true := h.disk (by simp [Settings.usesDisk, hp])
    have hw : w = r.writeDisk key value := if_pos hp
    rw [hw]
    obtain ⟨hkept, hentries, hothers, hstored⟩ := writeDisk_spec hd key value
    exact ⟨hkept, hentries, hothers, fun _ => hstored⟩
  · have hw : w = r := if_neg hp
    rw [hw]
    exact ⟨.refl r, rfl, fun _ _ => rfl, fun hp' => absurd hp' hp⟩

theorem countPut_same (r : Region) (old : Option EntryValue) : SameValues r (r.countPut old) := by
  cases old <;> exact ⟨⟨rfl, rfl, rfl, rfl, rfl⟩, rfl, fun _ => rfl⟩

/-- A replaced value may go from the backing store once the new one is resident; one that writes through
keeps it. -/
theorem dropEvicted_spec {r : Region} (h : r.Sound) {key : Key} {value : Value} {locked : Bool}
    (hf : r.entries.find? key = some ⟨.resident value, locked⟩) (old : Option EntryValue) :
    ChangedAt key r (r.dropEvicted key old) ∧
      (r.dropEvicted key old).entries.find? key = some ⟨.resident value, locked⟩ := by
  rcases old with _ | (_ | _)
  · exact ⟨.refl h key, hf⟩
  · exact ⟨.refl h key, hf⟩
  · by_cases hp : r.settings.persistent = true
    · rw [dropEvicted, if_pos hp]
      exact ⟨.refl h key, hf⟩
    · rw [dropEvicted, if_neg hp]
      refine ⟨changedAt_of_entry h (removeDisk_kept r key) h.entries (fun _ _ => rfl)
        (fun k hk => stored_removeDisk r hk) ?_ (fun hp' => absurd hp' hp), hf⟩
      intro locked' hf'
      cases hf.symm.trans hf'

/-- **The first phase of a put writes the value and locks the entry, which was not locked.** -/
theorem beginPut_spec {r r' : Region} (h : r.Sound) {key : Key} {value : Value} {event : EntryEvent}
    (hb : r.beginPut key value = .ok (event, r')) :
    ChangedAt key r r' ∧ r.lockedAt key = false ∧ r'.current key = some value ∧ r'.lockedAt key = true ∧
      event.key = key ∧ event.new.value? = some value ∧ event.operation ≠ .evict := by
  unfold beginPut at hb
  split at hb
  · cases hb
  · simp only at hb
    split at hb
    · cases hb
    · rename_i hunlocked
      simp only [Except.ok.injEq, Prod.mk.injEq] at hb
      obtain ⟨rfl, rfl⟩ := hb
      let old := (r.entries.find? key).map (·.value)
      let w : Region := if r.settings.persistent then r.writeDisk key value else r
      let e : Region := { w with entries := w.entries.set key ⟨.resident value, true⟩ }
      obtain ⟨hk, hw, hs, hp⟩ := writeThrough_spec h key value
      have hke : Kept r e := ⟨hk.path, hk.settings, hk.registry, hk.destroyed, hk.disk⟩
      obtain ⟨hset, hentry⟩ := setEntry_spec h ⟨.resident value, true⟩ hw hs hke rfl rfl (by simp)
        (fun hpersistent v hv => by rw [← EntryValue.resident.inj hv]; exact hp hpersistent)
      have hcount := countPut_same e old
      have hentry' : (e.countPut old).entries.find? key = some ⟨.resident value, true⟩ := by
        rw [hcount.entries]; exact hentry
      have hcounted := hcount.undisturbed hset.sound
      obtain ⟨hdrop, hlast⟩ := dropEvicted_spec hcounted.sound hentry' old
      refine ⟨(hset.trans (hcounted.changedAt key)).trans hdrop, by simpa [lockedAt] using hunlocked,
        current_of_resident hlast, lockedAt_of_entry hlast, ?_⟩
      unfold putEvent
      split <;> simp [EventValue.value?]

theorem touch_same (r : Region) (key : Key) : SameValues r (r.touch key) := by
  unfold touch
  split <;> exact ⟨⟨rfl, rfl, rfl, rfl, rfl⟩, rfl, fun _ => rfl⟩

theorem unlock_spec {r : Region} (h : r.Sound) (key : Key) :
    ChangedAt key r (r.unlock key) ∧ (r.unlock key).current key = r.current key ∧
      (r.unlock key).lockedAt key = false := by
  unfold unlock
  cases hf : r.entries.find? key with
  | none => exact ⟨.refl h key, rfl, lockedAt_of_none hf⟩
  | some entry =>
    obtain ⟨value, locked⟩ := entry
    have hk : Kept r { r with entries := r.entries.set key ⟨value, false⟩ } := ⟨rfl, rfl, rfl, rfl, rfl⟩
    obtain ⟨hchanged, hentry⟩ := setEntry_spec (w := r) h ⟨value, false⟩ rfl (fun _ _ => rfl) hk rfl rfl
      (fun hv => h.evicted key locked (by rw [hf, ← hv]))
      (fun hp v hv => h.through hp key v locked (by rw [hf, ← hv]))
    refine ⟨hchanged, ?_, lockedAt_of_entry hentry⟩
    cases value with
    | resident v => exact (current_of_resident hentry).trans (current_of_resident hf).symm
    | evicted => exact (current_of_evicted hentry).trans (current_of_evicted hf).symm

/-- **Evicting changes no value and no lock.** -/
theorem evict?_spec {r r' : Region} (h : r.Sound) (hd : r.disk.isSome = true) {key : Key}
    (he : r.evict? key = some r') : Undisturbed r r' := by
  unfold evict? at he
  cases hf : r.entries.find? key with
  | none =>
    simp only [hf, Option.some.injEq] at he
    exact he ▸ .refl h
  | some entry =>
    obtain ⟨value, locked⟩ := entry
    simp only [hf] at he
    split at he
    · cases he
    · rename_i hunlocked
      obtain rfl : locked = false := by simpa using hunlocked
      cases value with
      | evicted =>
        simp only [Option.some.injEq] at he
        exact he ▸ .refl h
      | resident value =>
        simp only [Option.some.injEq] at he
        subst he
        -- the value is in the backing store before the entry forgets it
        let w : Region := if r.settings.persistent then r else r.writeDisk key value
        have hw : Kept r w ∧ w.entries = r.entries ∧ (∀ k, k ≠ key → w.stored k = r.stored k) ∧
            w.stored key = some value := by
          by_cases hp : r.settings.persistent = true
          · have hw : w = r := if_pos hp
            rw [hw]
            exact ⟨.refl r, rfl, fun _ _ => rfl, h.through hp key value false hf⟩
          · have hw : w = r.writeDisk key value := if_neg hp
            rw [hw]
            exact writeDisk_spec hd key value
        obtain ⟨hk, hwe, hws, hstored⟩ := hw
        let r' : Region := { w with
          entries := w.entries.set key ⟨.evicted, false⟩
          counters := { w.counters with evictions := w.counters.evictions + 1 } }
        have hk' : Kept r r' := ⟨hk.path, hk.settings, hk.registry, hk.destroyed, hk.disk⟩
        obtain ⟨hchanged, hentry⟩ := setEntry_spec h ⟨.evicted, false⟩ hwe hws hk' rfl rfl
          (fun _ => Option.isSome_iff_exists.2 ⟨value, hstored⟩) (by simp)
        refine hchanged.undisturbed ?_ ?_
        · exact ((current_of_evicted hentry).trans hstored).trans (current_of_resident hf).symm
        · exact (lockedAt_of_entry hentry).trans (lockedAt_of_entry hf).symm

theorem recency_undisturbed {r : Region} (h : r.Sound) (recency : List Key) :
    Undisturbed r { r with recency := recency } :=
  SameValues.undisturbed ⟨⟨rfl, rfl, rfl, rfl, rfl⟩, rfl, fun _ => rfl⟩ h

theorem evictFrom_undisturbed {r : Region} (h : r.Sound) (hd : r.disk.isSome = true) (limit : Nat)
    (oldest : List Key) : Undisturbed r (r.evictFrom limit oldest) := by
  induction oldest generalizing r with
  | nil => exact recency_undisturbed h []
  | cons key rest ih =>
    unfold evictFrom
    split
    · exact recency_undisturbed h _
    · cases he : r.evict? key with
      | none => exact recency_undisturbed h _
      | some evicted =>
        have hstep := evict?_spec h hd he
        exact hstep.trans (ih hstep.sound (hstep.disk.trans hd))

/-- **The last phase of a put unlocks the entry, and changes no value.** -/
theorem endPut_spec {r : Region} (h : r.Sound) (key : Key) :
    ChangedAt key r (r.endPut key) ∧ (r.endPut key).current key = r.current key ∧
      (r.endPut key).lockedAt key = false := by
  have htouch := (touch_same r key).undisturbed h
  obtain ⟨hunlock, hcurrent, hlocked⟩ := unlock_spec htouch.sound key
  have hevict : Undisturbed ((r.touch key).unlock key) (r.endPut key) := by
    unfold endPut evictOverflow
    split
    · rename_i limit hlimit
      have hd := hunlock.sound.disk (by simp [Settings.usesDisk, hlimit])
      exact evictFrom_undisturbed hunlock.sound hd limit _
    · exact .refl hunlock.sound
  refine ⟨((htouch.changedAt key).trans hunlock).trans (hevict.changedAt key), ?_, ?_⟩
  · rw [hevict.current, hcurrent, htouch.current]
  · rw [hevict.locks, hlocked]

/-- **A destroy takes out an entry that is there and not locked.** -/
theorem unmap_spec {r r' : Region} (h : r.Sound) {key : Key} {event : EntryEvent}
    (hu : r.unmap key = .ok (event, r')) :
    ChangedAt key r r' ∧ r.lockedAt key = false ∧ r.current key ≠ none ∧ r'.current key = none ∧
      r'.lockedAt key = false ∧ event.key = key ∧ event.new.value? = none ∧ event.operation ≠ .evict := by
  unfold unmap at hu
  split at hu
  · cases hu
  · cases hf : r.entries.find? key with
    | none => simp [hf] at hu
    | some entry =>
      simp only [hf] at hu
      split at hu
      · cases hu
      · rename_i hunlocked
        simp only [Except.ok.injEq, Prod.mk.injEq] at hu
        obtain ⟨rfl, rfl⟩ := hu
        have herase : ∀ k, (r.entries.erase key).find? k = if k = key then none else r.entries.find? k :=
          fun k => Partitioned.find?_erase h.entries key k
        have hnone : (r.entries.erase key).find? key = none := (herase key).trans (if_pos rfl)
        have hkept := removeDisk_kept { r with entries := r.entries.erase key } key
        refine ⟨changedAt_of_entry h ⟨rfl, rfl, rfl, rfl, hkept.disk⟩ (h.entries.erase key)
          (fun k hk => (herase k).trans (if_neg hk))
          (fun k hk => stored_removeDisk { r with entries := r.entries.erase key } hk)
          ?_ ?_, ?_, ?_, ?_, ?_, rfl, rfl, by simp [EntryEvent.destroyed]⟩
        · intro locked hf'
          cases hnone.symm.trans hf'
        · intro _ v locked hf'
          cases hnone.symm.trans hf'
        · simpa [lockedAt, hf] using hunlocked
        · rw [Ne, current_eq_none_iff h, hf]
          simp
        · exact current_of_none hnone
        · exact lockedAt_of_none hnone

end Region

end IndexedStore
