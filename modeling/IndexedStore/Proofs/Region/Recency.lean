import IndexedStore.Proofs.Region.Recovery

/-!
# The resident entries are the most recently used ones

The reference for what is resident is a list of keys, the most recently used first (`Recency`): a put moves its key to
the front and drops what is over the limit from the back, a get moves its key to the front if it is there, and a
destroy takes its key out. Residency is kept track of three times, in the list of the region, in the entries and, the
other way round, in the backing store; requests keep the three together with the reference (`Ranked.serve`). The
eviction at the end of a put, `LocalRegion::evict_if_needed`, is the part that touches all of them (`evictFrom_spec`).
-/

namespace IndexedStore

/-- The keys of resident entries, the most recently used first, and how many keys were dropped. -/
structure Recency where
  keys : List Key
  drops : Nat
deriving Repr, DecidableEq

namespace Recency

def empty : Recency := ⟨[], 0⟩

/-- A key moved to the front. -/
def fronted (recent : Recency) (key : Key) : Recency := { recent with keys := key :: recent.keys.erase key }

/-- Keys dropped from the back until at most `limit` are left. -/
def dropped (recent : Recency) (limit : Nat) : Recency :=
  ⟨recent.keys.take limit, recent.drops + (recent.keys.length - limit)⟩

/-- The reference answers a request. -/
def serve (limit : Nat) (recent : Recency) : Request → Recency
  | .put key _ => (recent.fronted key).dropped limit
  | .get key => if key ∈ recent.keys then recent.fronted key else recent
  | .destroy key => { recent with keys := recent.keys.erase key }
  | .contains _ | .size | .keys => recent

def serveAll (limit : Nat) (recent : Recency) (requests : List Request) : Recency :=
  requests.foldl (serve limit) recent

end Recency

/-- The entries of a table whose keys satisfy a condition. -/
theorem Table.find?_filter {α : Type} (p : Key → Bool) (t : Table Key α) (key : Key) :
    Table.find? key (t.filter fun e => p e.1) = if p key then Table.find? key t else none := by
  induction t with
  | nil => simp [Table.find?]
  | cons e t ih =>
    obtain ⟨k, a⟩ := e
    rw [List.filter_cons]
    by_cases hk : k = key
    · subst hk
      split <;> rename_i hp
      · simp [Table.find?]
      · rw [ih]
        simp [hp]
    · split <;> simp [Table.find?, hk, ih]

namespace Region

variable {r r' : Region}

/-- What the backing store is to have of a key: the value of an entry that is evicted, or of any entry in a region
that writes through. -/
def shelfOf (r : Region) (key : Key) : Option Value :=
  if r.settings.persistent = true ∨ r.isResident key = false then r.current key else none

/-- The backing store has what it is to have, and nothing else. -/
def Shelved (r : Region) : Prop :=
  ∃ stored, r.onDisk = some stored ∧ Table.Unique stored ∧ ∀ key, Table.find? key stored = r.shelfOf key

theorem Shelved.congr (h : r.Shelved) (hd : r'.onDisk = r.onDisk) (hs : ∀ key, r'.shelfOf key = r.shelfOf key) :
    r'.Shelved := by
  obtain ⟨stored, hstored, hunique, hfind⟩ := h
  exact ⟨stored, hd.trans hstored, hunique, fun key => (hfind key).trans (hs key).symm⟩

theorem isResident_congr {key : Key} (h : r'.entries.find? key = r.entries.find? key) :
    r'.isResident key = r.isResident key := by
  simp only [isResident, h]

theorem isResident_iff {key : Key} :
    r.isResident key = true ↔ ∃ value locked, r.entries.find? key = some ⟨.resident value, locked⟩ := by
  unfold isResident
  cases r.entries.find? key with
  | none => simp
  | some entry => obtain ⟨_ | _, _⟩ := entry <;> simp

theorem shelfOf_congr {key : Key} (hs : r'.settings = r.settings)
    (hr : r'.isResident key = true ↔ r.isResident key = true) (hc : r'.current key = r.current key) :
    r'.shelfOf key = r.shelfOf key := by
  simp only [shelfOf, hs, Bool.eq_iff_iff.2 hr, hc]

theorem Shelved.disk_isSome (h : r.Shelved) : r.disk.isSome = true := by
  obtain ⟨stored, hstored, -⟩ := h
  cases hd : r.disk with
  | none => simp [onDisk, hd] at hstored
  | some disk => rfl

/-- One more value on the shelf, or another. -/
theorem Shelved.set (h : r.Shelved) {key : Key} {value : Value}
    (hd : r'.onDisk = r.onDisk.map (Table.set key value)) (hkey : r'.shelfOf key = some value)
    (hothers : ∀ k, k ≠ key → r'.shelfOf k = r.shelfOf k) : r'.Shelved := by
  obtain ⟨stored, hstored, hunique, hfind⟩ := h
  refine ⟨_, by rw [hd, hstored]; rfl, hunique.set key value, fun k => ?_⟩
  rw [Table.find?_set]
  by_cases hk : k = key
  · rw [if_pos hk.symm, hk, hkey]
  · rw [if_neg (Ne.symm hk), hfind, hothers k hk]

/-- One value taken off the shelf. -/
theorem Shelved.erase (h : r.Shelved) {key : Key} (hd : r'.onDisk = r.onDisk.map (Table.erase key))
    (hkey : r'.shelfOf key = none) (hothers : ∀ k, k ≠ key → r'.shelfOf k = r.shelfOf k) : r'.Shelved := by
  obtain ⟨stored, hstored, hunique, hfind⟩ := h
  refine ⟨_, by rw [hd, hstored]; rfl, hunique.erase key, fun k => ?_⟩
  rw [Table.find?_erase hunique]
  by_cases hk : k = key
  · rw [if_pos hk.symm, hk, hkey]
  · rw [if_neg (Ne.symm hk), hfind, hothers k hk]

/-- What is not on the shelf need not be taken off. -/
theorem Shelved.erase_absent (h : r.Shelved) {key : Key} (hnone : r.shelfOf key = none) :
    r.onDisk = r.onDisk.map (Table.erase key) := by
  obtain ⟨stored, hstored, -, hfind⟩ := h
  rw [hstored, Option.map_some, Table.erase_of_find?_eq_none ((hfind key).trans hnone)]

/-! ## Eviction -/

/-- A resident value evicted: the entry is not resident any more, and the backing store has its value. -/
theorem evict?_shelved (h : r.Sound) (hs : r.Shelved) {key : Key} (hfree : r.lockedAt key = false)
    (hres : r.isResident key = true) :
    ∃ r', r.evict? key = some r' ∧ Undisturbed r r' ∧
      (∀ k, r'.isResident k = true ↔ k ≠ key ∧ r.isResident k = true) ∧
      r'.counters.evictions = r.counters.evictions + 1 ∧ r'.Shelved := by
  obtain ⟨value, locked, hf⟩ := isResident_iff.1 hres
  obtain rfl : locked = false := (lockedAt_of_entry hf).symm.trans hfree
  obtain ⟨r', he⟩ : ∃ r', r.evict? key = some r' := by simp [evict?, hf]
  have hund := evict?_spec h hs.disk_isSome he
  have hparts : r'.entries = r.entries.set key ⟨.evicted, false⟩ ∧
      r'.counters.evictions = r.counters.evictions + 1 ∧
      r'.onDisk = if r.settings.persistent then r.onDisk else r.onDisk.map (Table.set key value) := by
    simp only [evict?, hf, Bool.false_eq_true, if_false, Option.some.injEq] at he
    subst he
    by_cases hp : r.settings.persistent = true
    · simp only [hp, if_true]
      exact ⟨trivial, trivial, rfl⟩
    · simp only [hp]
      exact ⟨rfl, rfl, onDisk_writeDisk r key value⟩
  obtain ⟨hentries, hevictions, hdisk⟩ := hparts
  have hresident : ∀ k, r'.isResident k = true ↔ k ≠ key ∧ r.isResident k = true := by
    intro k
    simp only [isResident_iff, hentries, Partitioned.find?_set h.entries]
    by_cases hk : k = key <;> simp [hk]
  have hothers : ∀ k, k ≠ key → r'.shelfOf k = r.shelfOf k := fun k hk =>
    shelfOf_congr hund.settings (by simp [hresident, hk]) (hund.current k)
  -- the entry that was evicted is on the shelf now, whether or not it was before
  have hkey : r'.shelfOf key = some value := by
    rw [shelfOf, if_pos (.inr (Bool.eq_false_iff.2 fun hr => ((hresident key).1 hr).1 rfl)), hund.current,
      current_of_resident hf]
  refine ⟨r', he, hund, hresident, hevictions, ?_⟩
  split at hdisk <;> rename_i hp
  · have hbefore : r.shelfOf key = some value := by rw [shelfOf, if_pos (.inl hp), current_of_resident hf]
    refine hs.congr hdisk fun k => ?_
    by_cases hk : k = key
    · rw [hk, hkey, hbefore]
    · exact hothers k hk
  · exact hs.set hdisk hkey hothers

/-- **Evicting from the oldest on leaves the last `limit` values resident, and the others in the backing store.** -/
theorem evictFrom_spec (h : r.Sound) (hfree : ∀ key, r.lockedAt key = false) (hs : r.Shelved) (limit : Nat)
    (oldest : List Key) (hnodup : oldest.Nodup) (hres : ∀ key, r.isResident key = true ↔ key ∈ oldest) :
    let r' := r.evictFrom limit oldest
    let left := oldest.drop (oldest.length - limit)
    r'.recency = left ∧ (∀ key, r'.isResident key = true ↔ key ∈ left) ∧
      r'.counters.evictions = r.counters.evictions + (oldest.length - limit) ∧ r'.Shelved := by
  induction oldest generalizing r with
  | nil =>
    simp only [List.drop_nil, List.length_nil, Nat.zero_sub, Nat.add_zero]
    exact ⟨rfl, hres, rfl, hs⟩
  | cons key rest ih =>
    obtain ⟨hkey, hrest⟩ := List.nodup_cons.1 hnodup
    unfold evictFrom
    split
    · rename_i hshort
      have hzero : (key :: rest).length - limit = 0 := by simp; omega
      simp only [hzero, List.drop_zero, Nat.add_zero]
      exact ⟨trivial, hres, trivial, hs⟩
    · rename_i hlong
      obtain ⟨r₁, he, hund, hresident, hevictions, hshelved⟩ :=
        evict?_shelved h hs (hfree key) ((hres key).2 List.mem_cons_self)
      have hres₁ : ∀ k, r₁.isResident k = true ↔ k ∈ rest := by
        intro k
        rw [hresident, hres, List.mem_cons]
        constructor
        · rintro ⟨hne, rfl | hk⟩
          · exact absurd rfl hne
          · exact hk
        · intro hk
          exact ⟨fun heq => hkey (heq ▸ hk), .inr hk⟩
      have hdrop : (key :: rest).length - limit = (rest.length - limit) + 1 := by simp; omega
      obtain ⟨hrecency, hleft, hcount, hshelved'⟩ :=
        ih hund.sound (fun k => (hund.locks k).trans (hfree k)) hshelved hrest hres₁
      simp only [he, hdrop, List.drop_succ_cons]
      exact ⟨hrecency, hleft, by rw [hcount, hevictions]; omega, hshelved'⟩

/-! ## The phases of a put -/

/-- What counting a put and dropping the evicted value does: it may take the key out of the backing store. -/
theorem countPut_dropEvicted (r : Region) (key : Key) (old : Option EntryValue) :
    let r' := (r.countPut old).dropEvicted key old
    r'.entries = r.entries ∧ r'.recency = r.recency ∧ r'.counters.evictions = r.counters.evictions ∧
      r'.onDisk = match old with
        | some .evicted => if r.settings.persistent then r.onDisk else r.onDisk.map (Table.erase key)
        | _ => r.onDisk := by
  rcases old with _ | (_ | _)
  · exact ⟨rfl, rfl, rfl, rfl⟩
  · exact ⟨rfl, rfl, rfl, rfl⟩
  · simp only [dropEvicted]
    by_cases hp : r.settings.persistent = true
    · simp only [countPut, hp, if_true]
      exact ⟨trivial, trivial, trivial, rfl⟩
    · simp only [countPut, hp, Bool.false_eq_true, if_false]
      exact ⟨rfl, rfl, rfl, onDisk_removeDisk r key⟩

/-- The first phase makes the entry resident, and takes the key off the shelf of a region that does not write
through. -/
theorem beginPut_shelved (h : r.Sound) (hs : r.Shelved) {key : Key} {value : Value} {event : EntryEvent}
    (hb : r.beginPut key value = .ok (event, r')) :
    r'.recency = r.recency ∧ r'.counters.evictions = r.counters.evictions ∧
      (∀ k, r'.isResident k = true ↔ k = key ∨ r.isResident k = true) ∧ r'.Shelved := by
  obtain ⟨hchanged, -, hcurrent, -⟩ := beginPut_spec h hb
  obtain ⟨-, -, hthrough⟩ := beginPut_counts hb
  have hparts : r'.entries = r.entries.set key ⟨.resident value, true⟩ ∧ r'.recency = r.recency ∧
      r'.counters.evictions = r.counters.evictions ∧
      (r.settings.persistent = false → r'.onDisk = r.onDisk.map (Table.erase key)) := by
    unfold beginPut at hb
    split at hb
    · cases hb
    · simp only at hb
      split at hb
      · cases hb
      · rw [← (Prod.mk.inj (Except.ok.inj hb)).2]
        obtain ⟨hentries, hrecency, hevictions, hdisk⟩ := countPut_dropEvicted
          { (if r.settings.persistent then r.writeDisk key value else r) with
            entries := (if r.settings.persistent then r.writeDisk key value else r).entries.set key
              ⟨.resident value, true⟩ } key ((r.entries.find? key).map (·.value))
        refine ⟨hentries.trans ?_, hrecency.trans ?_, hevictions.trans ?_, fun hp => hdisk.trans ?_⟩
        · split <;> rfl
        · split <;> rfl
        · split <;> rfl
        · -- only a key that is evicted is on the shelf, and has to be taken off
          rcases hf : r.entries.find? key with _ | ⟨_ | _, locked⟩
          all_goals simp only [hp, Bool.false_eq_true, if_false, Option.map_some, Option.map_none]
          · exact hs.erase_absent (by simp [shelfOf, current_of_none hf])
          · exact hs.erase_absent (by simp [shelfOf, hp, isResident, hf])
          · rfl
  obtain ⟨hentries, hrecency, hevictions, haside⟩ := hparts
  have hresident : ∀ k, r'.isResident k = true ↔ k = key ∨ r.isResident k = true := by
    intro k
    simp only [isResident_iff, hentries, Partitioned.find?_set h.entries]
    by_cases hk : k = key <;> simp [hk]
  have hothers : ∀ k, k ≠ key → r'.shelfOf k = r.shelfOf k := fun k hk =>
    shelfOf_congr hchanged.settings (by simp [hresident, hk]) (hchanged.current k hk)
  have hkey : r'.isResident key = true := (hresident key).2 (.inl rfl)
  refine ⟨hrecency, hevictions, hresident, ?_⟩
  cases hp : r.settings.persistent with
  | true => exact hs.set (hthrough hp) (by rw [shelfOf, if_pos (.inl (hchanged.settings ▸ hp)), hcurrent]) hothers
  | false => exact hs.erase (haside hp) (by rw [shelfOf, if_neg (by simp [hkey, hchanged.settings, hp])]) hothers

theorem unlock_parts (h : r.Sound) (key : Key) :
    (r.unlock key).recency = r.recency ∧ (r.unlock key).counters = r.counters ∧
      (r.unlock key).onDisk = r.onDisk ∧ ∀ k, (r.unlock key).isResident k = r.isResident k := by
  unfold unlock
  cases hf : r.entries.find? key with
  | none => exact ⟨rfl, rfl, rfl, fun _ => rfl⟩
  | some entry =>
    refine ⟨rfl, rfl, rfl, fun k => ?_⟩
    simp only [isResident, Partitioned.find?_set h.entries]
    by_cases hk : k = key
    · subst hk
      obtain ⟨_ | _, _⟩ := entry <;> simp [hf]
    · simp [hk]

/-! ## Requests in a row -/

/-- A region with the residents of a reference. -/
structure Tracked (limit : Nat) (recent : Recency) (r : Region) : Prop where
  limited : r.settings.overflow = some limit
  order : r.recency = recent.keys.reverse
  nodup : recent.keys.Nodup
  resident : ∀ key, r.isResident key = true ↔ key ∈ recent.keys
  evictions : r.counters.evictions = recent.drops
  shelved : r.Shelved

/-- A region between two operations with the residents of a reference that keeps to the limit. -/
structure Ranked (limit : Nat) (recent : Recency) (r : Region) : Prop extends Steady r, Tracked limit recent r where
  short : recent.keys.length ≤ limit

variable {limit : Nat} {recent : Recency}

theorem reverse_erase {keys : List Key} (hn : keys.Nodup) (key : Key) :
    (keys.erase key).reverse = keys.reverse.erase key := by
  rw [hn.erase_eq_filter, (List.nodup_reverse.2 hn).erase_eq_filter, List.filter_reverse]

/-- A key moved to the front, in the order of the region. -/
theorem reverse_fronted (hn : recent.keys.Nodup) (key : Key) :
    (recent.fronted key).keys.reverse = recent.keys.reverse.erase key ++ [key] := by
  rw [Recency.fronted, List.reverse_cons, reverse_erase hn]

theorem nodup_fronted (hn : recent.keys.Nodup) (key : Key) : (recent.fronted key).keys.Nodup :=
  List.nodup_cons.2 ⟨hn.not_mem_erase, hn.erase key⟩

theorem mem_fronted {key k : Key} : k ∈ (recent.fronted key).keys ↔ k = key ∨ k ∈ recent.keys := by
  by_cases hk : k = key
  · simp [Recency.fronted, hk]
  · simp [Recency.fronted, hk, List.mem_erase_of_ne]

/-- Evicting what is over the limit is dropping from the back. -/
theorem Tracked.evictOverflow (h : r.Tracked limit recent) (hs : r.Sound) (hfree : ∀ key, r.lockedAt key = false) :
    r.evictOverflow.Tracked limit (recent.dropped limit) := by
  have hevict : r.evictOverflow = r.evictFrom limit r.recency := by simp [Region.evictOverflow, h.limited]
  have hspared := evictFrom_spared r limit r.recency
  obtain ⟨hrecency, hresident, hevictions, hshelved⟩ := evictFrom_spec hs hfree h.shelved limit
    r.recency (by rw [h.order]; exact List.nodup_reverse.2 h.nodup)
    (fun key => by rw [h.order, List.mem_reverse, h.resident])
  have hleft : r.recency.drop (r.recency.length - limit) = (recent.keys.take limit).reverse := by
    rw [h.order, List.reverse_take, List.length_reverse]
  rw [hleft] at hrecency hresident
  rw [hevict]
  refine ⟨hspared.settings ▸ h.limited, hrecency, h.nodup.sublist (List.take_sublist _ _), ?_, ?_, hshelved⟩
  · simpa [Recency.dropped] using hresident
  · rw [hevictions, h.evictions, h.order, List.length_reverse]
    rfl

/-- **A put makes its key the most recently used one, and evicts those that are over the limit.** -/
theorem Ranked.put (h : r.Ranked limit recent) (key : Key) (value : Value) :
    (quiet.put key value r).2.Ranked limit ((recent.fronted key).dropped limit) := by
  obtain ⟨event, r₁, g, hbegin, hput, hm⟩ := h.toSteady.put_phases key value
  obtain ⟨hchanged, -⟩ := beginPut_spec h.sound hbegin
  obtain ⟨hrecency, hevictions, hresident, hshelved⟩ := beginPut_shelved h.sound h.shelved hbegin
  have hlimited : r₁.settings.overflow = some limit := hchanged.settings ▸ h.limited
  -- the region as it is when values are to be evicted
  let touched : Region := { r₁.withRegistry g with recency := r₁.recency.erase key ++ [key] }
  have htouch : (r₁.withRegistry g).touch key = touched := by
    have : (r₁.withRegistry g).settings.overflow.isSome = true := by
      show r₁.settings.overflow.isSome = true
      rw [hlimited]
      rfl
    rw [touch, if_pos this]
    rfl
  have hsound : touched.Sound := (recency_undisturbed (hchanged.sound.withRegistry g) _).sound
  obtain ⟨hunlock, hcurrent, hfreed⟩ := unlock_spec hsound key
  obtain ⟨hrecency', hcounters, hdisk, hresident'⟩ := unlock_parts hsound key
  have hfree : ∀ k, (touched.unlock key).lockedAt k = false := by
    intro k
    by_cases hk : k = key
    · rw [hk, hfreed]
    · rw [hunlock.locks k hk]
      exact (hchanged.locks k hk).trans (h.unlocked k)
  have hready : (touched.unlock key).Tracked limit (recent.fronted key) := by
    refine ⟨hunlock.settings ▸ hlimited, ?_, nodup_fronted h.nodup key, fun k => ?_, ?_, ?_⟩
    · rw [hrecency', reverse_fronted h.nodup, ← h.order, ← hrecency]
    · rw [hresident', mem_fronted, ← h.resident]
      exact hresident k
    · rw [hcounters]
      exact hevictions.trans h.evictions
    · refine hshelved.congr hdisk fun k => shelfOf_congr hunlock.settings (by rw [hresident']; rfl) ?_
      by_cases hk : k = key
      · rw [hk, hcurrent]
        rfl
      · exact hunlock.current k hk
  rw [hput]
  refine ⟨(Transition.mutated _ hm).steady h.toSteady, ?_, List.length_take_le _ _⟩
  rw [endPut, htouch]
  exact hready.evictOverflow hunlock.sound hfree

/-! ## The other requests -/

/-- What reading an evicted value leaves alone: all but the count of that. -/
structure SameRanks (r r' : Region) : Prop where
  recency : r'.recency = r.recency
  evictions : r'.counters.evictions = r.counters.evictions
  onDisk : r'.onDisk = r.onDisk

theorem readValue_sameRanks (r : Region) (key : Key) : SameRanks r (r.readValue key).2 := by
  have hfault : SameRanks r (r.faultIn key).2 := by
    unfold faultIn
    cases hd : r.disk with
    | none => exact ⟨rfl, rfl, rfl⟩
    | some disk =>
      simp only [BackingStore.read]
      cases Table.find? key disk.entries <;> exact ⟨rfl, rfl, by simp [Region.onDisk, hd]⟩
  unfold readValue valueOf
  split
  · exact ⟨rfl, rfl, rfl⟩
  · rename_i entry _
    obtain ⟨value | _, locked⟩ := entry
    · exact ⟨rfl, rfl, rfl⟩
    · simp only
      generalize r.faultIn key = outcome at hfault
      obtain ⟨_ | _, r'⟩ := outcome <;> exact hfault

/-- A get reads the value, and if there is one makes the key recently used. -/
theorem Steady.get_parts (h : r.Steady) (key : Key) :
    (r.get key).2.recency =
        (if r.current key ≠ none ∧ key ∈ r.recency then r.recency.erase key ++ [key] else r.recency) ∧
      (r.get key).2.counters.evictions = r.counters.evictions ∧ (r.get key).2.onDisk = r.onDisk := by
  have hread := (readValue_spec h.sound key).1
  obtain ⟨hrecency, hevictions, hdisk⟩ := readValue_sameRanks r key
  unfold Region.get
  simp only [ensureLive, h.live, Bool.false_eq_true, if_false]
  generalize r.readValue key = outcome at hread hrecency hevictions hdisk
  obtain ⟨read, r'⟩ := outcome
  simp only at hread hrecency hevictions hdisk
  subst hread
  cases r.current key with
  | none => exact ⟨by simp [hrecency], hevictions, hdisk⟩
  | some value =>
    simp only [promote, hrecency]
    split <;> rename_i hlisted
    · exact ⟨by simp [hlisted], hevictions, hdisk⟩
    · exact ⟨by simp [hlisted, hrecency], hevictions, hdisk⟩

/-- An entry that is resident has a value. -/
theorem current_of_isResident {key : Key} (h : r.isResident key = true) : r.current key ≠ none := by
  obtain ⟨value, locked, hf⟩ := isResident_iff.1 h
  rw [current_of_resident hf]
  exact Option.some_ne_none value

/-- **A get makes its key the most recently used one if it is resident; an evicted value stays evicted.** -/
theorem Ranked.get (h : r.Ranked limit recent) (key : Key) :
    (r.get key).2.Ranked limit (if key ∈ recent.keys then recent.fronted key else recent) := by
  have hsame := get_same r key
  have hund := hsame.undisturbed h.sound
  obtain ⟨hrecency, hevictions, hdisk⟩ := h.toSteady.get_parts key
  have hresident : ∀ k, (r.get key).2.isResident k = r.isResident k := fun k =>
    isResident_congr (by rw [hsame.entries])
  have hshelved : (r.get key).2.Shelved :=
    h.shelved.congr hdisk fun k => shelfOf_congr hsame.settings (by rw [hresident]) (hund.current k)
  have hlisted : (r.current key ≠ none ∧ key ∈ r.recency) ↔ key ∈ recent.keys := by
    rw [h.order, List.mem_reverse]
    exact ⟨And.right, fun hk => ⟨current_of_isResident ((h.resident key).2 hk), hk⟩⟩
  simp only [hlisted] at hrecency
  refine ⟨(Transition.none hsame).steady h.toSteady, ?_, ?_⟩
  · split <;> rename_i hk
    · refine ⟨hsame.settings ▸ h.limited, ?_, nodup_fronted h.nodup key, fun k => ?_, hevictions.trans h.evictions,
        hshelved⟩
      · rw [hrecency, if_pos hk, reverse_fronted h.nodup, h.order]
      · rw [hresident, h.resident, mem_fronted]
        exact ⟨.inr, fun hor => hor.elim (fun heq => heq ▸ hk) id⟩
    · refine ⟨hsame.settings ▸ h.limited, ?_, h.nodup, fun k => ?_, hevictions.trans h.evictions, hshelved⟩
      · rw [hrecency, if_neg hk, h.order]
      · rw [hresident, h.resident]
  · split <;> rename_i hk
    · show (key :: recent.keys.erase key).length ≤ limit
      rw [(List.perm_cons_erase hk).symm.length_eq]
      exact h.short
    · exact h.short

/-- **A destroy takes its key out.** -/
theorem Ranked.destroy (h : r.Ranked limit recent) (key : Key) :
    (quiet.destroy key r).2.Ranked limit { recent with keys := recent.keys.erase key } := by
  cases hf : r.entries.find? key with
  | none =>
    -- nothing is destroyed, and the key is not resident
    have hnot : key ∉ recent.keys := fun hmem =>
      current_of_isResident ((h.resident key).2 hmem) (current_of_none hf)
    have hrefused : (quiet.destroy key r).2 = r := by
      rcases h.toSteady.destroy key with ⟨-, hdestroy⟩ | ⟨value, -, hvalue, -⟩
      · rw [hdestroy]
      · rw [current_of_none hf] at hvalue
        cases hvalue
    rw [hrefused, List.erase_of_not_mem hnot]
    exact h
  | some entry =>
    obtain ⟨g, hdestroy, hm⟩ := h.toSteady.destroy_phases hf
    have hresident : ∀ k, ((r.unmapped key).withRegistry g).isResident k = true ↔
        k ≠ key ∧ r.isResident k = true := by
      intro k
      have hentries : ((r.unmapped key).withRegistry g).entries = r.entries.erase key := rfl
      simp only [isResident_iff, hentries, Partitioned.find?_erase h.sound.entries]
      by_cases hk : k = key <;> simp [hk]
    have hshelved : ((r.unmapped key).withRegistry g).Shelved := by
      refine h.shelved.erase (onDisk_removeDisk r key) ?_ fun k hk => ?_
      · rw [shelfOf, hm.current, if_pos rfl, ite_self]
      · exact shelfOf_congr hm.settings (by simp [hresident, hk]) (by rw [hm.current, if_neg hk])
    rw [hdestroy]
    refine ⟨(Transition.mutated _ hm).steady h.toSteady, ⟨h.limited, ?_, h.nodup.erase key, fun k => ?_,
      h.evictions, hshelved⟩, Nat.le_trans (List.length_erase_le ..) h.short⟩
    · show r.recency.erase key = _
      rw [h.order, reverse_erase h.nodup]
    · rw [hresident, h.resident, h.nodup.mem_erase_iff]

/-- **A request does to the residents what it does to the reference.** -/
theorem Ranked.serve (h : r.Ranked limit recent) (request : Request) :
    (r.serve request).2.Ranked limit (recent.serve limit request) := by
  cases request with
  | put key value => exact h.put key value
  | get key => exact h.get key
  | destroy key => exact h.destroy key
  | contains | size | keys => exact h

theorem Ranked.serveAll (h : r.Ranked limit recent) (requests : List Request) :
    (serveAll Region.serve r requests).2.Ranked limit (recent.serveAll limit requests) := by
  induction requests generalizing r recent with
  | nil => exact h
  | cons request rest ih => exact ih (h.serve request)

/-! ## A new region -/

theorem make_recency {seeds : Seeds} {path : String} {settings : Settings} {disk : Option BackingStore}
    (h : make seeds path settings disk = .ok r) : r.recency = [] := by
  unfold make at h
  simp only [bind, Except.bind, pure, Except.pure, throw, throwThe, MonadExceptOf.throw] at h
  split at h
  · cases h
  · split at h
    · cases h
    · cases h; rfl

/-- A limit on resident values is not zero. -/
theorem limit_pos {seeds : Seeds} {path : String} {settings : Settings} {disk : Option BackingStore}
    (h : make seeds path settings disk = .ok r) {limit : Nat} (hl : settings.overflow = some limit) :
    0 < limit := by
  rcases Nat.eq_zero_or_pos limit with rfl | hpos
  · have hfault : settings.fault? ≠ none := by
      simp only [Settings.fault?, hl, if_true]
      split <;> simp
    unfold make Settings.validate at h
    cases hf : settings.fault? with
    | none => exact absurd hf hfault
    | some fault => simp [hf, bind, Except.bind] at h
  · exact hpos

theorem ranked_made {seeds : Seeds} {path : String} {settings : Settings} {disk : BackingStore}
    (h : make seeds path settings (some disk) = .ok r) (hd : disk.entries = []) {limit : Nat}
    (hl : settings.overflow = some limit) {g : Registry} (hg : g.WF) :
    (r.withRegistry g).Denotes [] ∧ (r.withRegistry g).Ranked limit .empty := by
  obtain ⟨hdenotes, hcounters⟩ := denotes_made h (by simp)
  obtain ⟨hentries, -, hsettings, hdisk, -⟩ := make_spec h
  have hsteady : (r.withRegistry g).Steady :=
    ⟨hdenotes.sound.withRegistry g, hg, hdenotes.live, hdenotes.unlocked⟩
  refine ⟨⟨hsteady, Table.unique_nil, hdenotes.values⟩, hsteady, ⟨?_, ?_, .nil, fun key => ?_, ?_, [], ?_,
    Table.unique_nil, fun key => ?_⟩, Nat.zero_le _⟩
  · exact hsettings ▸ hl
  · exact (make_recency h : r.recency = [])
  · simp [isResident, withRegistry, hentries, Partitioned.find?_empty, Recency.empty]
  · exact congrArg (·.evictions) hcounters
  · simp [onDisk, withRegistry, hdisk, hd]
  · have hnone : (r.withRegistry g).current key = none := hdenotes.values key
    simp [shelfOf, hnone]

/-- **The resident entries are the most recently used ones.** A region with a limit on resident values, new over
an empty backing store and with whatever indexes, serves puts, gets and destroys in a row. After them its list of
residents, the entries that are resident and the count of evictions are those of the reference; the backing store
has exactly the evicted entries with their values, or exactly all entries where values are written through; and
what is put next is resident. -/
theorem residents_ranked {seeds : Seeds} {path : String} {settings : Settings} {disk : BackingStore}
    (h : make seeds path settings (some disk) = .ok r) (hd : disk.entries = []) {limit : Nat}
    (hl : settings.overflow = some limit) {g : Registry} (hg : g.WF) (requests : List Request) :
    let served := (IndexedStore.serveAll Region.serve (r.withRegistry g) requests).2
    let table := (IndexedStore.serveAll (Table.serve r.path) [] requests).2
    let recent := Recency.empty.serveAll limit requests
    served.recency = recent.keys.reverse ∧ served.recency.Nodup ∧ served.recency.length ≤ limit ∧
      (∀ key, served.isResident key = true ↔ key ∈ recent.keys) ∧
      served.counters.evictions = recent.drops ∧
      (∃ stored, served.onDisk = some stored ∧ Table.Same stored
        (if settings.persistent then table else table.filter fun e => !served.isResident e.1)) ∧
      ∀ key value, (quiet.put key value served).2.isResident key = true := by
  intro served table recent
  obtain ⟨hdenotes, hranked⟩ := ranked_made h hd hl hg
  obtain ⟨-, hvalues, -, hsettings, -⟩ := hdenotes.serveAll requests
  have hafter : served.Ranked limit recent := hranked.serveAll requests
  have hvalues : served.Denotes table := hvalues
  have hpersistent : served.settings.persistent = settings.persistent := by
    rw [show served.settings = r.settings from hsettings, (make_spec h).2.2.1]
  have hlength : served.recency.length = recent.keys.length := by rw [hafter.order, List.length_reverse]
  refine ⟨hafter.order, hafter.order ▸ List.nodup_reverse.2 hafter.nodup, hlength ▸ hafter.short, hafter.resident,
    hafter.evictions, ?_, fun key value => ?_⟩
  · obtain ⟨stored, hstored, hunique, hfind⟩ := hafter.shelved
    refine ⟨stored, hstored, hunique, ?_, fun key => ?_⟩
    · split
      · exact hvalues.unique
      · exact List.Nodup.sublist (List.filter_sublist.map _) hvalues.unique
    · rw [hfind, shelfOf, hpersistent, hvalues.values]
      split <;> rename_i hkept
      · split <;> rename_i hp
        · rfl
        · rw [Table.find?_filter fun k => !served.isResident k]
          simp [hkept.resolve_left hp]
      · obtain ⟨hp, hres⟩ := not_or.1 hkept
        rw [if_neg hp, Table.find?_filter fun k => !served.isResident k]
        simp [hres]
  · rw [(hafter.put key value).resident]
    show key ∈ (key :: recent.keys.erase key).take limit
    obtain ⟨n, rfl⟩ := Nat.exists_eq_succ_of_ne_zero (limit_pos h hl).ne'
    exact List.mem_cons_self

/-- An entry that is written again is resident again, and the one that was destroyed is nowhere. -/
theorem residents_ranked_overflowing : ∃ r : Region,
    make default "/r" ((Settings.partition 2).withOverflow 1) (some .empty) = .ok r ∧
      let indexed := r.withRegistry ((blank .synchronous).after [.createIndex valueDefinition]).registry
      let served := (IndexedStore.serveAll Region.serve indexed overflowing).2
      served.recency = [.int 1] ∧ served.counters.evictions = 3 ∧
        ∃ stored, served.onDisk = some stored ∧ Table.Same stored [(.int 2, valued 2)] := by
  obtain ⟨r, hmade⟩ : ∃ r, make default "/r" ((Settings.partition 2).withOverflow 1) (some .empty) = .ok r :=
    ⟨_, rfl⟩
  have hg := ((opened_blank .synchronous).served rfl [.createIndex valueDefinition]).1.registry
  obtain ⟨horder, -, -, hresident, hevictions, ⟨stored, hstored, hsame⟩, -⟩ :=
    residents_ranked hmade rfl rfl hg overflowing
  have hrecent : Recency.empty.serveAll 1 overflowing = ⟨[.int 1], 3⟩ := by decide +kernel
  have htable : (IndexedStore.serveAll (Table.serve r.path) [] overflowing).2 =
      [(.int 1, valued 4), (.int 2, valued 2)] := rfl
  rw [hrecent] at horder hresident hevictions
  refine ⟨r, hmade, horder, hevictions, stored, hstored, ?_⟩
  rw [htable, if_neg (by decide)] at hsame
  simpa [← Bool.not_eq_true, hresident] using hsame

end Region

end IndexedStore
