import IndexedStore.Proofs.Region.Runs

/-!
# A region is a table

The requests about entries are answered by a region and by a plain table in which each key stands once.
Whatever the settings, the two answer alike (`served_as_table`): an entry can be resident or evicted, and its
value written through or moved out, without anyone being able to tell, but that a destroy gives the last
value only of a resident entry. Beside the values, `Spared` is what the eviction at the end of a put leaves
alone: the counts of creates and destroys, and the backing store of a region that writes through.
-/

namespace IndexedStore

/-- A request about the entries. -/
inductive Request where
  | put (key : Key) (value : Value)
  | get (key : Key)
  | destroy (key : Key)
  | contains (key : Key)
  | size
  | keys

/-- What a request that is not refused is answered with. -/
inductive Answer where
  | done
  | value (value : Option Value)
  /-- The last value of the entry that is gone, where it is told. -/
  | destroyed (value : Option Value)
  | found (found : Bool)
  | number (n : Nat)
  | listed (keys : List Key)

/-- A request answered by a region. -/
def Region.serve (r : Region) : Request → Except Error Answer × Region
  | .put key value => let (outcome, r) := quiet.put key value r; (outcome.map fun _ => .done, r)
  | .get key => let (outcome, r) := r.get key; (outcome.map .value, r)
  | .destroy key => let (outcome, r) := quiet.destroy key r; (outcome.map .destroyed, r)
  | .contains key => (.ok (.found (r.contains key)), r)
  | .size => (.ok (.number r.size), r)
  | .keys => (.ok (.listed r.keys), r)

/-- A request answered by a plain table that stands for the region of a path. -/
def Table.serve (path : String) (t : Table Key Value) : Request → Except Error Answer × Table Key Value
  | .put key value => (.ok .done, Table.set key value t)
  | .get key => (.ok (.value (Table.find? key t)), t)
  | .destroy key =>
    match Table.find? key t with
    | some value => (.ok (.destroyed (some value)), Table.erase key t)
    | none => (.error (.entryNotFound key path), t)
  | .contains key => (.ok (.found (Table.contains key t)), t)
  | .size => (.ok (.number t.length), t)
  | .keys => (.ok (.listed (Table.keys t)), t)

/-- Requests answered one after another. -/
def serveAll {σ : Type} (serve : σ → Request → Except Error Answer × σ) (s : σ) :
    List Request → List (Except Error Answer) × σ
  | [] => ([], s)
  | request :: rest =>
    let (answer, s) := serve s request
    let (answers, s) := serveAll serve s rest
    (answer :: answers, s)

/-- An answer is the expected one, but for the order of keys, and a last value may be withheld. -/
inductive Answer.Agrees : Except Error Answer → Except Error Answer → Prop
  | same (answer : Except Error Answer) : Agrees answer answer
  | withheld (value : Value) : Agrees (.ok (.destroyed none)) (.ok (.destroyed (some value)))
  | reordered {keys keys' : List Key} (h : keys.Perm keys') : Agrees (.ok (.listed keys)) (.ok (.listed keys'))

namespace Region

variable {r : Region}

/-- The contents of the backing store. -/
def onDisk (r : Region) : Option (Table Key Value) := r.disk.map (·.entries)

theorem onDisk_writeDisk (r : Region) (key : Key) (value : Value) :
    (r.writeDisk key value).onDisk = r.onDisk.map (Table.set key value) := by
  cases hd : r.disk <;> simp [onDisk, writeDisk, hd, BackingStore.write]

theorem onDisk_removeDisk (r : Region) (key : Key) :
    (r.removeDisk key).onDisk = r.onDisk.map (Table.erase key) := by
  cases hd : r.disk with
  | none => simp [onDisk, removeDisk, hd]
  | some disk =>
    simp only [onDisk, removeDisk, hd, BackingStore.remove, Option.map_some, Option.some.injEq]
    split
    · rfl
    · rename_i habsent
      exact (Table.erase_of_find?_eq_none (by simpa [Table.contains] using habsent)).symm

/-! ## What reading and evicting leave alone -/

/-- The counts of creates and destroys are what they were, and so are the contents of the backing store of a
region that writes through. -/
structure Spared (r r' : Region) : Prop where
  settings : r'.settings = r.settings
  creates : r'.counters.creates = r.counters.creates
  destroys : r'.counters.destroys = r.counters.destroys
  onDisk : r.settings.persistent = true → r'.onDisk = r.onDisk

theorem Spared.refl (r : Region) : Spared r r := ⟨rfl, rfl, rfl, fun _ => rfl⟩

theorem Spared.trans {a b c : Region} (h : Spared a b) (h' : Spared b c) : Spared a c :=
  ⟨h'.settings.trans h.settings, h'.creates.trans h.creates, h'.destroys.trans h.destroys,
    fun hp => (h'.onDisk (by rw [h.settings]; exact hp)).trans (h.onDisk hp)⟩

theorem faultIn_spared (r : Region) (key : Key) : Spared r (r.faultIn key).2 := by
  unfold faultIn
  cases hd : r.disk with
  | none => exact .refl r
  | some disk =>
    simp only [BackingStore.read]
    cases Table.find? key disk.entries <;> exact ⟨rfl, rfl, rfl, fun _ => by simp [Region.onDisk, hd]⟩

theorem readValue_spared (r : Region) (key : Key) : Spared r (r.readValue key).2 := by
  unfold readValue
  split
  · exact .refl r
  · rename_i entry _
    have hvalue : Spared r (r.valueOf key entry).2 := by
      unfold valueOf
      split
      · exact .refl r
      · exact faultIn_spared r key
    split <;> rename_i hv <;> rw [hv] at hvalue <;> exact hvalue

theorem promote_spared (r : Region) (key : Key) : Spared r (r.promote key) := by
  unfold promote
  split <;> exact ⟨rfl, rfl, rfl, fun _ => rfl⟩

theorem evict?_spared {r' : Region} {key : Key} (h : r.evict? key = some r') : Spared r r' := by
  unfold evict? at h
  split at h
  · exact Option.some.inj h ▸ .refl r
  · split at h
    · cases h
    · split at h
      · exact Option.some.inj h ▸ .refl r
      · rw [← Option.some.inj h]
        by_cases hp : r.settings.persistent = true
        · simp only [hp, if_true]
          exact ⟨rfl, rfl, rfl, fun _ => rfl⟩
        · simp only [hp]
          exact ⟨rfl, rfl, rfl, fun hp' => absurd hp' hp⟩

theorem evictFrom_spared (r : Region) (limit : Nat) (keys : List Key) : Spared r (r.evictFrom limit keys) := by
  induction keys generalizing r with
  | nil => exact ⟨rfl, rfl, rfl, fun _ => rfl⟩
  | cons key rest ih =>
    unfold evictFrom
    split
    · exact ⟨rfl, rfl, rfl, fun _ => rfl⟩
    · split
      · rename_i evicted he
        exact (evict?_spared he).trans (ih evicted)
      · exact ⟨rfl, rfl, rfl, fun _ => rfl⟩

theorem endPut_spared (r : Region) (key : Key) : Spared r (r.endPut key) := by
  have htouch : Spared r (r.touch key) := by
    unfold touch
    split <;> exact ⟨rfl, rfl, rfl, fun _ => rfl⟩
  have hunlock : Spared (r.touch key) ((r.touch key).unlock key) := by
    unfold unlock
    split <;> exact ⟨rfl, rfl, rfl, fun _ => rfl⟩
  have hevict : Spared ((r.touch key).unlock key) ((r.touch key).unlock key).evictOverflow := by
    unfold evictOverflow
    split
    · exact evictFrom_spared _ _ _
    · exact .refl _
  exact (htouch.trans hunlock).trans hevict

/-! ## Complete requests -/

/-- What the first phase of a put counts, and what it writes where values are written through. -/
theorem beginPut_counts {r' : Region} {key : Key} {value : Value} {event : EntryEvent}
    (h : r.beginPut key value = .ok (event, r')) :
    r'.counters.creates = r.counters.creates + (if r.entries.find? key = none then 1 else 0) ∧
      r'.counters.destroys = r.counters.destroys ∧
      (r.settings.persistent = true → r'.onDisk = r.onDisk.map (Table.set key value)) := by
  unfold beginPut at h
  split at h
  · cases h
  · simp only at h
    split at h
    · cases h
    · rw [← (Prod.mk.inj (Except.ok.inj h)).2]
      refine ⟨?_, ?_, fun hp => ?_⟩
      · by_cases hp : r.settings.persistent = true <;> rcases r.entries.find? key with _ | ⟨_ | _, _⟩ <;>
          simp [hp, countPut, dropEvicted, writeDisk, removeDisk]
      · by_cases hp : r.settings.persistent = true <;> rcases r.entries.find? key with _ | ⟨_ | _, _⟩ <;>
          simp [hp, countPut, dropEvicted, writeDisk, removeDisk]
      · rw [← onDisk_writeDisk]
        rcases r.entries.find? key with _ | ⟨_ | _, _⟩ <;> simp [hp, countPut, dropEvicted, writeDisk, onDisk]

/-- Between two operations a put goes through both of its phases. -/
theorem Steady.put_phases (h : r.Steady) (key : Key) (value : Value) :
    ∃ event r₁ g, r.beginPut key value = .ok (event, r₁) ∧
      quiet.put key value r = (.ok (), (r₁.withRegistry g).endPut key) ∧
      Mutated ⟨key, some value⟩ r ((r₁.withRegistry g).endPut key) := by
  have hfree : (r.entries.find? key).any (·.locked) = false := h.unlocked key
  have hbegin : ∃ begun, r.beginPut key value = .ok begun := by
    simp [beginPut, ensureLive, h.live, hfree]
  obtain ⟨⟨event, r₁⟩, hbegin⟩ := hbegin
  obtain ⟨g, hnotify⟩ := quiet_notify_registry r₁ event
  have hput : quiet.put key value r = (.ok (), (r₁.withRegistry g).endPut key) := by
    unfold Host.put
    rw [show quiet.region r = r from rfl, hbegin, ← hnotify]
    rfl
  refine ⟨event, r₁, g, hbegin, hput, ?_⟩
  rcases put_spec h.sound h.registry key value with ⟨e, he⟩ | ⟨r', hok, hm⟩
  · rw [hput] at he
    cases he
  · rw [hput] at hok
    rw [(Prod.mk.inj hok).2]
    exact hm

/-- Between two operations a put is not refused. -/
theorem Steady.put (h : r.Steady) (key : Key) (value : Value) :
    ∃ r', quiet.put key value r = (.ok (), r') ∧ Mutated ⟨key, some value⟩ r r' ∧
      r'.counters.creates = r.counters.creates + (if r.current key = none then 1 else 0) ∧
      r'.counters.destroys = r.counters.destroys ∧
      (r.settings.persistent = true → r'.onDisk = r.onDisk.map (Table.set key value)) := by
  obtain ⟨event, r₁, g, hbegin, hput, hm⟩ := h.put_phases key value
  obtain ⟨hcreates, hdestroys, hdisk⟩ := beginPut_counts hbegin
  have hend := endPut_spared (r₁.withRegistry g) key
  refine ⟨_, hput, hm, hend.creates.trans ?_, hend.destroys.trans hdestroys, fun hp => ?_⟩
  · rw [show (r₁.withRegistry g).counters = r₁.counters from rfl, hcreates]
    simp only [current_eq_none_iff h.sound]
  · have hsettings : (r₁.withRegistry g).settings = r.settings := hend.settings.symm.trans hm.settings
    exact (hend.onDisk (hsettings ▸ hp)).trans (hdisk hp)

/-- The region after the entry of a key was taken out. -/
def unmapped (r : Region) (key : Key) : Region :=
  { ({ r with entries := r.entries.erase key }).removeDisk key with
    recency := r.recency.erase key
    counters := { r.counters with destroys := r.counters.destroys + 1 } }

/-- Between two operations a destroy takes an entry that is there out. -/
theorem Steady.destroy_phases (h : r.Steady) {key : Key} {stored : EntryValue} {locked : Bool}
    (hf : r.entries.find? key = some ⟨stored, locked⟩) :
    ∃ g, quiet.destroy key r = (.ok (eventValueOf stored).value?, (r.unmapped key).withRegistry g) ∧
      Mutated ⟨key, none⟩ r ((r.unmapped key).withRegistry g) := by
  have hlive : r.ensureLive = .ok () := by simp [ensureLive, h.live]
  obtain rfl : locked = false := (lockedAt_of_entry hf).symm.trans (h.unlocked key)
  have hunmap : r.unmap key = .ok (.destroyed key (eventValueOf stored), r.unmapped key) := by
    unfold unmap
    simp only [hlive, hf]
    rfl
  obtain ⟨g, hnotify⟩ := quiet_notify_registry (r.unmapped key) (.destroyed key (eventValueOf stored))
  have hdestroy : quiet.destroy key r =
      (.ok (eventValueOf stored).value?, (r.unmapped key).withRegistry g) := by
    unfold Host.destroy
    rw [show quiet.region r = r from rfl, hunmap, ← hnotify]
    rfl
  refine ⟨g, hdestroy, ?_⟩
  rcases destroy_spec h.sound h.registry key with ⟨e, he⟩ | ⟨_, r', hok, hm⟩
  · rw [hdestroy] at he
    cases he
  · rw [hdestroy] at hok
    rw [(Prod.mk.inj hok).2]
    exact hm

/-- Between two operations a destroy is refused only where there is no value, and then changes nothing. It
tells the last value of a resident entry. -/
theorem Steady.destroy (h : r.Steady) (key : Key) :
    (r.current key = none ∧ quiet.destroy key r = (.error (.entryNotFound key r.path), r)) ∨
      ∃ value r', r.current key = some value ∧
        quiet.destroy key r = (.ok (if r.isResident key then some value else none), r') ∧
        Mutated ⟨key, none⟩ r r' ∧ r'.counters.creates = r.counters.creates ∧
        r'.counters.destroys = r.counters.destroys + 1 ∧
        r'.onDisk = r.onDisk.map (Table.erase key) := by
  cases hf : r.entries.find? key with
  | none =>
    have hlive : r.ensureLive = .ok () := by simp [ensureLive, h.live]
    refine .inl ⟨current_of_none hf, ?_⟩
    unfold Host.destroy unmap
    simp only [show quiet.region r = r from rfl, hlive, hf]
  | some entry =>
    obtain ⟨stored, locked⟩ := entry
    obtain ⟨value, hvalue⟩ := Option.ne_none_iff_exists'.1
      (mt (current_eq_none_iff h.sound).1 (by rw [hf]; simp))
    obtain ⟨g, hdestroy, hm⟩ := h.destroy_phases hf
    refine .inr ⟨value, (r.unmapped key).withRegistry g, hvalue, ?_, hm, rfl, rfl, onDisk_removeDisk r key⟩
    rw [hdestroy]
    cases stored with
    | resident v =>
      obtain rfl : v = value := Option.some.inj ((current_of_resident hf).symm.trans hvalue)
      simp [isResident, hf, eventValueOf, EventValue.value?]
    | evicted => simp [isResident, hf, eventValueOf, EventValue.value?]

/-- Between two operations every value is read, an evicted one too. -/
theorem Steady.get (h : r.Steady) (key : Key) :
    (r.get key).1 = .ok (r.current key) ∧ SameValues r (r.get key).2 ∧ Spared r (r.get key).2 := by
  refine ⟨?_, get_same r key, ?_⟩
  all_goals
    have hread := readValue_spared r key
    have hvalue := (readValue_spec h.sound key).1
    unfold Region.get
    simp only [ensureLive, h.live, Bool.false_eq_true, if_false]
    generalize r.readValue key = outcome at hread hvalue
    obtain ⟨read, r'⟩ := outcome
    simp only at hvalue hread
    subst hvalue
  · cases r.current key <;> rfl
  · cases r.current key with
    | none => exact hread
    | some value => exact hread.trans (promote_spared r' key)

/-! ## Requests in a row -/

/-- A region between two operations, whose values are those of a table. -/
structure Denotes (t : Table Key Value) (r : Region) : Prop extends Steady r where
  unique : Table.Unique t
  values : ∀ key, r.current key = Table.find? key t

variable {t : Table Key Value}

theorem Sound.keys_nodup (h : r.Sound) : r.keys.Nodup := Partitioned.keys_nodup h.entries

theorem Denotes.keys_perm (h : r.Denotes t) : r.keys.Perm (Table.keys t) := by
  refine (List.perm_ext_iff_of_nodup h.sound.keys_nodup h.unique).2 fun key => ?_
  rw [mem_keys_iff h.sound, h.values, Table.mem_keys_iff, Option.isSome_iff_ne_none]

theorem length_keys (r : Region) : r.keys.length = r.size :=
  (Partitioned.keys_perm r.entries).length_eq.trans (Table.length_keys _)

theorem Denotes.size_eq (h : r.Denotes t) : r.size = t.length := by
  rw [← length_keys, h.keys_perm.length_eq, Table.length_keys]

theorem Denotes.contains_eq (h : r.Denotes t) (key : Key) : r.contains key = Table.contains key t := by
  have hnone : r.current key = none ↔ r.entries.find? key = none := current_eq_none_iff h.sound
  rw [h.values] at hnone
  rw [Bool.eq_iff_iff]
  simp only [contains, Table.contains, Option.isSome_iff_ne_none, Ne, hnone]

/-- One value exchanged in the region as in the table. -/
theorem Denotes.mutated {u : Update} {r' : Region} {t' : Table Key Value} (h : r.Denotes t) (hm : Mutated u r r')
    (hunique : Table.Unique t')
    (hfind : ∀ key, Table.find? key t' = if key = u.key then u.value else Table.find? key t) : r'.Denotes t' :=
  ⟨(Transition.mutated u hm).steady h.toSteady, hunique, fun key => by rw [hm.current, hfind, h.values]⟩

/-- A request answered by a region and by its table: the answers agree, and the region has the values of the
table afterwards, and one entry more for each create counted and one less for each destroy. -/
structure Answered (t : Table Key Value) (r : Region) (expected : Except Error Answer × Table Key Value)
    (served : Except Error Answer × Region) : Prop where
  agrees : Answer.Agrees served.1 expected.1
  denotes : served.2.Denotes expected.2
  path : served.2.path = r.path
  settings : served.2.settings = r.settings
  counted : served.2.counters.creates + r.counters.destroys + t.length =
    r.counters.creates + served.2.counters.destroys + expected.2.length

/-- **A region answers a request as its table does.** -/
theorem Denotes.serve (h : r.Denotes t) (request : Request) :
    Answered t r (Table.serve r.path t request) (r.serve request) := by
  cases request with
  | put key value =>
    obtain ⟨r', hput, hm, hcreates, hdestroys, -⟩ := h.toSteady.put key value
    have hdenotes : r'.Denotes (Table.set key value t) := h.mutated hm (h.unique.set key value) fun k => by
      simp only [Table.find?_set, eq_comm (a := k)]
    have hserve : r.serve (.put key value) = (.ok .done, r') := by simp only [Region.serve, hput]; rfl
    rw [hserve]
    refine ⟨.same _, hdenotes, hm.path, hm.settings, ?_⟩
    simp only [Table.serve, hcreates, hdestroys, Table.length_set, h.values]
    omega
  | get key =>
    obtain ⟨hread, hsame, hspared⟩ := h.toSteady.get key
    have hund := hsame.undisturbed h.sound
    have hserve : r.serve (.get key) = (.ok (.value (Table.find? key t)), (r.get key).2) := by
      simp only [Region.serve, hread, h.values]; rfl
    rw [hserve]
    refine ⟨.same _, ⟨(Transition.none hsame).steady h.toSteady, h.unique, fun k => ?_⟩, hsame.path,
      hsame.settings, ?_⟩
    · rw [hund.current, h.values]; rfl
    · simp only [hspared.creates, hspared.destroys]; rfl
  | destroy key =>
    rcases h.toSteady.destroy key with ⟨hnone, hdestroy⟩ | ⟨value, r', hvalue, hdestroy, hm, hcreates, hdestroys, -⟩
    · have hserve : r.serve (.destroy key) = (.error (.entryNotFound key r.path), r) := by
        simp only [Region.serve, hdestroy]; rfl
      have hexpected : Table.serve r.path t (.destroy key) = (.error (.entryNotFound key r.path), t) := by
        simp only [Table.serve, ← h.values, hnone]
      rw [hserve, hexpected]
      exact ⟨.same _, h, rfl, rfl, rfl⟩
    · have hfound : Table.find? key t = some value := (h.values key).symm.trans hvalue
      have hdenotes : r'.Denotes (Table.erase key t) := h.mutated hm (h.unique.erase key) fun k => by
        simp only [Table.find?_erase h.unique, eq_comm (a := k)]
      have hserve : r.serve (.destroy key) =
          (.ok (.destroyed (if r.isResident key then some value else none)), r') := by
        simp only [Region.serve, hdestroy]; rfl
      have hexpected : Table.serve r.path t (.destroy key) =
          (.ok (.destroyed (some value)), Table.erase key t) := by simp only [Table.serve, hfound]
      have hlength : (Table.erase key t).length + 1 = t.length := Table.length_erase (by simp [hfound])
      rw [hserve, hexpected]
      refine ⟨?_, hdenotes, hm.path, hm.settings, ?_⟩
      · split
        · exact .same _
        · exact .withheld value
      · simp only [hcreates, hdestroys]
        omega
  | contains key =>
    simp only [Region.serve, Table.serve, h.contains_eq]
    exact ⟨.same _, h, rfl, rfl, rfl⟩
  | size =>
    simp only [Region.serve, Table.serve, h.size_eq]
    exact ⟨.same _, h, rfl, rfl, rfl⟩
  | keys => exact ⟨.reordered h.keys_perm, h, rfl, rfl, rfl⟩

theorem Denotes.serveAll (h : r.Denotes t) (requests : List Request) :
    let expected := serveAll (Table.serve r.path) t requests
    let served := serveAll Region.serve r requests
    List.Forall₂ Answer.Agrees served.1 expected.1 ∧ served.2.Denotes expected.2 ∧ served.2.path = r.path ∧
      served.2.settings = r.settings ∧
      served.2.counters.creates + r.counters.destroys + t.length =
        r.counters.creates + served.2.counters.destroys + expected.2.length := by
  induction requests generalizing r t with
  | nil => exact ⟨.nil, h, rfl, rfl, rfl⟩
  | cons request rest ih =>
    have hserved := h.serve request
    obtain ⟨hagree, hdenotes, hpath, hsettings, hcounted⟩ := ih hserved.denotes
    rw [hserved.path] at hagree hdenotes hcounted
    refine ⟨.cons hserved.agrees hagree, hdenotes, hpath.trans hserved.path, hsettings.trans hserved.settings, ?_⟩
    have hfirst := hserved.counted
    simp only [IndexedStore.serveAll]
    rw [hserved.path] at *
    omega

/-! ## Where the values are -/

theorem isResident_of_mem (h : r.Sound) {key : Key} {entry : Entry} (hm : (key, entry) ∈ r.entries.toTable) :
    r.isResident key = match entry.value with
      | .resident _ => true
      | .evicted => false := by
  have hf := (Partitioned.find?_eq_some_iff h.entries).2 hm
  obtain ⟨_ | _, _⟩ := entry <;> simp [isResident, hf]

/-- Every entry is counted once, as resident or as evicted. -/
theorem residency_eq (h : r.Sound) :
    r.residency = ((r.keys.filter r.isResident).length, (r.keys.filter fun key => !r.isResident key).length) := by
  let resident (e : Key × Entry) : Bool := match e.2.value with
    | .resident _ => true
    | .evicted => false
  have hstored : (Table.keys r.entries.toTable).filter r.isResident =
      (r.entries.toTable.filter resident).map (·.1) := by
    rw [Table.keys, List.filter_map]
    exact congrArg _ (List.filter_congr fun e he => isResident_of_mem h he)
  have hfirst : r.residency.1 = (r.keys.filter r.isResident).length := by
    rw [keys, ((Partitioned.keys_perm r.entries).filter r.isResident).length_eq, hstored, List.length_map]
    rfl
  have hsplit : (r.keys.filter r.isResident).length + (r.keys.filter fun key => !r.isResident key).length =
      r.size := by
    rw [← length_keys, List.length_eq_length_filter_add (l := r.keys) r.isResident]
  refine Prod.ext hfirst ?_
  rw [show r.residency.2 = r.size - r.residency.1 from rfl, hfirst, ← hsplit, Nat.add_sub_cancel_left]

/-! ## A new region -/

theorem denotes_made {seeds : Seeds} {path : String} {settings : Settings} {disk : Option BackingStore}
    (h : make seeds path settings disk = .ok r) (hd : settings.usesDisk = true → disk.isSome = true) :
    r.Denotes [] ∧ r.counters = ⟨0, 0, 0, 0, 0⟩ := by
  have hsteady := make_steady h hd
  obtain ⟨hentries, -⟩ := make_spec h
  refine ⟨⟨hsteady, Table.unique_nil, fun key => ?_⟩, ?_⟩
  · exact current_of_none (by rw [hentries, Partitioned.find?_empty])
  · unfold make at h
    simp only [bind, Except.bind, pure, Except.pure, throw, throwThe, MonadExceptOf.throw] at h
    split at h
    · cases h
    · split at h
      · cases h
      · cases h; rfl

/-- **Whatever the settings, a new region serves requests as a plain table does.** The answers are those of the
table, but for the order of keys and for the last value of an evicted entry, which a destroy withholds. After
them every value is read, evicted or not; each key stands once; a destroy of a key without a value is refused
and changes nothing; and the number of entries is that of creates less that of destroys, and of resident and
evicted entries together. -/
theorem served_as_table {seeds : Seeds} {path : String} {settings : Settings} {disk : Option BackingStore}
    (h : make seeds path settings disk = .ok r) (hd : settings.usesDisk = true → disk.isSome = true)
    (requests : List Request) :
    let served := IndexedStore.serveAll Region.serve r requests
    let expected := IndexedStore.serveAll (Table.serve r.path) [] requests
    List.Forall₂ Answer.Agrees served.1 expected.1 ∧
      (∀ key, (served.2.get key).1 = .ok (Table.find? key expected.2)) ∧
      (∀ key, match Table.find? key expected.2 with
        | none => quiet.destroy key served.2 = (.error (.entryNotFound key r.path), served.2)
        | some value => (quiet.destroy key served.2).1 =
          .ok (if served.2.isResident key then some value else none)) ∧
      served.2.keys.Nodup ∧ served.2.size = expected.2.length ∧
      served.2.counters.creates = served.2.counters.destroys + served.2.size ∧
      served.2.residency = ((served.2.keys.filter served.2.isResident).length,
        (served.2.keys.filter fun key => !served.2.isResident key).length) ∧
      served.2.residency.1 + served.2.residency.2 = served.2.size := by
  obtain ⟨hdenotes, hcounters⟩ := denotes_made h hd
  obtain ⟨hagree, hafter, hpath, -, hcounted⟩ := hdenotes.serveAll requests
  intro served expected
  have hresidency := residency_eq hafter.sound
  refine ⟨hagree, fun key => ?_, fun key => ?_, hafter.sound.keys_nodup, hafter.size_eq, ?_, hresidency, ?_⟩
  · rw [(hafter.toSteady.get key).1, hafter.values]
  · rcases hafter.toSteady.destroy key with ⟨hnone, hrefused⟩ | ⟨value, r', hvalue, hdestroy, -⟩
    · rw [← hafter.values, hnone]
      simp only [served, hrefused, hpath]
    · rw [← hafter.values, hvalue]
      simp only [served, hdestroy]
  · rw [hafter.size_eq]
    simpa [hcounters] using hcounted
  · rw [hresidency, ← length_keys]
    exact (List.length_eq_length_filter_add (l := served.2.keys) served.2.isResident).symm

/-- Three entries where one may be resident, of which one is written again and one destroyed. -/
def overflowing : List Request :=
  [.put (.int 1) (valued 1), .put (.int 2) (valued 2), .put (.int 3) (valued 3), .put (.int 1) (valued 4),
    .destroy (.int 3)]

/-- An evicted value is read, and its entry counts. -/
theorem served_as_table_evicted : ∃ r : Region,
    make default "/r" ((Settings.partition 2).withOverflow 1) (some .empty) = .ok r ∧
      let served := IndexedStore.serveAll Region.serve r overflowing
      served.2.isResident (.int 2) = false ∧ (served.2.get (.int 2)).1 = .ok (some (valued 2)) ∧
      (served.2.get (.int 1)).1 = .ok (some (valued 4)) ∧ served.2.size = 2 ∧ served.2.residency = (1, 1) := by
  obtain ⟨r, hmade⟩ : ∃ r, make default "/r" ((Settings.partition 2).withOverflow 1) (some .empty) = .ok r :=
    ⟨_, rfl⟩
  obtain ⟨-, hread, -, -, hsize, -⟩ := served_as_table hmade (by simp) overflowing
  obtain rfl := Except.ok.inj hmade
  exact ⟨_, rfl, rfl, hread _, hread _, hsize, rfl⟩

end Region

end IndexedStore
