import IndexedStore.Proofs.Index.Projection
import IndexedStore.Proofs.Slots.Store

/-!
# What an index keeps

`slotsAt` are the slots that an index keeps of an entry key. The store, as a multiset, is the same thing
by slot (`Filed.occurrences`), which is why taking the kept slots out takes out all there is of a key.
An index serves an entry's value when it keeps the slots of the value, or when it refused them and marks
the key (`Serves`). Bringing an index up to date makes it serve the value whatever it held of the key, and
leaves the other keys alone (`maintain_spec`).
-/

namespace IndexedStore.Index

/-- The slots that the index keeps of an entry key. -/
def slotsAt (ix : Index) (key : Key) : List Slot := (Table.find? key ix.mapped).getD []

/-- The slots of an entry's value; none where it cannot be projected. -/
def projected (ix : Index) (value : Option Value) : List Slot :=
  match ix.projectEntry value with
  | .ok slots => slots
  | .error _ => []

theorem projected_of_ok {ix : Index} {value : Option Value} {slots : List Slot}
    (h : ix.projectEntry value = .ok slots) : ix.projected value = slots := by
  simp [projected, h]

theorem projected_of_error {ix : Index} {value : Option Value} {fault : EvaluationFault}
    (h : ix.projectEntry value = .error fault) : ix.projected value = [] := by
  simp [projected, h]

@[simp] theorem projected_none (ix : Index) : ix.projected none = [] := rfl

theorem projectEntry_congr {ix ix' : Index} (h : ix'.compiled = ix.compiled) (value : Option Value) :
    ix'.projectEntry value = ix.projectEntry value := by
  cases value <;> simp [projectEntry, project, h]

theorem projected_congr {ix ix' : Index} (h : ix'.compiled = ix.compiled) (value : Option Value) :
    ix'.projected value = ix.projected value := by
  simp only [projected, projectEntry_congr h]

theorem projectEntry_grounded {ix : Index} {value : Option Value} {slots : List Slot}
    (h : ix.projectEntry value = .ok slots) {k : Key} (hk : .defined k ∈ slots) : k.Grounded := by
  cases value with
  | none =>
    obtain rfl : slots = [] := by simpa [projectEntry] using h.symm
    cases hk
  | some v => exact slotsOfValue_grounded h hk

/-- The store and the slots of the keys are one multiset, of slots that values project to. -/
structure Filed (ix : Index) : Prop where
  kind : ix.store.kind = ix.kind
  store : ix.store.WF
  unique : Table.Unique ix.mapped
  occurrences : ∀ slot key, ix.store.occurrences slot key = (ix.slotsAt key).count slot
  nonempty : ∀ e ∈ ix.mapped, e.2 ≠ []
  grounded : ∀ e ∈ ix.mapped, ∀ v, .defined v ∈ e.2 → v.Grounded

/-- An index as it stands between two updates. Only a primary-key index refuses keys, and it keeps no
slots of those. -/
structure WF (ix : Index) : Prop extends Filed ix where
  compiled : ∃ d : IndexDefinition, d.compile = .ok ix.compiled
  degraded : ix.degraded.Nodup
  refused : ∀ key ∈ ix.degraded, ix.kind = .primaryKey ∧ ix.slotsAt key = []

theorem wf_new {d : IndexDefinition} {c : CompiledDefinition} (h : d.compile = .ok c) (hasher : Hasher)
    (stripes : Nat) : (new c hasher stripes).WF where
  kind := SlotStore.kind_empty _ _ _ _
  store := SlotStore.wf_empty _ _ _ _
  unique := by simp [new]
  occurrences slot key := by simp [new, slotsAt]
  nonempty := by simp [new]
  grounded := by simp [new]
  compiled := ⟨d, h⟩
  degraded := by simp [new]
  refused := by simp [new]

/-- What an index has of an entry after it was brought up to date with the entry's value: the slots of the
value, or a mark that it refused them. -/
def Serves (ix : Index) (key : Key) (value : Option Value) : Prop :=
  (key ∉ ix.degraded ∧ ix.slotsAt key = ix.projected value) ∨
    (key ∈ ix.degraded ∧ ∃ slots, ix.projectEntry value = .ok slots)

/-- Other than a primary-key index, an index serves a value exactly by keeping its slots. -/
theorem WF.serves_iff {ix : Index} (h : ix.WF) (hk : ix.kind ≠ .primaryKey) {key : Key}
    {value : Option Value} : ix.Serves key value ↔ ix.slotsAt key = ix.projected value := by
  have hnot : key ∉ ix.degraded := fun hm => hk (h.refused key hm).1
  simp [Serves, hnot]

theorem serves_new (c : CompiledDefinition) (hasher : Hasher) (stripes : Nat) (key : Key) :
    (new c hasher stripes).Serves key none :=
  .inl ⟨by simp [new], by simp [new, slotsAt]⟩

/-! ## Updates -/

/-- An index changed at one entry key only. -/
structure ChangedAt (key : Key) (ix ix' : Index) : Prop where
  compiled : ix'.compiled = ix.compiled
  state : ix'.state = ix.state
  slots : ∀ k, k ≠ key → ix'.slotsAt k = ix.slotsAt k
  degraded : ∀ k, k ≠ key → (k ∈ ix'.degraded ↔ k ∈ ix.degraded)

theorem ChangedAt.serves {key k : Key} {ix ix' : Index} (h : ChangedAt key ix ix') (hk : k ≠ key)
    {value : Option Value} : ix'.Serves k value ↔ ix.Serves k value := by
  simp only [Serves, h.degraded k hk, h.slots k hk, projected_congr h.compiled,
    projectEntry_congr h.compiled]

/-- What exchanging the slots of a key does, refused or not. -/
theorem remap_spec {ix : Index} (h : ix.Filed) (key : Key) {new : List Slot}
    (hg : ∀ v, .defined v ∈ new → v.Grounded) :
    let outcome := ix.remap key (ix.slotsAt key) new
    outcome.2.Filed ∧ outcome.2.compiled = ix.compiled ∧ outcome.2.state = ix.state ∧
      outcome.2.degraded = ix.degraded ∧ (∀ k, k ≠ key → outcome.2.slotsAt k = ix.slotsAt k) ∧
      match outcome.1 with
      | none => outcome.2.slotsAt key = new
      | some violation => outcome.2.slotsAt key = [] ∧ ix.kind = .primaryKey ∧
          .defined violation.value ∈ new ∧ violation.owner ≠ key ∧
          .defined violation.value ∈ ix.slotsAt violation.owner := by
  have hu := SlotStore.update_spec h.store key (ix.slotsAt key) new
  have hkind := SlotStore.kind_update ix.store key (ix.slotsAt key) new
  have haccepted := fun hk : ix.store.kind ≠ .primaryKey =>
    SlotStore.update_accepted hk key (ix.slotsAt key) new
  have herase : ∀ k, (Table.find? k (Table.erase key ix.mapped)).getD [] =
      if k = key then [] else ix.slotsAt k := by
    intro k
    rw [Table.find?_erase h.unique]
    by_cases hk : k = key
    · simp [hk]
    · simp [hk, Ne.symm hk, slotsAt]
  have hset : ∀ k, (Table.find? k (Table.set key new ix.mapped)).getD [] =
      if k = key then new else ix.slotsAt k := by
    intro k
    by_cases hk : k = key
    · simp [hk]
    · simp [hk, Ne.symm hk, slotsAt]
  -- what is left in the store when the kept slots of the key are taken out
  have left : ∀ slot k, ix.store.occurrences slot k -
      (if k = key then (ix.slotsAt key).count slot else 0) =
        if k = key then 0 else (ix.slotsAt k).count slot := by
    intro slot k
    rw [h.occurrences]
    by_cases hk : k = key <;> simp [hk]
  intro outcome
  simp only [outcome, remap]
  generalize ix.store.update key (ix.slotsAt key) new = updated at hu hkind haccepted
  obtain ⟨_ | violation, store⟩ := updated
  · obtain ⟨hwf, hocc⟩ := hu
    have hocc' : ∀ slot k, store.occurrences slot k = (if k = key then new else ix.slotsAt k).count slot := by
      intro slot k
      rw [hocc, left]
      by_cases hk : k = key <;> simp [hk]
    by_cases hnew : new = []
    · subst hnew
      rw [if_pos (show ([] : List Slot).isEmpty = true from rfl)]
      refine ⟨⟨hkind.trans h.kind, hwf, h.unique.erase key, ?_,
        fun e he => h.nonempty e (Table.mem_of_mem_erase he),
        fun e he => h.grounded e (Table.mem_of_mem_erase he)⟩, rfl, rfl, rfl, ?_, ?_⟩
      · intro slot k
        exact (hocc' slot k).trans (congrArg _ (herase k).symm)
      · intro k hk
        exact (herase k).trans (if_neg hk)
      · exact (herase key).trans (if_pos rfl)
    · rw [if_neg (by simpa using hnew)]
      refine ⟨⟨hkind.trans h.kind, hwf, h.unique.set key new, ?_,
        Table.forall_set h.nonempty hnew, Table.forall_set h.grounded hg⟩, rfl, rfl, rfl, ?_, ?_⟩
      · intro slot k
        exact (hocc' slot k).trans (congrArg _ (hset k).symm)
      · intro k hk
        exact (hset k).trans (if_neg hk)
      · exact (hset key).trans (if_pos rfl)
  · obtain ⟨hwf, hocc, hvalue, -, hne, hpos⟩ := hu
    have hocc' : ∀ slot k, store.occurrences slot k = (if k = key then [] else ix.slotsAt k).count slot := by
      intro slot k
      rw [hocc, left]
      by_cases hk : k = key <;> simp [hk]
    refine ⟨⟨hkind.trans h.kind, hwf, h.unique.erase key, ?_,
      fun e he => h.nonempty e (Table.mem_of_mem_erase he),
      fun e he => h.grounded e (Table.mem_of_mem_erase he)⟩, rfl, rfl, rfl, ?_, ?_, ?_, hvalue,
      hne, ?_⟩
    · intro slot k
      exact (hocc' slot k).trans (congrArg _ (herase k).symm)
    · intro k hk
      exact (herase k).trans (if_neg hk)
    · exact (herase key).trans (if_pos rfl)
    · by_contra hk
      exact absurd (haccepted (by rwa [h.kind])) (by simp)
    · rw [h.occurrences] at hpos
      exact List.count_pos_iff.1 hpos

/-- What making the slots of a key those of its value does, and when it leaves the key without slots. -/
theorem settle_spec {ix : Index} (h : ix.Filed) (key : Key) (value : Option Value) :
    let outcome := ix.settle key value
    outcome.2.Filed ∧ outcome.2.compiled = ix.compiled ∧ outcome.2.state = ix.state ∧
      outcome.2.degraded = ix.degraded ∧ (∀ k, k ≠ key → outcome.2.slotsAt k = ix.slotsAt k) ∧
      match outcome.1 with
      | none => ix.projectEntry value = .ok (outcome.2.slotsAt key)
      | some (.evaluation fault) => ix.projectEntry value = .error fault ∧ outcome.2.slotsAt key = []
      | some (.violation violation) => outcome.2.slotsAt key = [] ∧ ix.kind = .primaryKey ∧
          ∃ slots, ix.projectEntry value = .ok slots ∧ .defined violation.value ∈ slots ∧
            violation.owner ≠ key ∧ .defined violation.value ∈ ix.slotsAt violation.owner := by
  intro outcome
  simp only [outcome, settle]
  cases hp : ix.projectEntry value with
  | ok new =>
    obtain ⟨hfiled, hc, hs, hd, hother, hkey⟩ :=
      remap_spec h key fun v hv => projectEntry_grounded hp hv
    simp only
    by_cases hsame : new = (Table.find? key ix.mapped).getD []
    · rw [if_pos hsame]
      exact ⟨h, rfl, rfl, rfl, fun _ _ => rfl, congrArg Except.ok hsame⟩
    · rw [if_neg hsame]
      refine ⟨hfiled, hc, hs, hd, hother, ?_⟩
      rw [slotsAt] at hkey
      generalize ix.remap key ((Table.find? key ix.mapped).getD []) new = remapped at hkey
      obtain ⟨_ | violation, ix'⟩ := remapped
      · exact congrArg Except.ok hkey.symm
      · obtain ⟨hnil, hk, hv, hne, howner⟩ := hkey
        exact ⟨hnil, hk, new, rfl, hv, hne, howner⟩
  | error fault =>
    cases hc : Table.find? key ix.mapped with
    | none => exact ⟨h, rfl, rfl, rfl, fun _ _ => rfl, rfl, by simp [slotsAt, hc]⟩
    | some old =>
      have hold : ix.slotsAt key = old := by simp [slotsAt, hc]
      have hremap := remap_spec h key (show ∀ v, .defined v ∈ ([] : List Slot) → v.Grounded by simp)
      rw [hold] at hremap
      obtain ⟨hfiled, hcomp, hs, hd, hother, hkey⟩ := hremap
      refine ⟨hfiled, hcomp, hs, hd, hother, rfl, ?_⟩
      -- nothing is mapped anew, so nothing can be refused
      split at hkey
      · exact hkey
      · exact hkey.1

/-- The marks of an index may change at the key whose slots have changed. -/
theorem WF.marked {ix settled : Index} (h : ix.WF) (hfiled : settled.Filed) {key : Key}
    (hc : settled.compiled = ix.compiled) (hs : settled.state = ix.state)
    (hother : ∀ k, k ≠ key → settled.slotsAt k = ix.slotsAt k) {degraded : List Key}
    (hnodup : degraded.Nodup) (hmem : ∀ k, k ≠ key → (k ∈ degraded ↔ k ∈ ix.degraded))
    (hkey : key ∈ degraded → ix.kind = .primaryKey ∧ settled.slotsAt key = []) (counters : IndexCounters) :
    let ix' : Index := { settled with degraded := degraded, counters := counters }
    ix'.WF ∧ ChangedAt key ix ix' := by
  have hkind : settled.kind = ix.kind := by simp [kind, hc]
  refine ⟨⟨⟨hfiled.kind, hfiled.store, hfiled.unique, hfiled.occurrences, hfiled.nonempty, hfiled.grounded⟩,
    by simpa [hc] using h.compiled, hnodup, ?_⟩, ⟨hc, hs, hother, hmem⟩⟩
  intro k hk
  by_cases he : k = key
  · subst he
    obtain ⟨hpk, hnil⟩ := hkey hk
    exact ⟨hkind.trans hpk, hnil⟩
  · obtain ⟨hpk, hnil⟩ := h.refused k ((hmem k he).1 hk)
    exact ⟨hkind.trans hpk, (hother k he).trans hnil⟩

/-- **Applying a value makes the index serve it, whatever the index held of the key, and changes nothing
else.** -/
theorem apply_spec {ix : Index} (h : ix.WF) (key : Key) (value : Option Value) :
    let ix' := (ix.apply key value).2
    ix'.WF ∧ ix'.Serves key value ∧ ChangedAt key ix ix' := by
  obtain ⟨hfiled, hc, hs, hd, hother, hkey⟩ := settle_spec h.toFiled key value
  intro ix'
  simp only [ix', apply]
  generalize ix.settle key value = settled at hfiled hc hs hd hother hkey
  obtain ⟨excluded, settled⟩ := settled
  simp only at hfiled hc hs hd hother hkey
  have hnot : key ∉ ix.degraded.erase key := h.degraded.not_mem_erase
  have unmarked := h.marked hfiled hc hs hother (h.degraded.erase key)
    (fun k hk => List.mem_erase_of_ne hk) (fun hin => absurd hin hnot)
  rw [← hd] at hnot unmarked
  rcases excluded with _ | (fault | violation)
  · obtain ⟨hwf, hchanged⟩ := unmarked _
    refine ⟨hwf, .inl ⟨hnot, ?_⟩, hchanged⟩
    exact (projected_of_ok hkey).symm.trans (projected_congr hc value).symm
  · obtain ⟨hwf, hchanged⟩ := unmarked _
    refine ⟨hwf, .inl ⟨hnot, ?_⟩, hchanged⟩
    exact (hkey.2.trans (projected_of_error hkey.1).symm).trans (projected_congr hc value).symm
  · obtain ⟨hnil, hpk, slots, hslots, -⟩ := hkey
    have hmarked : ∀ k, k ∈ (if key ∈ settled.degraded then settled.degraded else settled.degraded ++ [key]) ↔
        k = key ∨ k ∈ ix.degraded := by
      intro k
      rw [hd]
      split
      · rename_i hin
        exact ⟨.inr, fun hk => hk.elim (fun he => he ▸ hin) id⟩
      · simp [or_comm]
    have hnodup : (if key ∈ settled.degraded then settled.degraded else settled.degraded ++ [key]).Nodup := by
      rw [hd]
      split
      · exact h.degraded
      · rename_i hout
        refine List.nodup_append.2 ⟨h.degraded, by simp, ?_⟩
        intro a ha b hb he
        rw [List.mem_singleton.1 hb] at he
        exact hout (he ▸ ha)
    obtain ⟨hwf, hchanged⟩ := h.marked hfiled hc hs hother hnodup
      (fun k hk => by rw [hmarked]; simp [hk]) (fun _ => ⟨hpk, hnil⟩) _
    exact ⟨hwf, .inr ⟨(hmarked key).2 (.inl rfl), slots, (projectEntry_congr hc value).trans hslots⟩, hchanged⟩

/-- Counting does not change what an index keeps. -/
theorem WF.counted {ix : Index} (h : ix.WF) (counters : IndexCounters) :
    WF { ix with counters := counters } :=
  ⟨⟨h.kind, h.store, h.unique, h.occurrences, h.nonempty, h.grounded⟩, h.compiled, h.degraded, h.refused⟩

/-- Finishing a build does not change what an index keeps. -/
theorem WF.readied {ix : Index} (h : ix.WF) (report : BuildReport) :
    WF { ix with build := report, state := .ready } :=
  ⟨⟨h.kind, h.store, h.unique, h.occurrences, h.nonempty, h.grounded⟩, h.compiled, h.degraded, h.refused⟩

/-- **An update of an index, as mutations and scans make it.** -/
theorem maintain_spec {ix : Index} (h : ix.WF) (key : Key) (value : Option Value) :
    let ix' := (ix.maintain key value).2
    ix'.WF ∧ ix'.Serves key value ∧ ChangedAt key ix ix' := by
  obtain ⟨hwf, hserves, hchanged⟩ := apply_spec h key value
  intro ix'
  simp only [ix', maintain]
  generalize ix.apply key value = applied at hwf hserves hchanged
  obtain ⟨_ | (fault | violation), applied⟩ := applied
  · exact ⟨hwf, hserves, hchanged⟩
  · exact ⟨hwf.counted _, hserves, ⟨hchanged.compiled, hchanged.state, hchanged.slots, hchanged.degraded⟩⟩
  · exact ⟨hwf.counted _, hserves, ⟨hchanged.compiled, hchanged.state, hchanged.slots, hchanged.degraded⟩⟩

/-! ## Where an entry stands -/

/-- What an index has of an entry, told apart. The slots of the value are kept; or a primary-key index kept
none, because another key had one of them, and marks the key; or there are none to keep, because the value
cannot be projected. -/
inductive Accounts (ix : Index) (key : Key) (value : Option Value) : Prop where
  | mapped (hp : ix.projectEntry value = .ok (ix.slotsAt key)) (hd : key ∉ ix.degraded)
  | refused {slots : List Slot} {v : Key} (hk : ix.kind = .primaryKey) (hp : ix.projectEntry value = .ok slots)
      (hv : .defined v ∈ slots) (hs : ix.slotsAt key = []) (hd : key ∈ ix.degraded)
  | excluded {fault : EvaluationFault} (hp : ix.projectEntry value = .error fault) (hs : ix.slotsAt key = [])
      (hd : key ∉ ix.degraded)

theorem Accounts.congr {ix ix' : Index} {key : Key} {value : Option Value} (h : ix.Accounts key value)
    (hc : ix'.compiled = ix.compiled) (hslots : ix'.slotsAt key = ix.slotsAt key)
    (hdegraded : key ∈ ix'.degraded ↔ key ∈ ix.degraded) : ix'.Accounts key value := by
  have hproject := projectEntry_congr hc value
  have hkind : ix'.kind = ix.kind := by simp [kind, hc]
  cases h with
  | mapped hp hd => exact .mapped (by rw [hproject, hslots]; exact hp) (mt hdegraded.1 hd)
  | refused hk hp hv hs hd =>
    exact .refused (hkind.trans hk) (hproject.trans hp) hv (hslots.trans hs) (hdegraded.2 hd)
  | excluded hp hs hd => exact .excluded (hproject.trans hp) (hslots.trans hs) (mt hdegraded.1 hd)

theorem ChangedAt.accounts {key k : Key} {ix ix' : Index} (h : ChangedAt key ix ix') (hk : k ≠ key)
    {value : Option Value} (ha : ix.Accounts k value) : ix'.Accounts k value :=
  ha.congr h.compiled (h.slots k hk) (h.degraded k hk)

/-- Without a value an entry has no slot and no mark. -/
theorem Accounts.absent {ix : Index} {key : Key} (h : ix.Accounts key none) :
    ix.slotsAt key = [] ∧ key ∉ ix.degraded := by
  cases h with
  | mapped hp hd => exact ⟨(Except.ok.inj hp).symm, hd⟩
  | refused hk hp hv =>
    rw [← Except.ok.inj hp] at hv
    cases hv
  | excluded hp => cases hp

theorem accounts_new (c : CompiledDefinition) (hasher : Hasher) (stripes : Nat) (key : Key) :
    (new c hasher stripes).Accounts key none :=
  .mapped (by simp [new, slotsAt, projectEntry]) (by simp [new])

/-- A key is marked by an update that was refused, and by no other. -/
theorem violation_of_degraded {ix : Index} (h : ix.WF) {key : Key} {value : Option Value}
    (hd : key ∈ (ix.apply key value).2.degraded) :
    ∃ violation, (ix.settle key value).1 = some (.violation violation) := by
  obtain ⟨-, -, -, hdegraded, -, -⟩ := settle_spec h.toFiled key value
  unfold apply at hd
  generalize ix.settle key value = settled at hd hdegraded
  obtain ⟨excluded, settled⟩ := settled
  simp only at hd hdegraded
  rcases excluded with _ | (fault | violation)
  · exact absurd (hdegraded ▸ hd) h.degraded.not_mem_erase
  · exact absurd (hdegraded ▸ hd) h.degraded.not_mem_erase
  · exact ⟨violation, rfl⟩

/-- **Applying a value makes the index account for it.** -/
theorem apply_accounts {ix : Index} (h : ix.WF) (key : Key) (value : Option Value) :
    (ix.apply key value).2.Accounts key value := by
  obtain ⟨hwf, hserves, hchanged⟩ := apply_spec h key value
  rcases hserves with ⟨hd, hs⟩ | ⟨hd, slots, hp⟩
  · cases hp : (ix.apply key value).2.projectEntry value with
    | ok slots => exact .mapped (by rw [hs, projected_of_ok hp, hp]) hd
    | error fault => exact .excluded hp (hs.trans (projected_of_error hp)) hd
  · obtain ⟨hk, hs⟩ := hwf.refused key hd
    obtain ⟨violation, hv⟩ := violation_of_degraded h hd
    obtain ⟨-, -, -, -, -, hkey⟩ := settle_spec h.toFiled key value
    rw [hv] at hkey
    obtain ⟨-, -, slots', hslots', hmem, -, -⟩ := hkey
    exact .refused hk ((projectEntry_congr hchanged.compiled value).trans hslots') hmem hs hd

/-- **An update of an index, as mutations and scans make it, makes the index account for the value.** -/
theorem maintain_accounts {ix : Index} (h : ix.WF) (key : Key) (value : Option Value) :
    (ix.maintain key value).2.Accounts key value := by
  have happly := apply_accounts h key value
  unfold maintain
  generalize ix.apply key value = applied at happly
  obtain ⟨_ | (fault | violation), applied⟩ := applied
  · exact happly
  · exact happly.congr rfl rfl Iff.rfl
  · exact happly.congr rfl rfl Iff.rfl

/-! ## Look-ups -/

/-- **A look-up in an index finds each key that it keeps a satisfying slot of, once.** -/
theorem lookup_spec {ix : Index} (h : ix.WF) (hs : ix.state ≠ .removed) {op : Comparison}
    (ho : ix.kind.supports op = true) {probe : Option Key} (hp : ∀ p ∈ probe, p.Grounded) :
    ∃ found, ix.lookup op probe = .ok found ∧ found.keys.Nodup ∧ ∀ key, key ∈ found.keys ↔
      ∃ slot ∈ ix.slotsAt key, op.holds slot.key? probe = true := by
  have hg : ∀ v key, 0 < ix.store.occurrences (.defined v) key → v.Grounded := by
    intro v key hpos
    rw [h.occurrences, List.count_pos_iff, slotsAt] at hpos
    cases hf : Table.find? key ix.mapped with
    | none => simp [hf] at hpos
    | some slots => exact h.grounded _ (Table.mem_of_find? hf) v (by simpa [hf] using hpos)
  obtain ⟨found, hfound, hnodup, hmem⟩ := SlotStore.lookup_spec h.store (by rwa [h.kind]) hp hg
  refine ⟨found, by simp [lookup, hs, ho, hfound, Except.mapError], hnodup, ?_⟩
  intro key
  rw [hmem key]
  simp only [h.occurrences, List.count_pos_iff]

end IndexedStore.Index
