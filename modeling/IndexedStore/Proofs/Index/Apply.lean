import IndexedStore.Proofs.Index.Alike
import IndexedStore.Proofs.Slots.Refused
import IndexedStore.Region.Registry

/-!
# Applying a value is exact, local and repeatable

What an index has of an entry key stands in two places, the slots of the key and the store (`Holds`), beside the mark
of a refused key. Applying a value (`Index::apply`) sets all three of its key by how it ends, and touches nothing of
any other key (`apply_exact`); applied again it ends the same way and only counts (`apply_again`). So an index that
was only ever brought up to date agrees with itself: `Index::verify` finds the refused keys and nothing else
(`verify_spec`).
-/

namespace IndexedStore

namespace Index

variable {ix : Index}

/-- An index has the given slots of a key, and no others. -/
structure Holds (ix : Index) (key : Key) (slots : List Slot) : Prop where
  mapped : Table.find? key ix.mapped = if slots = [] then none else some slots
  stored : ∀ slot, ix.store.occurrences slot key = slots.count slot

/-- An index has of a key what another has. -/
structure SameAt (key : Key) (ix ix' : Index) : Prop where
  mapped : Table.find? key ix'.mapped = Table.find? key ix.mapped
  stored : ∀ slot, ix'.store.occurrences slot key = ix.store.occurrences slot key
  degraded : key ∈ ix'.degraded ↔ key ∈ ix.degraded

theorem WF.holds (h : ix.WF) (key : Key) : ix.Holds key (ix.slotsAt key) := by
  refine ⟨?_, fun slot => h.occurrences slot key⟩
  rw [slotsAt]
  cases hf : Table.find? key ix.mapped with
  | none => rfl
  | some slots => exact (if_neg (h.nonempty _ (Table.mem_of_find? hf))).symm

theorem Holds.sameAt {ix' : Index} {key : Key} {slots : List Slot} (h : ix.Holds key slots)
    (h' : ix'.Holds key slots) (hd : key ∈ ix'.degraded ↔ key ∈ ix.degraded) : SameAt key ix ix' :=
  ⟨h'.mapped.trans h.mapped.symm, fun slot => (h'.stored slot).trans (h.stored slot).symm, hd⟩

/-! ## How an update ends -/

/-- How applying a value ends says what the index then has of the key. -/
theorem apply_outcome (h : ix.WF) (key : Key) (value : Option Value) :
    let applied := ix.apply key value
    match applied.1 with
    | none => ix.projectEntry value = .ok (applied.2.slotsAt key) ∧ key ∉ applied.2.degraded
    | some excluded => applied.2.slotsAt key = [] ∧
        (key ∈ applied.2.degraded ↔ ∃ violation, excluded = .violation violation) := by
  obtain ⟨-, -, -, hd, -, hkey⟩ := settle_spec h.toFiled key value
  have hnot : key ∉ (ix.settle key value).2.degraded.erase key := by
    rw [hd]
    exact h.degraded.not_mem_erase
  intro applied
  simp only [applied, apply]
  generalize ix.settle key value = settled at hkey hnot
  obtain ⟨_ | (fault | violation), settled⟩ := settled
  · exact ⟨hkey, hnot⟩
  · refine ⟨hkey.2, fun hin => absurd hin hnot, ?_⟩
    rintro ⟨_, he⟩
    cases he
  · refine ⟨hkey.1, fun _ => ⟨violation, rfl⟩, fun _ => ?_⟩
    by_cases hin : key ∈ settled.degraded <;> simp [hin]

/-! ## The same update again -/

theorem settle_of_same {key : Key} {value : Option Value} (h : ix.projectEntry value = .ok (ix.slotsAt key)) :
    ix.settle key value = (none, ix) := by
  simp [settle, h, slotsAt]

theorem settle_of_changed {key : Key} {value : Option Value} {slots : List Slot}
    (h : ix.projectEntry value = .ok slots) (hne : slots ≠ ix.slotsAt key) :
    ix.settle key value = ((ix.remap key (ix.slotsAt key) slots).1.map .violation,
      (ix.remap key (ix.slotsAt key) slots).2) := by
  simp only [settle, h]
  exact if_neg hne

theorem settle_of_error {key : Key} {value : Option Value} {fault : EvaluationFault}
    (h : ix.projectEntry value = .error fault) (hnone : Table.find? key ix.mapped = none) :
    ix.settle key value = (some (.evaluation fault), ix) := by
  simp [settle, h, hnone]

/-- New slots that were refused are refused again, when the key has none. -/
theorem remap_refused_again (h : ix.Filed) {key : Key} {new : List Slot} {violation : Violation} {ix' : Index}
    (hr : ix.remap key (ix.slotsAt key) new = (some violation, ix')) :
    ix'.remap key [] new = (some violation, ix') := by
  unfold remap at hr
  cases hu : ix.store.update key (ix.slotsAt key) new with
  | mk outcome store =>
    rw [hu] at hr
    cases outcome with
    | none => cases hr
    | some found =>
      obtain ⟨hfound, rfl⟩ := Prod.mk.inj hr
      obtain rfl := Option.some.inj hfound
      have hagain := SlotStore.update_refused_again h.store hu
      have hnone : Table.find? key (Table.erase key ix.mapped) = none := by
        rw [Table.find?_erase h.unique, if_pos rfl]
      simp only [remap, hagain, Table.erase_of_find?_eq_none hnone]

/-- Settling a key again leaves the index as it is, for the same reason. -/
theorem settle_again (h : ix.Filed) (key : Key) (value : Option Value) :
    (ix.settle key value).2.settle key value = ix.settle key value := by
  obtain ⟨hfiled, hc, -, -, -, hkey⟩ := settle_spec h key value
  have hproject := projectEntry_congr hc value
  cases hs : ix.settle key value with
  | mk outcome settled =>
    simp only [hs] at hfiled hproject hkey ⊢
    rcases outcome with _ | (fault | violation)
    · exact settle_of_same (hproject.trans hkey)
    · have hnone : Table.find? key settled.mapped = none := by
        cases hf : Table.find? key settled.mapped with
        | none => rfl
        | some slots =>
          have hnil : slots = [] := by simpa [slotsAt, hf] using hkey.2
          exact absurd hnil (hfiled.nonempty _ (Table.mem_of_find? hf))
      exact settle_of_error (hproject.trans hkey.1) hnone
    · obtain ⟨hnil, -, slots, hslots, hv, -⟩ := hkey
      have hne : slots ≠ ix.slotsAt key := by
        rintro rfl
        rw [settle_of_same hslots] at hs
        cases hs
      rw [settle_of_changed hslots hne] at hs
      have hrefused : ix.remap key (ix.slotsAt key) slots = (some violation, settled) := by
        obtain ⟨hviolation, hsettled⟩ := Prod.mk.inj hs
        refine Prod.ext ?_ hsettled
        simpa using hviolation
      have hne' : slots ≠ settled.slotsAt key := by
        rw [hnil]
        exact List.ne_nil_of_mem hv
      rw [settle_of_changed (hproject.trans hslots) hne', hnil, remap_refused_again h hrefused]
      rfl

/-- Settling does not look at marks and counters. -/
theorem settle_marked (ix : Index) (degraded : List Key) (counters : IndexCounters) (key : Key)
    (value : Option Value) :
    settle { ix with degraded := degraded, counters := counters } key value =
      ((ix.settle key value).1, { (ix.settle key value).2 with degraded := degraded, counters := counters }) := by
  have hremap : ∀ old new, remap { ix with degraded := degraded, counters := counters } key old new =
      ((ix.remap key old new).1, { (ix.remap key old new).2 with degraded := degraded, counters := counters }) := by
    intro old new
    unfold remap
    simp only
    cases ix.store.update key old new with
    | mk outcome store => cases outcome <;> rfl
  have hproject : projectEntry { ix with degraded := degraded, counters := counters } value =
      ix.projectEntry value := projectEntry_congr rfl value
  unfold settle
  rw [hproject]
  simp only [hremap]
  cases ix.projectEntry value with
  | ok new => simp only; split <;> rfl
  | error fault => cases Table.find? key ix.mapped <;> rfl

/-- The refused keys after an update of a key. -/
def marks (outcome : Option Exclusion) (key : Key) (degraded : List Key) : List Key :=
  match outcome with
  | some (.violation _) => if key ∈ degraded then degraded else degraded ++ [key]
  | _ => degraded.erase key

theorem marks_again {degraded : List Key} (h : degraded.Nodup) (outcome : Option Exclusion) (key : Key) :
    marks outcome key (marks outcome key degraded) = marks outcome key degraded := by
  have hkept : (degraded.erase key).erase key = degraded.erase key := List.erase_of_not_mem h.not_mem_erase
  rcases outcome with _ | (fault | violation)
  · exact hkept
  · exact hkept
  · simp only [marks]
    split <;> simp_all

/-- **Applying a value again ends the same way, and only counts.** -/
theorem apply_again (h : ix.WF) (key : Key) (value : Option Value) :
    let applied := ix.apply key value
    applied.2.apply key value = (applied.1, { applied.2 with
      counters := { applied.2.counters with updates := applied.2.counters.updates + 1 } }) := by
  have hsettle := settle_again h.toFiled key value
  have hdegraded : (ix.settle key value).2.degraded.Nodup := by
    rw [(settle_spec h.toFiled key value).2.2.2.1]
    exact h.degraded
  have happly : ∀ ix : Index, ix.apply key value = ((ix.settle key value).1, { (ix.settle key value).2 with
      degraded := marks (ix.settle key value).1 key (ix.settle key value).2.degraded
      counters := { (ix.settle key value).2.counters with
        updates := (ix.settle key value).2.counters.updates + 1 } }) := fun _ => rfl
  intro applied
  simp only [applied]
  rw [happly ix, happly, settle_marked]
  simp only [hsettle, marks_again hdegraded]

/-! ## Checks -/

/-- **A check finds the refused keys, and nothing else.** -/
theorem verify_spec (h : ix.WF) : ix.verify = ix.degraded.map .refused := by
  have hslots : ∀ e ∈ ix.mapped, ix.slotsAt e.1 = e.2 := by
    rintro ⟨key, slots⟩ he
    simp [slotsAt, (Table.find?_eq_some_iff h.unique).2 he]
  have hmissing : (ix.mapped.flatMap fun e =>
      (e.2.filter fun slot => !ix.store.contains slot e.1).map (Finding.missing e.1)) = [] := by
    rw [List.flatMap_eq_nil_iff]
    rintro ⟨key, slots⟩ he
    rw [List.map_eq_nil_iff, List.filter_eq_nil_iff]
    intro slot hslot
    have hcontains : ix.store.contains slot key = true := by
      rw [SlotStore.contains_iff h.store, h.occurrences, hslots _ he]
      exact List.count_pos_iff.2 hslot
    simp [hcontains]
  have hbalanced : sumOf (·.2.length) ix.mapped = ix.counts.2 := by
    have hwithin : ix.Within (Table.keys ix.mapped) := by
      refine ⟨h.unique, fun key hne => ?_⟩
      rw [Table.mem_keys_iff]
      by_contra hnone
      exact hne (by simp [slotsAt, Option.not_isSome_iff_eq_none.1 hnone])
    have hflat : (Table.keys ix.mapped).flatMap ix.slotsAt = ix.mapped.flatMap (·.2) := by
      rw [Table.keys, List.flatMap_map]
      exact List.flatMap_congr hslots
    rw [counts_spec h hwithin, hflat]
    induction ix.mapped with
    | nil => rfl
    | cons e rest ih => rw [List.flatMap_cons, List.length_append, sumOf, ih]
  rw [verify, hbalanced]
  simpa using hmissing

/-! ## Runs -/

/-- An index after updates, refused or not. -/
def applyAll (ix : Index) (updates : List Update) : Index :=
  updates.foldl (fun ix u => (ix.apply u.key u.value).2) ix

theorem WF.applyAll (h : ix.WF) (updates : List Update) : (ix.applyAll updates).WF := by
  induction updates generalizing ix with
  | nil => exact h
  | cons u rest ih => exact ih (apply_spec h u.key u.value).1

/-- **Applying a value is exact and local, and done again it changes nothing.** After any updates of a new index of
any kind, applying a value to a key leaves alone what the index has of every other key. Ended well, it leaves the
key with the slots of the value, in the index and in its store, and without a mark; otherwise with none in either,
and with a mark just when they were refused. Applied again, it ends the same way and changes the counters only. And
a check of the index finds each refused key once, and nothing else. -/
theorem apply_exact {d : IndexDefinition} {c : CompiledDefinition} (hc : d.compile = .ok c) (hasher : Hasher)
    (stripes : Nat) (updates : List Update) (key : Key) (value : Option Value) :
    let ix := (new c hasher stripes).applyAll updates
    let applied := ix.apply key value
    (∀ k, k ≠ key → SameAt k ix applied.2) ∧
      (match applied.1 with
        | none => ∃ slots, ix.projectEntry value = .ok slots ∧ applied.2.Holds key slots ∧
            key ∉ applied.2.degraded
        | some excluded => applied.2.Holds key [] ∧
            (key ∈ applied.2.degraded ↔ ∃ violation, excluded = .violation violation)) ∧
      applied.2.apply key value = (applied.1, { applied.2 with
        counters := { applied.2.counters with updates := applied.2.counters.updates + 1 } }) ∧
      ix.degraded.Nodup ∧ ix.verify = ix.degraded.map .refused := by
  intro ix applied
  have h : ix.WF := (wf_new hc hasher stripes).applyAll updates
  obtain ⟨hwf, -, hchanged⟩ := apply_spec h key value
  have houtcome := apply_outcome h key value
  have hholds := hwf.holds key
  refine ⟨fun k hk => ?_, ?_, apply_again h key value, h.degraded, verify_spec h⟩
  · exact (h.holds k).sameAt (hchanged.slots k hk ▸ hwf.holds k) (hchanged.degraded k hk)
  · simp only [applied] at houtcome ⊢
    generalize ix.apply key value = applied at houtcome hholds
    obtain ⟨_ | excluded, ix'⟩ := applied
    · exact ⟨_, houtcome.1, hholds, houtcome.2⟩
    · rw [houtcome.1] at hholds
      exact ⟨hholds, houtcome.2⟩

def badges : IndexDefinition := ⟨"badges", .primaryKey, "id", "/staff"⟩

def badge (id : Int64) : Value := .map [("id", .integer id)]

/-- A badge that is taken is refused as often as it is asked for, and the one who has it keeps it. -/
theorem apply_exact_badges : ∃ c, badges.compile = .ok c ∧
    let ix := (new c default 4).applyAll [⟨.int 1, some (badge 7)⟩]
    let applied := ix.apply (.int 2) (some (badge 7))
    applied.1 = some (.violation ⟨"badges", .int 7, .int 1, .int 2⟩) ∧ SameAt (.int 1) ix applied.2 ∧
      applied.2.Holds (.int 2) [] ∧ .int 2 ∈ applied.2.degraded ∧
      (applied.2.apply (.int 2) (some (badge 7))).1 = applied.1 := by
  obtain ⟨c, hc⟩ : ∃ c, badges.compile = .ok c := ⟨_, rfl⟩
  obtain ⟨hlocal, houtcome, hagain, -⟩ :=
    apply_exact hc default 4 [⟨.int 1, some (badge 7)⟩] (.int 2) (some (badge 7))
  have hrefused : (((new c default 4).applyAll [⟨.int 1, some (badge 7)⟩]).apply (.int 2) (some (badge 7))).1 =
      some (.violation ⟨"badges", .int 7, .int 1, .int 2⟩) := by
    obtain rfl := Except.ok.inj hc
    rfl
  rw [hrefused] at houtcome
  refine ⟨c, hc, hrefused, hlocal _ (by decide), houtcome.1, houtcome.2.2 ⟨_, rfl⟩, ?_⟩
  rw [hagain]

end Index

end IndexedStore
