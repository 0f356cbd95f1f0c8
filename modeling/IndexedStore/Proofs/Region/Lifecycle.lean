import IndexedStore.Proofs.Region.Chronicle

/-!
# Operations on indexes inside operations on indexes

At every checkpoint a listener may run further complete operations, with listeners of their own. What holds across
each step of an operation holds across the operation (`Host.Respects.run`). `Chronicle.Continues` says what can
become of a region then, and `Chronicle.InOrder` what is true of its indexes at every moment of that
(`Continues.indexes_in_order`). Between two phases of a creation or of a removal nothing happens to the index that
is on its way, save that a clear sweeps it (`Keeps`); `renewed` is a region with a swept index in it.
-/

namespace IndexedStore

/-! ## Steps that are not about the indexes -/

namespace Region

/-- A change that leaves the indexes, but for their contents, and does not close the region. Only definitions for
this region may come to be pending. -/
structure Aside (r r' : Region) : Prop where
  standing : r.registry.Standing r'.registry
  destroyed : r'.destroyed = r.destroyed
  path : r'.path = r.path
  pending : ∀ d ∈ r'.registry.pending, d ∈ r.registry.pending ∨ ∃ c, d.compile = .ok c ∧ c.regionPath = r.path

theorem Aside.refl (r : Region) : Aside r r := ⟨.refl _, rfl, rfl, fun _ => .inl⟩

theorem Kept.aside {r r' : Region} (h : Kept r r') : Aside r r' where
  standing := by rw [h.registry]; exact .refl _
  destroyed := h.destroyed
  path := h.path
  pending d hd := .inl (h.registry ▸ hd)

end Region

/-- Bringing an index up to date changes its contents only. -/
theorem Index.maintain_keeps (ix : Index) (key : Key) (value : Option Value) :
    (ix.maintain key value).2.compiled = ix.compiled ∧ (ix.maintain key value).2.state = ix.state := by
  have hremap : ∀ (old new : List Slot), (ix.remap key old new).2.compiled = ix.compiled ∧
      (ix.remap key old new).2.state = ix.state := by
    intro old new
    unfold remap
    split <;> exact ⟨rfl, rfl⟩
  have hsettle : (ix.settle key value).2.compiled = ix.compiled ∧
      (ix.settle key value).2.state = ix.state := by
    unfold settle
    simp only
    split
    · split
      · exact ⟨rfl, rfl⟩
      · exact hremap _ _
    · split
      · exact hremap _ _
      · exact ⟨rfl, rfl⟩
  unfold maintain apply
  generalize ix.settle key value = settled at hsettle
  obtain ⟨_ | _ | _, settled⟩ := settled <;> exact hsettle

namespace Region

theorem updateIndex_aside (r : Region) (id : IndexId) (u : Update) : Aside r (r.updateIndex id u) :=
  ⟨Registry.standing_modify _ _ fun ix => ix.maintain_keeps u.key u.value, rfl, rfl, fun _ => .inl⟩

/-- What a scan leaves of a region: the contents of indexes may be others. -/
structure Scanned (r r' : Region) : Prop extends SameEntries r r' where
  standing : r.registry.Standing r'.registry
  pending : r'.registry.pending = r.registry.pending

theorem Scanned.refl (r : Region) : Scanned r r := ⟨.refl r, .refl _, rfl⟩

theorem Scanned.trans {a b c : Region} (h : Scanned a b) (h' : Scanned b c) : Scanned a c :=
  ⟨h.toSameEntries.trans h'.toSameEntries, h.standing.trans h'.standing, h'.pending.trans h.pending⟩

theorem Scanned.aside {r r' : Region} (h : Scanned r r') : Aside r r' :=
  ⟨h.standing, h.destroyed, h.path, fun _ hd => .inl (h.pending ▸ hd)⟩

theorem scanEntry_scanned (r : Region) (id : IndexId) (report : BuildReport) (key : Key) :
    Scanned r (r.scanEntry id report key).2 := by
  have hsame := snapshot_same r key
  have hread : Scanned r (r.snapshot key).2 :=
    ⟨hsame.sameEntries, by rw [hsame.registry]; exact .refl _, by rw [hsame.registry]⟩
  unfold scanEntry
  split <;> rename_i h <;> rw [h] at hread
  · exact hread
  · exact hread
  · split
    · exact hread
    · rename_i value fromDisk r' _ ix hix
      have hmodify : r'.registry.modify id (fun _ => (ix.maintain key (some value)).2) =
          r'.registry.modify id fun ix => (ix.maintain key (some value)).2 :=
        Registry.modify_congr fun ix' hix' => by rw [Option.some.inj (hix.symm.trans hix')]
      refine hread.trans ⟨sameEntries_withRegistry r' _, ?_, rfl⟩
      simp only
      rw [hmodify]
      exact Registry.standing_modify _ _ fun ix => ix.maintain_keeps key (some value)

theorem scanEntries_scanned (r : Region) (id : IndexId) (report : BuildReport) (keys : List Key) :
    Scanned r (r.scanEntries id report keys).2 := by
  induction keys generalizing r report with
  | nil => exact .refl r
  | cons key rest ih =>
    have hentry := scanEntry_scanned r id report key
    unfold scanEntries
    split <;> rename_i h <;> rw [h] at hentry
    · exact hentry.trans (ih _ _)
    · exact hentry

/-- The lists of indexes do not depend on what waits. -/
theorem aside_of_lists {r r' : Region} (hall : r'.registry.all = r.registry.all)
    (hpublished : r'.registry.published = r.registry.published)
    (hbuilding : r'.registry.building = r.registry.building)
    (htargets : r'.registry.targets = r.registry.targets) (hd : r'.destroyed = r.destroyed)
    (hpath : r'.path = r.path)
    (hpending : ∀ d ∈ r'.registry.pending, d ∈ r.registry.pending ∨ ∃ c, d.compile = .ok c ∧ c.regionPath = r.path) :
    Aside r r' where
  standing :=
    { size := by rw [hall]
      published := hpublished
      building := hbuilding
      targets := htargets
      state := fun id => by rw [Registry.stateOf?, Registry.index?, hall]; rfl
      compiled := fun id => by rw [Registry.compiledOf?, Registry.index?, hall]; rfl }
  destroyed := hd
  path := hpath
  pending := hpending

theorem enqueue_aside (r : Region) (u : Update) : Aside r (r.enqueue u) := by
  unfold enqueue Registry.enqueue
  split
  · exact aside_of_lists rfl rfl rfl rfl rfl rfl fun _ => .inl
  · exact .refl r

theorem define_aside {r r' : Region} {d : IndexDefinition} (h : r.define d = .ok r') : Aside r r' := by
  unfold define at h
  split at h
  · cases h
  · rename_i c hc
    split at h
    · cases h
    · rename_i hpath
      rw [← Except.ok.inj h]
      refine aside_of_lists rfl rfl rfl rfl rfl rfl fun d' hd' => ?_
      rcases List.mem_append.1 hd' with hd' | hd'
      · exact .inl hd'
      · obtain rfl := List.mem_singleton.1 hd'
        exact .inr ⟨c, hc, not_ne_iff.1 hpath⟩

theorem dropEvicted_kept (r : Region) (key : Key) (old : Option EntryValue) :
    Kept r (r.dropEvicted key old) := by
  unfold dropEvicted
  split
  · split
    · exact .refl r
    · exact removeDisk_kept r key
  · exact .refl r

theorem beginPut_kept {r r' : Region} {key : Key} {value : Value} {event : EntryEvent}
    (h : r.beginPut key value = .ok (event, r')) : Kept r r' := by
  have hwritten : Kept r (if r.settings.persistent then r.writeDisk key value else r) := by
    split
    · exact writeDisk_kept r key value
    · exact .refl r
  unfold beginPut at h
  cases hlive : r.ensureLive with
  | error e => simp [hlive] at h
  | ok _ =>
    by_cases hlocked : (r.entries.find? key).any (·.locked) = true
    · simp [hlive, hlocked] at h
    · simp only [hlive, hlocked, Bool.false_eq_true, if_false] at h
      rw [← (Prod.mk.inj (Except.ok.inj h)).2]
      generalize (if r.settings.persistent then r.writeDisk key value else r) = w at hwritten
      have hset : Kept w { w with entries := w.entries.set key ⟨.resident value, true⟩ } :=
        ⟨rfl, rfl, rfl, rfl, rfl⟩
      exact ((hwritten.trans hset).trans (countPut_same _ _).toKept).trans (dropEvicted_kept _ _ _)

theorem unmap_kept {r r' : Region} {key : Key} {event : EntryEvent} (h : r.unmap key = .ok (event, r')) :
    Kept r r' := by
  unfold unmap at h
  split at h
  · cases h
  · split at h
    · cases h
    · split at h
      · cases h
      · obtain ⟨-, rfl⟩ := Prod.mk.inj (Except.ok.inj h)
        have herased : Kept r { r with entries := r.entries.erase key } := ⟨rfl, rfl, rfl, rfl, rfl⟩
        exact (herased.trans (removeDisk_kept _ key)).trans ⟨rfl, rfl, rfl, rfl, rfl⟩

theorem evict?_kept {r r' : Region} {key : Key} (h : r.evict? key = some r') : Kept r r' := by
  unfold evict? at h
  split at h
  · rw [← Option.some.inj h]; exact .refl r
  · split at h
    · cases h
    · split at h
      · rw [← Option.some.inj h]; exact .refl r
      · rw [← Option.some.inj h]
        split
        · exact ⟨rfl, rfl, rfl, rfl, rfl⟩
        · exact (writeDisk_kept r key _).trans ⟨rfl, rfl, rfl, rfl, rfl⟩

theorem evictFrom_kept (r : Region) (limit : Nat) (keys : List Key) : Kept r (r.evictFrom limit keys) := by
  induction keys generalizing r with
  | nil => exact ⟨rfl, rfl, rfl, rfl, rfl⟩
  | cons key rest ih =>
    unfold evictFrom
    split
    · exact ⟨rfl, rfl, rfl, rfl, rfl⟩
    · split
      · rename_i evicted he
        exact (evict?_kept he).trans (ih evicted)
      · exact ⟨rfl, rfl, rfl, rfl, rfl⟩

theorem endPut_kept (r : Region) (key : Key) : Kept r (r.endPut key) := by
  have hunlock : Kept (r.touch key) ((r.touch key).unlock key) := by
    unfold unlock
    split
    · exact ⟨rfl, rfl, rfl, rfl, rfl⟩
    · exact .refl _
  have hevicted : Kept ((r.touch key).unlock key) ((r.touch key).unlock key).evictOverflow := by
    unfold evictOverflow
    split
    · exact evictFrom_kept _ _ _
    · exact .refl _
  exact ((touch_same r key).toKept.trans hunlock).trans hevicted

end Region

/-! ## What can become of a region -/

/-- A complete operation, of those that are about indexes and of those that are about entries. -/
inductive Command where
  | createIndex (d : IndexDefinition)
  | createIndexLive (d : IndexDefinition)
  | define (d : IndexDefinition)
  | createDefined
  | removeIndex (name : String)
  | clear
  | close
  | put (key : Key) (value : Value)
  | destroy (key : Key)
  | work

/-- The state after a command, whether or not that was refused. -/
def Command.run {σ : Type} (h : Host σ) (s : σ) : Command → σ
  | .createIndex d => (h.createIndex d s).2
  | .createIndexLive d => (h.createIndexLive d s).2
  | .define d =>
    match (h.region s).define d with
    | .ok r => h.setRegion r s
    | .error _ => s
  | .createDefined => (h.createDefined s).2
  | .removeIndex name => (h.removeIndex name s).2
  | .clear => h.modify (·.clearIndexes) s
  | .close => h.close s
  | .put key value => (h.put key value s).2
  | .destroy key => (h.destroy key s).2
  | .work => h.workerStep s

namespace Host

variable {σ : Type} {h : Host σ} {R : σ → σ → Prop}

/-- A relation between states that holds across every step of a command: across what listeners do, across changes
that are not about the indexes, and across a creation or a removal with anything it holds across in between. -/
structure Respects (h : Host σ) (R : σ → σ → Prop) : Prop where
  refl : ∀ s, R s s
  trans : ∀ {a b c}, R a b → R b c → R a c
  heard : ∀ installed arrival s, R s (h.listener installed arrival s)
  aside : ∀ {s r}, (h.region s).Aside r → R s (h.setRegion r s)
  cleared : ∀ {s r}, r.path = (h.region s).path → r.registry = (h.region s).registry.cleared →
    R s (h.setRegion r s)
  creation : ∀ {s s' d id r}, (h.region s).beginIndex d = .ok (id, r) → R (h.setRegion r s) s' →
    ∀ scanned, R s (h.setRegion ((h.region s').endIndex id scanned).2 s')
  removal : ∀ {s s' name id r}, (h.region s).unpublish name = .ok (id, r) → R (h.setRegion r s) s' →
    R s (h.modify (·.discardIndex id) s')

theorem run_eq {α : Type} (f : Region → α × Region) (s : σ) :
    h.run f s = ((f (h.region s)).1, h.setRegion (f (h.region s)).2 s) := rfl

theorem Respects.createIndex (hr : h.Respects R) (d : IndexDefinition) (s : σ) : R s (h.createIndex d s).2 := by
  unfold Host.createIndex
  cases hb : (h.region s).beginIndex d with
  | error e => exact hr.refl s
  | ok begun =>
    obtain ⟨id, r⟩ := begun
    let arrival (checkpoint : Checkpoint) : Arrival := ⟨checkpoint, r.path, some d.name, none, false⟩
    let listen := h.listener (h.setRegion r s)
    let before := listen (arrival .beforeInitialScan) (h.setRegion r s)
    let scanned := h.setRegion ((h.region before).scan id).2 before
    let after := listen (arrival .afterInitialScan) scanned
    have hbefore : R (h.setRegion r s) before := hr.heard _ _ _
    have hscanned : R before scanned := hr.aside (Region.scanEntries_scanned _ _ _ _).aside
    have hafter : R scanned after := hr.heard _ _ _
    let ended := (h.region after).endIndex id ((h.region before).scan id).1
    have hended : R s (h.setRegion ended.2 after) :=
      hr.creation hb (hr.trans (hr.trans hbefore hscanned) hafter) ((h.region before).scan id).1
    simp only [run_eq]
    split <;> rename_i houtcome <;> rw [← (Prod.mk.inj houtcome).2]
    · exact hended
    · exact hr.trans hended (hr.heard _ _ _)

theorem Respects.createIndexLive (hr : h.Respects R) (d : IndexDefinition) (s : σ) :
    R s (h.createIndexLive d s).2 := by
  unfold Host.createIndexLive
  split
  · exact hr.refl s
  · exact hr.createIndex d s

theorem Respects.createEach (hr : h.Respects R) (definitions : List IndexDefinition) (s : σ) :
    R s (h.createEach definitions s).2 := by
  induction definitions generalizing s with
  | nil => exact hr.refl s
  | cons d rest ih =>
    have hfirst := hr.createIndex d s
    have hrest := ih (h.createIndex d s).2
    unfold Host.createEach
    simp only
    split <;> exact hr.trans hfirst hrest

theorem Respects.createDefined (hr : h.Respects R) (s : σ) : R s (h.createDefined s).2 := by
  have htaken : R s (h.setRegion (h.region s).takePending.2 s) :=
    hr.aside (Region.aside_of_lists rfl rfl rfl rfl rfl rfl fun _ hd => by cases hd)
  exact hr.trans htaken (hr.createEach _ _)

theorem Respects.removeIndex (hr : h.Respects R) (name : String) (s : σ) : R s (h.removeIndex name s).2 := by
  unfold Host.removeIndex
  cases hu : (h.region s).unpublish name with
  | error e => exact hr.refl s
  | ok hidden =>
    obtain ⟨id, r⟩ := hidden
    exact hr.removal hu (hr.heard _ _ _)

theorem Respects.updateTargets (hr : h.Respects R) (installed : σ) (byWorker : Bool) (u : Update)
    (targets : List (IndexId × Index)) (s : σ) :
    R s (h.updateTargets (h.listener installed) byWorker u targets s) := by
  unfold Host.updateTargets
  induction targets generalizing s with
  | nil => exact hr.refl s
  | cons target rest ih =>
    rw [List.foldl_cons]
    refine hr.trans ?_ (ih _)
    let arrival (checkpoint : Checkpoint) : Arrival :=
      ⟨checkpoint, (h.region s).path, some target.2.name, some u.key, byWorker⟩
    let before := h.listener installed (arrival .beforeIndexUpdate) s
    have hbefore : R s before := hr.heard _ _ _
    have hupdated : R before (h.setRegion ((h.region before).updateIndex target.1 u) before) :=
      hr.aside (Region.updateIndex_aside _ _ _)
    exact hr.trans (hr.trans hbefore hupdated) (hr.heard _ _ _)

theorem Respects.workerStep (hr : h.Respects R) (s : σ) : R s (h.workerStep s) := by
  unfold Host.workerStep
  split
  · exact hr.refl s
  · have hdequeued : R s (h.setRegion (h.region s).dequeued s) :=
      hr.aside (Region.aside_of_lists rfl rfl rfl rfl rfl rfl fun _ => .inl)
    exact hr.trans (hr.trans hdequeued (hr.heard _ _ _)) (hr.updateTargets _ _ _ _ _)

theorem Respects.workerSteps (hr : h.Respects R) (n : Nat) (s : σ) : R s (h.workerSteps n s) := by
  induction n generalizing s with
  | zero => exact hr.refl s
  | succ n ih => exact hr.trans (hr.workerStep s) (ih _)

theorem Respects.close (hr : h.Respects R) (s : σ) : R s (h.close s) := by
  unfold Host.close
  split
  · exact hr.refl s
  · let closed := h.setRegion { h.region s with destroyed := true }.clearIndexes s
    have hcleared : R s closed := hr.cleared rfl rfl
    have hworked : R closed (h.catchUp closed) := hr.workerSteps _ _
    exact hr.trans (hr.trans hcleared hworked)
      (hr.aside (Region.aside_of_lists rfl rfl rfl rfl rfl rfl fun _ => .inl))

theorem Respects.destroyRegion (hr : h.Respects R) (s : σ) : R s (h.destroyRegion s) :=
  hr.trans (hr.close s) (hr.aside (Region.aside_of_lists rfl rfl rfl rfl rfl rfl fun _ => .inl))

theorem Respects.notify (hr : h.Respects R) (event : EntryEvent) (s : σ) : R s (h.notify event s) := by
  unfold Host.notify
  split
  · exact hr.refl s
  · let start : Arrival := ⟨.maintenanceStart, (h.region s).path, none, some event.key, false⟩
    have hstarted : R s (h.listener s start s) := hr.heard _ _ _
    simp only
    split
    · exact hstarted
    · split
      · exact hr.trans hstarted (hr.updateTargets _ _ _ _ _)
      · exact hr.trans hstarted (hr.aside (Region.enqueue_aside _ _))

theorem Respects.put (hr : h.Respects R) (key : Key) (value : Value) (s : σ) : R s (h.put key value s).2 := by
  unfold Host.put
  cases hb : (h.region s).beginPut key value with
  | error e => exact hr.refl s
  | ok begun =>
    obtain ⟨event, r⟩ := begun
    have hbegun : R s (h.setRegion r s) := hr.aside (Region.beginPut_kept hb).aside
    exact hr.trans (hr.trans hbegun (hr.notify event _)) (hr.aside (Region.endPut_kept _ _).aside)

theorem Respects.destroy (hr : h.Respects R) (key : Key) (s : σ) : R s (h.destroy key s).2 := by
  unfold Host.destroy
  cases hu : (h.region s).unmap key with
  | error e => exact hr.refl s
  | ok unmapped =>
    obtain ⟨event, r⟩ := unmapped
    have hunmapped : R s (h.setRegion r s) := hr.aside (Region.unmap_kept hu).aside
    exact hr.trans hunmapped (hr.notify event _)

/-- **What holds across every step holds across every command.** -/
theorem Respects.run (hr : h.Respects R) (command : Command) (s : σ) : R s (command.run h s) := by
  cases command with
  | createIndex d => exact hr.createIndex d s
  | createIndexLive d => exact hr.createIndexLive d s
  | define d =>
    simp only [Command.run]
    split
    · rename_i r hdefined
      exact hr.aside (Region.define_aside hdefined)
    · exact hr.refl s
  | createDefined => exact hr.createDefined s
  | removeIndex name => exact hr.removeIndex name s
  | clear => exact hr.cleared rfl rfl
  | close => exact hr.close s
  | put key value => exact hr.put key value s
  | destroy key => exact hr.destroy key s
  | work => exact hr.workerStep s

end Host

namespace Chronicle

/-- A region by itself, with all that it has been. -/
def recorded (listener : Chronicle → Listener Chronicle) : Host Chronicle where
  region c := c.now
  setRegion r c := c.moved r
  listener := listener

/-- What commands make of a region where listeners run further commands at the checkpoints, with listeners of
their own. -/
inductive Continues : Chronicle → Chronicle → Prop where
  | nothing (c : Chronicle) : Continues c c
  | andThen {a b c : Chronicle} (first : Continues a b) (second : Continues b c) : Continues a c
  | command {listener : Chronicle → Listener Chronicle}
      (heard : ∀ installed arrival c, Continues c (listener installed arrival c)) (command : Command)
      (c : Chronicle) : Continues c (command.run (recorded listener) c)

/-- What is true of the indexes of a region at a moment, whatever came before. -/
structure InOrder (c : Chronicle) : Prop where
  listed : (c.now.registry.published ++ c.now.registry.building).Nodup
  apart : ∀ i ∈ c.now.registry.published ++ c.now.registry.building,
    ∀ j ∈ c.now.registry.published ++ c.now.registry.building, i ≠ j → ¬ c.Swept i → ¬ c.Swept j →
      c.now.registry.Apart i j
  ready : ∀ id ∈ c.now.registry.published, c.now.registry.stateOf? id = some .ready ∧
    (id ∈ c.now.registry.targets ↔ ¬ c.Swept id)
  removed : ∀ r ∈ c.moments, ∀ id, r.registry.stateOf? id = some .removed → ¬ c.Swept id →
    id ∉ c.now.registry.published ∧ c.now.registry.stateOf? id ≠ some .ready
  closed : ∀ r ∈ c.moments, r.destroyed = true → ∀ id, ¬ c.Swept id → ¬ c.Posthumous id →
    id ∉ c.now.registry.published ∧
      (c.now.registry.stateOf? id = some .ready → r.registry.stateOf? id = some .ready)

variable {a b c : Chronicle} {r : Region} {phase phase' : IndexId → Phase}

theorem Held.order (h : c.Held phase) : c.InOrder where
  listed := List.nodup_append.2 ⟨h.published, h.building, fun i hi j hj hij => by
    have hshown := (h.lives i).published.1 hi
    have hfilling := ((h.lives j).building.1 hj).1
    rw [← hij, hshown] at hfilling
    cases hfilling⟩
  apart i hi j hj hij hswept hswept' := by
    have htarget : ∀ {k}, k ∈ c.now.registry.published ++ c.now.registry.building → ¬ c.Swept k →
        k ∈ c.now.registry.targets := fun {k} hk hs =>
      (h.lives k).targets.2 ⟨(List.mem_append.1 hk).symm.imp (fun hb => ((h.lives k).building.1 hb).1)
        (h.lives k).published.1, hs⟩
    exact h.apart i (htarget hi hswept) j (htarget hj hswept') hij
  ready id hid := by
    have hshown := (h.lives id).published.1 hid
    exact ⟨(h.lives id).ready hshown, (h.lives id).targets.trans (and_iff_right (.inr hshown))⟩
  removed r hr id hstate hswept := by
    have hremoved := (h.lives id).removed r hr hstate hswept
    have hunready : c.now.registry.stateOf? id ≠ some .ready := by simp [hremoved]
    exact ⟨fun hid => hunready ((h.lives id).ready ((h.lives id).published.1 hid)), hunready⟩
  closed r hr hclosed id hswept hpost := by
    obtain ⟨-, hshown, hready⟩ := (h.lives id).closed r hr hclosed hswept hpost
    exact ⟨fun hid => hshown ((h.lives id).published.1 hid), hready⟩

/-- The indexes stand, and have stood at every moment so far. -/
def Kept (phase : IndexId → Phase) (c : Chronicle) : Prop :=
  c.Held phase ∧ ∀ m : Chronicle, m.moments <:+ c.moments → m.InOrder

theorem Kept.moved (h : c.Kept phase) (h' : (c.moved r).Held phase') : (c.moved r).Kept phase' := by
  refine ⟨h', fun m hm => ?_⟩
  rcases List.suffix_cons_iff.1 hm with he | hm
  · obtain ⟨hnow, hpast⟩ := List.cons.inj he
    rw [show m = c.moved r from Chronicle.ext hnow hpast]
    exact h'.order
  · exact h.2 m hm

/-- The creations and removals that were in progress are so still. -/
def Carries (phase phase' : IndexId → Phase) : Prop :=
  ∀ id, phase id = .filling ∨ phase id = .leaving → phase' id = phase id

/-- An index may come and go in the meantime. -/
theorem Carries.around {id : IndexId} {p q : Phase} (hid : phase id ≠ .filling ∧ phase id ≠ .leaving)
    (h : Carries (Function.update phase id p) phase') : Carries phase (Function.update phase' id q) := by
  intro j hj
  have hne : j ≠ id := by
    rintro rfl
    exact hj.elim hid.1 hid.2
  have hsame := h j (by rwa [Function.update_of_ne hne])
  rw [Function.update_of_ne hne, hsame, Function.update_of_ne hne]

/-- What keeps the invariant and carries through what it has not begun itself. -/
def Keeps (a b : Chronicle) : Prop := ∀ phase, a.Kept phase → ∃ phase', b.Kept phase' ∧ Carries phase phase'

theorem Keeps.refl (c : Chronicle) : Keeps c c := fun phase h => ⟨phase, h, fun _ _ => rfl⟩

theorem Keeps.trans (h : Keeps a b) (h' : Keeps b c) : Keeps a c := by
  intro phase ha
  obtain ⟨phase₁, hb, hcarried⟩ := h phase ha
  obtain ⟨phase₂, hc, hcarried'⟩ := h' phase₁ hb
  refine ⟨phase₂, hc, fun id hid => ?_⟩
  have hsame := hcarried id hid
  exact (hcarried' id (hsame.symm ▸ hid)).trans hsame

theorem keeps_aside (h : c.now.Aside r) : Keeps c (c.moved r) := fun phase hc =>
  ⟨phase, hc.moved (hc.1.aside h.standing h.destroyed), fun _ _ => rfl⟩

theorem keeps_cleared (hr : r.registry = c.now.registry.cleared) : Keeps c (c.moved r) := fun phase hc =>
  ⟨_, hc.moved (hc.1.cleared hr), fun id hid => by rcases hid with hid | hid <;> rw [hid] <;> rfl⟩

/-- A creation from its beginning to its end, with anything in between. -/
theorem keeps_creation {d : IndexDefinition} {id : IndexId} (hb : c.now.beginIndex d = .ok (id, r))
    (h : Keeps (c.moved r) b) (scanned : Except Error BuildReport) :
    Keeps c (b.moved (b.now.endIndex id scanned).2) := by
  intro phase hc
  obtain ⟨hunborn, hbegun⟩ := hc.1.begun hb
  obtain ⟨phase₁, hkept, hcarried⟩ := h _ (hc.moved hbegun)
  have hfilling : phase₁ id = .filling := by rw [hcarried id (by simp), Function.update_self]
  obtain ⟨p, hended⟩ := hkept.1.ended hfilling scanned
  exact ⟨_, hkept.moved hended, hcarried.around (by simp [hunborn])⟩

/-- A removal from its beginning to its end, with anything in between. -/
theorem keeps_removal {name : String} {id : IndexId} (hu : c.now.unpublish name = .ok (id, r))
    (h : Keeps (c.moved r) b) : Keeps c (b.moved (b.now.discardIndex id)) := by
  intro phase hc
  obtain ⟨hshown, hhidden⟩ := hc.1.unpublished hu
  obtain ⟨phase₁, hkept, hcarried⟩ := h _ (hc.moved hhidden)
  have hleaving : phase₁ id = .leaving := by rw [hcarried id (by simp), Function.update_self]
  exact ⟨_, hkept.moved (hkept.1.discarded hleaving), hcarried.around (by simp [hshown])⟩

/-- Commands keep the invariant if listeners do. -/
theorem respects_keeps {listener : Chronicle → Listener Chronicle}
    (heard : ∀ installed arrival c, Keeps c (listener installed arrival c)) :
    (recorded listener).Respects Keeps where
  refl := .refl
  trans h h' := h.trans h'
  heard := heard
  aside := keeps_aside
  cleared _ hr := keeps_cleared hr
  creation hb h scanned := keeps_creation hb h scanned
  removal hu h := keeps_removal hu h

theorem Continues.keeps (h : Continues a b) : Keeps a b := by
  induction h with
  | nothing c => exact .refl c
  | andThen _ _ ih ih' => exact ih.trans ih'
  | command _ command c ih => exact (respects_keeps ih).run command c

/-- A region that was just opened has no index yet. -/
theorem Kept.opened {r : Region} (hopen : r.Opened) : (⟨r, []⟩ : Chronicle).Kept fun _ => .unborn := by
  have hheld := Held.opened hopen
  refine ⟨hheld, fun m hm => ?_⟩
  rcases List.suffix_cons_iff.1 hm with he | hnone
  · obtain ⟨hnow, hpast⟩ := List.cons.inj he
    rw [show m = ⟨r, []⟩ from Chronicle.ext hnow hpast]
    exact hheld.order
  · cases List.suffix_nil.1 hnone

/-- **Whatever commands listeners nest in commands, the indexes of a region are in order at every moment, but
for those that a clear or a close came upon while they were being filled, and those begun on the closed
region.** The published and building indexes differ in name and signature, every published one is ready, and it
is a target unless it was swept; an index once removed is not ready or published again, and an index that was
there when the region was closed is not published and does not become ready, unless it was swept. -/
theorem Continues.indexes_in_order {r₀ : Region} (hopen : r₀.Opened) {c : Chronicle} (h : Continues ⟨r₀, []⟩ c)
    {m : Chronicle} (hm : m.moments <:+ c.moments) : m.InOrder := by
  obtain ⟨_, hkept, -⟩ := h.keeps _ (Kept.opened hopen)
  exact hkept.2 m hm

/-! ## An index swept in its own creation -/

/-- Nobody listens. -/
def unheard : Chronicle → Listener Chronicle := fun _ _ c => c

/-- A listener that clears the region when an index is filled, and creates the index anew. -/
def renewing : Chronicle → Listener Chronicle := fun _ arrival c =>
  if arrival.checkpoint = .afterInitialScan then
    [Command.clear, .createIndex valueDefinition].foldl (Command.run (recorded unheard)) c
  else c

/-- A region with an index that was created under that listener. -/
def renewed : Chronicle :=
  Command.run (recorded renewing) ⟨.blank .synchronous, []⟩ (.createIndex valueDefinition)

theorem continues_renewing (installed : Chronicle) (arrival : Arrival) (c : Chronicle) :
    Continues c (renewing installed arrival c) := by
  unfold renewing
  split
  · exact (Continues.command (fun _ _ c => .nothing c) .clear c).andThen
      (.command (fun _ _ c => .nothing c) (.createIndex valueDefinition) _)
  · exact .nothing c

/-- The index is published beside its successor, of which it has the name, and no mutation reaches it. -/
theorem Continues.indexes_in_order_renewed : Continues ⟨.blank .synchronous, []⟩ renewed ∧ renewed.InOrder ∧
    renewed.now.registry.published = [1, 0] ∧ renewed.now.registry.targets = [1] ∧
    renewed.now.registry.stateOf? 0 = some .ready ∧
    renewed.now.registry.compiledOf? 0 = renewed.now.registry.compiledOf? 1 ∧
    renewed.Swept 0 ∧ ¬ renewed.Swept 1 := by
  have hcontinues : Continues ⟨.blank .synchronous, []⟩ renewed := .command continues_renewing _ _
  have horder : renewed.InOrder :=
    indexes_in_order (Region.opened_blank .synchronous) hcontinues (List.suffix_refl _)
  have hpublished : renewed.now.registry.published = [1, 0] := rfl
  have htargets : renewed.now.registry.targets = [1] := rfl
  obtain ⟨hready, htarget⟩ := horder.ready 0 (by simp [hpublished])
  obtain ⟨-, htarget'⟩ := horder.ready 1 (by simp [hpublished])
  refine ⟨hcontinues, horder, hpublished, htargets, hready, rfl, ?_, htarget'.1 (by simp [htargets])⟩
  by_contra hswept
  simpa [htargets] using htarget.2 hswept

end Chronicle

end IndexedStore
