import IndexedStore.Proofs.Region.Runs

/-!
# Maintenance by the worker

An asynchronous region queues the updates of its mutations, and steps of the worker come between its operations.
`Index.eventual` is what an index will have of a key when the queue is worked off, which a step of the worker does not
change. While an index is a target every update is queued, so the last one of a key is the key's value. But where
there is no target `IndexManager::on_entry_event` queues nothing, and an index begun after that, which has scanned the
value, is told of older updates that still wait. A key is overtaken where that makes a difference, until it is written
again; of all other keys an index has the slots of the value when the queue is empty (`Opened.converges`).
-/

namespace IndexedStore

/-! ## Queues -/

/-- The value of the last update of a key that waits. -/
def lastQueued? (queue : List Update) (key : Key) : Option (Option Value) :=
  (queue.reverse.find? fun u => u.key = key).map (·.value)

@[simp] theorem lastQueued?_nil (key : Key) : lastQueued? [] key = none := rfl

theorem lastQueued?_concat (queue : List Update) (u : Update) (key : Key) :
    lastQueued? (queue ++ [u]) key = if u.key = key then some u.value else lastQueued? queue key := by
  by_cases hk : u.key = key <;> simp [lastQueued?, hk]

theorem lastQueued?_cons (u : Update) (queue : List Update) (key : Key) :
    lastQueued? (u :: queue) key =
      (lastQueued? queue key).or (if u.key = key then some u.value else none) := by
  unfold lastQueued?
  rw [List.reverse_cons, List.find?_append]
  cases queue.reverse.find? fun u => u.key = key with
  | some w => rfl
  | none => by_cases hk : u.key = key <;> simp [hk]

namespace Index

/-- What an index will have of a key when the queue is worked off. -/
def eventual (ix : Index) (queue : List Update) (key : Key) : List Slot :=
  match lastQueued? queue key with
  | some value => ix.projected value
  | none => ix.slotsAt key

theorem eventual_concat (ix : Index) (queue : List Update) (u : Update) (key : Key) :
    ix.eventual (queue ++ [u]) key = if u.key = key then ix.projected u.value else ix.eventual queue key := by
  unfold eventual
  rw [lastQueued?_concat]
  by_cases hk : u.key = key <;> simp [hk]

/-- **An index told of the first update has in the end what it would have had.** -/
theorem eventual_maintain {ix : Index} (h : ix.WF) (hkind : ix.kind ≠ .primaryKey) (u : Update)
    (queue : List Update) (key : Key) :
    (ix.maintain u.key u.value).2.eventual queue key = ix.eventual (u :: queue) key := by
  obtain ⟨hwf, hserves, hchanged⟩ := maintain_spec h u.key u.value
  have hkind' : (ix.maintain u.key u.value).2.kind ≠ .primaryKey := by
    simpa [kind, hchanged.compiled] using hkind
  rw [hwf.serves_iff hkind', projected_congr hchanged.compiled] at hserves
  unfold eventual
  rw [lastQueued?_cons]
  cases lastQueued? queue key with
  | some value => exact projected_congr hchanged.compiled value
  | none =>
    by_cases hk : u.key = key
    · subst hk; simpa using hserves
    · simpa [hk] using hchanged.slots key (Ne.symm hk)

end Index

/-! ## Steps -/

/-- What can come next in an asynchronous region. -/
inductive Step where
  | operation (a : Action)
  | work

def Step.run (r : Region) : Step → Region
  | .operation a => a.run r
  | .work => quiet.workerStep r

/-- A region, and the pairs of an index and a key for which an overtaken update makes a difference. -/
structure Monitored where
  region : Region
  overtaken : IndexId → Key → Prop

namespace Monitored

/-- The record after a region has become another. A new index is overtaken at a key of which the last update
that waits is projected otherwise than the value; that is over when another update of the key is queued. -/
def record (m : Monitored) (r' : Region) (id : IndexId) (key : Key) : Prop :=
  match m.region.registry.index? id with
  | none => ∃ ix waiting, r'.registry.index? id = some ix ∧
      lastQueued? m.region.registry.queue key = some waiting ∧
      ix.projected waiting ≠ ix.projected (m.region.current key)
  | some _ => m.overtaken id key ∧ ∀ value, r'.registry.queue ≠ m.region.registry.queue ++ [⟨key, value⟩]

/-- Another region, with the record brought up to date. -/
def become (m : Monitored) (r' : Region) : Monitored := ⟨r', m.record r'⟩

@[simp] theorem region_become (m : Monitored) (r' : Region) : (m.become r').region = r' := rfl

@[simp] theorem overtaken_become (m : Monitored) (r' : Region) : (m.become r').overtaken = m.record r' := rfl

def step (m : Monitored) (s : Step) : Monitored := m.become (s.run m.region)

/-- A region after steps, with what was overtaken meanwhile. -/
def run (r : Region) (steps : List Step) : Monitored := steps.foldl step ⟨r, fun _ _ => False⟩

/-- The invariant: every target comes to have the slots of every key's value, but for what is overtaken. -/
structure Converges (m : Monitored) : Prop where
  asynchronous : m.region.settings.maintenance = .asynchronous
  worker : m.region.registry.workerRunning = true
  eventual : ∀ id ∈ m.region.registry.targets, ∀ ix, m.region.registry.index? id = some ix →
    ix.kind ≠ .primaryKey → ∀ key,
      (ix.eventual m.region.registry.queue key = ix.projected (m.region.current key) ↔ ¬ m.overtaken id key)

variable {m : Monitored}

/-- Of an index that was there nothing new is on record. -/
theorem record_of_some {r' : Region} {id : IndexId} {ix : Index}
    (hix : m.region.registry.index? id = some ix) (key : Key) : m.record r' id key ↔
      m.overtaken id key ∧ ∀ value, r'.registry.queue ≠ m.region.registry.queue ++ [⟨key, value⟩] := by
  simp only [record, hix]

/-- Nor is anything over where no update is queued. -/
theorem record_of_length {r' : Region} {id : IndexId} {ix : Index}
    (hix : m.region.registry.index? id = some ix)
    (hq : r'.registry.queue.length ≤ m.region.registry.queue.length) (key : Key) :
    m.record r' id key ↔ m.overtaken id key := by
  rw [record_of_some hix, and_iff_left]
  intro value he
  rw [he, List.length_append] at hq
  simp at hq

/-- Another region with the same indexes and the same values. -/
theorem Converges.same (hc : m.Converges) {r' : Region} (hsettings : r'.settings = m.region.settings)
    (hregistry : r'.registry = m.region.registry) (hcurrent : ∀ k, r'.current k = m.region.current k) :
    (m.become r').Converges where
  asynchronous := hsettings ▸ hc.asynchronous
  worker := hregistry ▸ hc.worker
  eventual id hid ix hix hkind key := by
    simp only [region_become, overtaken_become, hregistry, hcurrent] at hid hix ⊢
    rw [record_of_length hix (by rw [hregistry])]
    exact hc.eventual id hid ix hix hkind key

/-- An update that is queued is the last one of its key, and its value is the key's. -/
theorem Converges.mutated (hc : m.Converges) {u : Update} {r' : Region}
    (hm : Region.Mutated u m.region r') : (m.become r').Converges := by
  have hregistry : r'.registry = if m.region.registry.targets = [] then m.region.registry
      else { m.region.registry with queue := m.region.registry.queue ++ [u] } := by
    rw [hm.registry, hc.asynchronous]
    simp only [Registry.received, Registry.enqueue, hc.worker, if_true]
  refine ⟨hm.settings ▸ hc.asynchronous, ?_, ?_⟩
  · rw [region_become, hregistry]
    split <;> exact hc.worker
  · intro id hid ix hix hkind key
    simp only [region_become, overtaken_become] at hid hix ⊢
    -- with a target the update is queued
    have htargets : m.region.registry.targets ≠ [] := by
      intro hnone
      rw [hregistry, if_pos hnone, hnone] at hid
      cases hid
    rw [hregistry, if_neg htargets] at hid hix
    have hix : m.region.registry.index? id = some ix := hix
    have hqueue : r'.registry.queue = m.region.registry.queue ++ [u] := by rw [hregistry, if_neg htargets]
    rw [record_of_some hix, hqueue, Index.eventual_concat, hm.current]
    by_cases hk : key = u.key
    · subst hk
      simp only [if_true, true_iff, not_and, not_forall, not_not]
      exact fun _ => ⟨u.value, rfl⟩
    · rw [if_neg (Ne.symm hk), if_neg hk, and_iff_left]
      · exact hc.eventual id hid ix hix hkind key
      · intro value he
        have hu : u = ⟨key, value⟩ := by simpa using he
        exact hk (by rw [hu])

/-- A new index has scanned every value, so it matters only which updates wait. -/
theorem Converges.created (hc : m.Converges) {id : IndexId} {ix : Index} {g' : Registry} {r' : Region}
    (hsame : Region.SameValues m.region r') (hr : m.region.Sound)
    (he : m.region.registry.Extended id ix g') (hs : ∀ k, ix.Serves k (m.region.current k)) :
    (m.become (r'.withRegistry g')).Converges where
  asynchronous := hsame.settings ▸ hc.asynchronous
  worker := he.worker ▸ hc.worker
  eventual j hj ix' hix' hkind key := by
    simp only [region_become, overtaken_become, Region.registry_withRegistry, Region.current_withRegistry,
      he.queue, (hsame.undisturbed hr).current] at hj hix' ⊢
    rcases he.target hj hix' with ⟨rfl, rfl⟩ | ⟨hj, hix⟩
    · have hnew : m.region.registry.index? j = none := by
        rw [he.place, Registry.index?, List.getElem?_eq_none (Nat.le_refl _)]
      simp only [record, hnew, Region.registry_withRegistry, he.index, Index.eventual]
      cases lastQueued? m.region.registry.queue key with
      | some waiting => simp
      | none => simpa using (he.wf.serves_iff hkind).1 (hs key)
    · rw [record_of_length hix (by rw [Region.registry_withRegistry, he.queue])]
      exact hc.eventual j hj ix' hix hkind key

theorem Converges.removed (hc : m.Converges) (hg : m.region.registry.WF) {id : IndexId} {g' : Registry}
    (hr : m.region.registry.Reduced id g') : (m.become (m.region.withRegistry g')).Converges where
  asynchronous := hc.asynchronous
  worker := hr.worker ▸ hc.worker
  eventual j hj ix hix hkind key := by
    simp only [region_become, overtaken_become, Region.registry_withRegistry, Region.current_withRegistry,
      hr.queue] at hj hix ⊢
    obtain ⟨hj, hix⟩ := hr.target hg hj hix
    rw [record_of_length hix (by rw [Region.registry_withRegistry, hr.queue])]
    exact hc.eventual j hj ix hix hkind key

/-- A complete operation. -/
theorem Converges.transition (hc : m.Converges) (hr : m.region.Steady) {r' : Region}
    (ht : Region.Transition m.region r') : (m.become r').Converges := by
  cases ht with
  | none h => exact hc.same h.settings h.registry (h.undisturbed hr.sound).current
  | mutated u h => exact hc.mutated h
  | created h he _ hs => exact hc.created h hr.sound he hs
  | removed h => exact hc.removed hr.registry h

/-- A step of the worker takes the first update out and tells the targets of it. -/
theorem work_spec {r : Region} (hg : r.registry.WF) : Step.work.run r = r ∨
    ∃ u rest, r.registry.queue = u :: rest ∧ Step.work.run r =
      r.withRegistry (Registry.told { r.registry with queue := rest } u r.registry.targets) := by
  cases hq : r.registry.queue with
  | nil =>
    left
    unfold Step.run Host.workerStep
    rw [show quiet.region r = r from rfl, hq]
  | cons u rest =>
    refine .inr ⟨u, rest, rfl, ?_⟩
    have hdequeued : r.dequeued = r.withRegistry { r.registry with queue := rest } := by
      simp only [Region.dequeued, hq]
      rfl
    have hids : r.dequeued.registry.liveTargets.map (·.1) = r.registry.targets := hg.liveTargets_ids
    have hstep : Step.work.run r =
        quiet.updateTargets (fun _ r => r) true u r.dequeued.registry.liveTargets r.dequeued := by
      unfold Step.run Host.workerStep
      rw [show quiet.region r = r from rfl, hq]
      rfl
    rw [hstep, Region.foldl_updateTarget, hids, hdequeued]
    rfl

theorem Converges.worked (hc : m.Converges) (hg : m.region.registry.WF) {u : Update} {rest : List Update}
    (hq : m.region.registry.queue = u :: rest) :
    (m.become (m.region.withRegistry
      (Registry.told { m.region.registry with queue := rest } u m.region.registry.targets))).Converges := by
  let g : Registry := { m.region.registry with queue := rest }
  have hwf : g.WF := hg.withQueue rest
  have hlists := Registry.told_sameLists g u g.targets
  refine ⟨hc.asynchronous, hlists.worker.trans hc.worker, ?_⟩
  intro id hid ix' hix' hkind key
  simp only [region_become, overtaken_become, Region.registry_withRegistry, Region.current_withRegistry]
    at hid hix' ⊢
  rw [show (Registry.told { m.region.registry with queue := rest } u m.region.registry.targets).queue = rest
    from hlists.queue]
  have hid : id ∈ g.targets := hlists.targets ▸ hid
  have hix' : (g.told u g.targets).index? id = some ix' := hix'
  rw [Registry.index?_told hwf.targets, if_pos hid] at hix'
  obtain ⟨ix, hix, rfl⟩ := Option.map_eq_some_iff.1 hix'
  have hixwf := (hwf.index hid hix).1
  have hcompiled := (Index.maintain_spec hixwf u.key u.value).2.2.compiled
  have hkind : ix.kind ≠ .primaryKey := by simpa [Index.kind, hcompiled] using hkind
  have hlength : (g.told u g.targets).queue.length ≤ m.region.registry.queue.length := by
    rw [hlists.queue, hq]
    exact Nat.le_succ _
  rw [record_of_length (show m.region.registry.index? id = some ix from hix) hlength,
    Index.eventual_maintain hixwf hkind, Index.projected_congr hcompiled, ← hq]
  exact hc.eventual id hid ix hix hkind key

/-- **Every step keeps the invariant.** -/
theorem Converges.step (hc : m.Converges) (hr : m.region.Steady) (s : Step) :
    (m.step s).Converges ∧ (m.step s).region.Steady := by
  cases s with
  | operation a =>
    have ht := hr.transition a
    exact ⟨hc.transition hr ht, ht.steady hr⟩
  | work =>
    unfold Monitored.step
    rcases work_spec hr.registry with he | ⟨u, rest, hq, he⟩
    · rw [he]
      exact ⟨hc.same rfl rfl fun _ => rfl, hr⟩
    · rw [he]
      exact ⟨hc.worked hr.registry hq, hr.sound.withRegistry _, (hr.registry.withQueue rest).told u _, hr.live,
        hr.unlocked⟩

theorem Converges.run (hc : m.Converges) (hr : m.region.Steady) (steps : List Step) :
    (steps.foldl Monitored.step m).Converges ∧ (steps.foldl Monitored.step m).region.Steady := by
  induction steps generalizing m with
  | nil => exact ⟨hc, hr⟩
  | cons s rest ih =>
    obtain ⟨hc', hr'⟩ := hc.step hr s
    exact ih hc' hr'

end Monitored

/-- **Whenever the queue of an asynchronous region is empty, an index has the slots of a key's value exactly
if the key is not overtaken for it.** -/
theorem Region.Opened.converges {r₀ : Region} (hopen : r₀.Opened)
    (hasync : r₀.settings.maintenance = .asynchronous) (steps : List Step)
    (hempty : (Monitored.run r₀ steps).region.registry.queue = []) {id : IndexId} {ix : Index}
    (hpub : (id, ix) ∈ (Monitored.run r₀ steps).region.registry.publishedIndexes)
    (hkind : ix.kind ≠ .primaryKey) (key : Key) :
    ((Monitored.run r₀ steps).region.readValue key).1 = .ok ((Monitored.run r₀ steps).region.current key) ∧
      (ix.slotsAt key = ix.projected ((Monitored.run r₀ steps).region.current key) ↔
        ¬ (Monitored.run r₀ steps).overtaken id key) := by
  obtain ⟨hsteady, hg⟩ := hopen.spec
  have hstart : Monitored.Converges ⟨r₀, fun _ _ => False⟩ := by
    refine ⟨hasync, ?_, ?_⟩
    · rw [hg, hasync]; rfl
    · intro id hid
      rw [hg] at hid; cases hid
  obtain ⟨hc, hr⟩ := hstart.run hsteady steps
  obtain ⟨hid, hix⟩ := hr.registry.mem_published hpub
  refine ⟨(readValue_spec hr.sound key).1, ?_⟩
  have heventual := hc.eventual id hid ix hix hkind key
  rw [show (steps.foldl Monitored.step ⟨r₀, fun _ _ => False⟩).region.registry.queue = [] from hempty]
    at heventual
  exact heventual

/-! ## An index begun while an old update waits -/

/-- An update is queued for an index that is removed; the next value is not queued, and scanned by a new
index before the worker takes the update out. -/
def overtakingSteps : List Step :=
  [.operation (.createIndex valueDefinition), .operation (.put (.int 1) (valued 1)),
    .operation (.removeIndex "values"), .operation (.put (.int 1) (valued 2)),
    .operation (.createIndex valueDefinition), .work]

def overtakenRun : Monitored := .run (.blank .asynchronous) overtakingSteps

theorem Region.Opened.converges_overtaken : overtakenRun.region.registry.queue = [] ∧
    overtakenRun.region.current (.int 1) = some (valued 2) ∧ overtakenRun.overtaken 1 (.int 1) := by
  let ix := (overtakenRun.region.registry.index? 1).getD default
  have hpub : (1, ix) ∈ overtakenRun.region.registry.publishedIndexes := List.mem_singleton.2 rfl
  have hkind : ix.kind ≠ .primaryKey := by decide
  have hslots : ix.slotsAt (.int 1) = [.defined (.int 1)] := rfl
  have hprojected : ix.projected (overtakenRun.region.current (.int 1)) = [.defined (.int 2)] := rfl
  have hempty : overtakenRun.region.registry.queue = [] := rfl
  refine ⟨hempty, rfl, ?_⟩
  by_contra ho
  have hagrees := (converges (Region.opened_blank .asynchronous) rfl overtakingSteps hempty hpub hkind
    (.int 1)).2.2 ho
  have hagrees : ix.slotsAt (.int 1) = ix.projected (overtakenRun.region.current (.int 1)) := hagrees
  rw [hslots, hprojected] at hagrees
  cases hagrees

end IndexedStore
