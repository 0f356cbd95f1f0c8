import IndexedStore.Region.Maintenance
import IndexedStore.Proofs.Index.Contents

/-!
# The indexes of a region

A registry as it stands between the steps of operations: every target is an index that is kept up to
date, and what is published is a target (`Registry.WF`). `told` is the registry after some of its targets
have been brought up to date with an update, one after another, and `filled` the registry after one index
has scanned some keys. Both change the contents of the indexes they name and nothing else.
-/

namespace IndexedStore

namespace Registry

theorem index?_modify (g : Registry) (id j : IndexId) (f : Index → Index) :
    (g.modify id f).index? j = if id = j then (g.index? j).map f else g.index? j := by
  simp only [index?, modify, List.getElem?_modify]
  split <;> simp

/-- A change of an index depends on what it does to that index. -/
theorem modify_congr {g : Registry} {id : IndexId} {f f' : Index → Index}
    (h : ∀ ix, g.index? id = some ix → f ix = f' ix) : g.modify id f = g.modify id f' := by
  have hall : g.all.modify id f = g.all.modify id f' := by
    apply List.ext_getElem?
    intro i
    simp only [List.getElem?_modify]
    by_cases hi : id = i
    · subst hi
      simp only [if_true]
      cases hix : g.all[id]? with
      | none => rfl
      | some ix => exact congrArg some (h ix hix)
    · simp [hi]
  simp only [modify, hall]

theorem modify_self {g : Registry} {id : IndexId} {f : Index → Index}
    (h : ∀ ix, g.index? id = some ix → f ix = ix) : g.modify id f = g := by
  have hid : g.all.modify id (fun ix => ix) = g.all := by
    apply List.ext_getElem?
    intro i
    simp [List.getElem?_modify]
  rw [modify_congr h, modify, hid]

theorem modify_modify (g : Registry) (id : IndexId) (f f' : Index → Index) :
    (g.modify id f).modify id f' = g.modify id fun ix => f' (f ix) := by
  simp only [modify, List.modify_modify_eq]
  rfl

theorem mem_indexesAt {g : Registry} {ids : List IndexId} {id : IndexId} {ix : Index} :
    (id, ix) ∈ g.indexesAt ids ↔ id ∈ ids ∧ g.index? id = some ix := by
  simp only [indexesAt, List.mem_filterMap, Option.map_eq_some_iff, Prod.mk.injEq]
  constructor
  · rintro ⟨_, hid, _, hix, rfl, rfl⟩
    exact ⟨hid, hix⟩
  · rintro ⟨hid, hix⟩
    exact ⟨id, hid, ix, hix, rfl, rfl⟩

theorem mem_publishedIndexes {g : Registry} {id : IndexId} {ix : Index} :
    (id, ix) ∈ g.publishedIndexes ↔ id ∈ g.published ∧ g.index? id = some ix := mem_indexesAt

/-- The registry of a region between the steps of its operations. -/
structure WF (g : Registry) : Prop where
  targets : g.targets.Nodup
  published : g.published.Nodup
  live : ∀ id ∈ g.targets, ∃ ix, g.index? id = some ix ∧ ix.WF ∧ ix.state ≠ .removed
  visible : ∀ id ∈ g.published, id ∈ g.targets

theorem wf_empty (maintenance : Maintenance) : (empty maintenance).WF :=
  ⟨by simp [empty], by simp [empty], by simp [empty], by simp [empty]⟩

theorem WF.index {g : Registry} (h : g.WF) {id : IndexId} (hid : id ∈ g.targets) {ix : Index}
    (hix : g.index? id = some ix) : ix.WF ∧ ix.state ≠ .removed := by
  obtain ⟨ix', hix', hwf, hs⟩ := h.live id hid
  obtain rfl := Option.some.inj (hix.symm.trans hix')
  exact ⟨hwf, hs⟩

/-- No target is removed, so all of them are brought up to date. -/
theorem WF.liveTargets_ids {g : Registry} (h : g.WF) : g.liveTargets.map (·.1) = g.targets := by
  have hfilter : ∀ ids : List IndexId, (∀ id ∈ ids, id ∈ g.targets) →
      ((g.indexesAt ids).filter fun e => e.2.state ≠ .removed).map (·.1) = ids := by
    intro ids
    induction ids with
    | nil => intro; rfl
    | cons id rest ih =>
      intro hids
      obtain ⟨ix, hix, -, hs⟩ := h.live id (hids id (by simp))
      have hrest := ih fun j hj => hids j (List.mem_cons_of_mem _ hj)
      simp only [indexesAt] at hrest ⊢
      rw [List.filterMap_cons_some (by rw [hix]; rfl), List.filter_cons_of_pos (by simpa using hs),
        List.map_cons, hrest]
  exact hfilter g.targets fun _ hid => hid

theorem WF.mem_published {g : Registry} (h : g.WF) {id : IndexId} {ix : Index}
    (hp : (id, ix) ∈ g.publishedIndexes) : id ∈ g.targets ∧ g.index? id = some ix := by
  obtain ⟨hid, hix⟩ := mem_publishedIndexes.1 hp
  exact ⟨h.visible id hid, hix⟩

/-! ## Contents -/

/-- A registry in which only the contents of indexes have changed. -/
structure SameLists (g g' : Registry) : Prop where
  size : g'.all.length = g.all.length
  targets : g'.targets = g.targets
  published : g'.published = g.published
  queue : g'.queue = g.queue
  worker : g'.workerRunning = g.workerRunning

theorem SameLists.refl (g : Registry) : SameLists g g := ⟨rfl, rfl, rfl, rfl, rfl⟩

theorem SameLists.trans {a b c : Registry} (h : SameLists a b) (h' : SameLists b c) : SameLists a c :=
  ⟨h'.size.trans h.size, h'.targets.trans h.targets, h'.published.trans h.published, h'.queue.trans h.queue,
    h'.worker.trans h.worker⟩

theorem modify_sameLists (g : Registry) (id : IndexId) (f : Index → Index) : SameLists g (g.modify id f) :=
  ⟨List.length_modify _ _ _, rfl, rfl, rfl, rfl⟩

/-- A target exchanged for an index that is as well kept up. -/
theorem WF.modify {g : Registry} (h : g.WF) {id : IndexId} {f : Index → Index}
    (hf : ∀ ix, ix.WF → (f ix).WF ∧ (f ix).state = ix.state) : (g.modify id f).WF where
  targets := h.targets
  published := h.published
  live j hj := by
    obtain ⟨ix, hix, hwf, hs⟩ := h.live j hj
    obtain ⟨hwf', hs'⟩ := hf ix hwf
    rw [index?_modify, hix]
    split
    · exact ⟨f ix, rfl, hwf', hs' ▸ hs⟩
    · exact ⟨ix, rfl, hwf, hs⟩
  visible := h.visible

/-- One index brought up to date with an update. -/
def tell (g : Registry) (u : Update) (id : IndexId) : Registry :=
  g.modify id fun ix => (ix.maintain u.key u.value).2

/-- Indexes brought up to date with an update, one after another. -/
def told (g : Registry) (u : Update) (ids : List IndexId) : Registry := ids.foldl (·.tell u ·) g

theorem WF.tell {g : Registry} (h : g.WF) (u : Update) (id : IndexId) : (g.tell u id).WF :=
  h.modify fun _ hix =>
    let ⟨hwf, _, hchanged⟩ := Index.maintain_spec hix u.key u.value
    ⟨hwf, hchanged.state⟩

theorem WF.told {g : Registry} (h : g.WF) (u : Update) (ids : List IndexId) : (g.told u ids).WF := by
  induction ids generalizing g with
  | nil => exact h
  | cons id rest ih => exact ih (h.tell u id)

theorem told_sameLists (g : Registry) (u : Update) (ids : List IndexId) : SameLists g (g.told u ids) := by
  induction ids generalizing g with
  | nil => exact .refl g
  | cons id rest ih => exact (modify_sameLists g id _).trans (ih (g.tell u id))

/-- Each of the indexes is brought up to date once. -/
theorem index?_told {g : Registry} {u : Update} {ids : List IndexId} (h : ids.Nodup) (j : IndexId) :
    (g.told u ids).index? j =
      if j ∈ ids then (g.index? j).map fun ix => (ix.maintain u.key u.value).2 else g.index? j := by
  induction ids generalizing g with
  | nil => simp [told]
  | cons id rest ih =>
    obtain ⟨hid, hrest⟩ := List.nodup_cons.1 h
    have hstep : (g.told u (id :: rest)).index? j = ((g.tell u id).told u rest).index? j := rfl
    rw [hstep, ih hrest, tell, index?_modify]
    by_cases hj : id = j
    · subst hj; simp [hid]
    · simp [hj, Ne.symm hj]

/-- A target told of an update accounts for its value and keeps what it has of other keys. -/
theorem accounts_told {g : Registry} (h : g.WF) {u : Update} {j : IndexId} (hj : j ∈ g.targets) {ix' : Index}
    (hix' : (g.told u g.targets).index? j = some ix') :
    ∃ ix, g.index? j = some ix ∧ ix.ChangedAt u.key ix' ∧ ix'.Accounts u.key u.value := by
  rw [index?_told h.targets, if_pos hj] at hix'
  obtain ⟨ix, hix, rfl⟩ := Option.map_eq_some_iff.1 hix'
  have hwf := (h.index hj hix).1
  exact ⟨ix, hix, (Index.maintain_spec hwf u.key u.value).2.2, Index.maintain_accounts hwf u.key u.value⟩

/-- A target told of an update serves its value and keeps what it has of other keys. -/
theorem serves_told {g : Registry} (h : g.WF) {u : Update} {j : IndexId} (hj : j ∈ g.targets) {ix' : Index}
    (hix' : (g.told u g.targets).index? j = some ix') :
    ∃ ix, g.index? j = some ix ∧ ix.ChangedAt u.key ix' ∧ ix'.Serves u.key u.value := by
  rw [index?_told h.targets, if_pos hj] at hix'
  obtain ⟨ix, hix, rfl⟩ := Option.map_eq_some_iff.1 hix'
  obtain ⟨-, hserves, hchanged⟩ := Index.maintain_spec (h.index hj hix).1 u.key u.value
  exact ⟨ix, hix, hchanged, hserves⟩

/-- What a mutation does to the registry: in a synchronous region the targets are told, in an asynchronous
one the update is queued, if there is a target. -/
def received (g : Registry) (maintenance : Maintenance) (u : Update) : Registry :=
  match maintenance with
  | .synchronous => g.told u g.targets
  | .asynchronous => if g.targets = [] then g else g.enqueue u

theorem WF.withQueue {g : Registry} (h : g.WF) (queue : List Update) : WF { g with queue := queue } :=
  ⟨h.targets, h.published, h.live, h.visible⟩

theorem WF.enqueue {g : Registry} (h : g.WF) (u : Update) : (g.enqueue u).WF := by
  unfold Registry.enqueue
  split
  · exact h.withQueue _
  · exact h

theorem WF.received {g : Registry} (h : g.WF) (maintenance : Maintenance) (u : Update) :
    (g.received maintenance u).WF := by
  unfold Registry.received
  cases maintenance
  · exact h.told u g.targets
  · simp only
    split
    · exact h
    · exact h.enqueue u

/-- A target after a mutation is the one that it was before, up to its contents. -/
theorem received_target {g : Registry} (h : g.WF) {maintenance : Maintenance} {u : Update} {id : IndexId}
    (hid : id ∈ (g.received maintenance u).targets) {ix' : Index}
    (hix' : (g.received maintenance u).index? id = some ix') :
    id ∈ g.targets ∧ ∃ ix, g.index? id = some ix ∧ ix'.compiled = ix.compiled := by
  have unchanged : ∀ {g' : Registry}, g'.targets = g.targets → g'.all = g.all → id ∈ g'.targets →
      g'.index? id = some ix' → id ∈ g.targets ∧ ∃ ix, g.index? id = some ix ∧ ix'.compiled = ix.compiled :=
    fun ht ha hid hix => ⟨ht ▸ hid, ix', by rwa [index?, ← ha], rfl⟩
  unfold Registry.received at hid hix'
  cases maintenance with
  | synchronous =>
    rw [(told_sameLists _ _ _).targets] at hid
    obtain ⟨ix, hix, hchanged, -⟩ := serves_told h hid hix'
    exact ⟨hid, ix, hix, hchanged.compiled⟩
  | asynchronous =>
    simp only at hid hix'
    split at hid
    · rename_i hnone
      rw [if_pos hnone] at hix'
      exact unchanged rfl rfl hid hix'
    · rename_i hsome
      rw [if_neg hsome] at hix'
      unfold Registry.enqueue at hid hix'
      split at hid
      · rename_i hrun
        rw [if_pos hrun] at hix'
        exact unchanged rfl rfl hid hix'
      · rename_i hstop
        rw [if_neg hstop] at hix'
        exact unchanged rfl rfl hid hix'

/-! ## Lists -/

/-- A registry with one index more, which is published. -/
structure Extended (g : Registry) (id : IndexId) (ix : Index) (g' : Registry) : Prop where
  place : id = g.all.length
  size : g'.all.length = g.all.length + 1
  index : g'.index? id = some ix
  others : ∀ j, j ≠ id → g'.index? j = g.index? j
  wf : ix.WF
  ready : ix.state = .ready
  targets : g'.targets = g.targets ++ [id]
  published : g'.published = g.published ++ [id]
  queue : g'.queue = g.queue
  worker : g'.workerRunning = g.workerRunning

theorem index?_lt {g : Registry} {id : IndexId} {ix : Index} (h : g.index? id = some ix) :
    id < g.all.length :=
  (List.getElem?_eq_some_iff.1 h).1

theorem nodup_concat {ids : List IndexId} {id : IndexId} (h : ids.Nodup) (hid : id ∉ ids) :
    (ids ++ [id]).Nodup := by
  refine List.nodup_append.2 ⟨h, by simp, ?_⟩
  intro a ha b hb he
  rw [List.mem_singleton.1 hb] at he
  exact hid (he ▸ ha)

theorem WF.extended {g g' : Registry} (h : g.WF) {id : IndexId} {ix : Index} (he : g.Extended id ix g') :
    g'.WF := by
  -- the new place is past all places there are
  have hnew : id ∉ g.targets := by
    intro hid
    obtain ⟨ix', hix', -⟩ := h.live id hid
    have := index?_lt hix'
    rw [he.place] at this
    exact Nat.lt_irrefl _ this
  refine ⟨?_, ?_, ?_, ?_⟩
  · rw [he.targets]; exact nodup_concat h.targets hnew
  · rw [he.published]; exact nodup_concat h.published fun hid => hnew (h.visible id hid)
  · intro j hj
    rw [he.targets, List.mem_append, List.mem_singleton] at hj
    by_cases hji : j = id
    · subst hji
      exact ⟨ix, he.index, he.wf, by rw [he.ready]; decide⟩
    · rw [he.others j hji]
      exact h.live j (hj.resolve_right hji)
  · intro j hj
    rw [he.published, List.mem_append] at hj
    rw [he.targets, List.mem_append]
    exact hj.imp_left (h.visible j)

/-- A target is the new index, or was one before. -/
theorem Extended.target {g g' : Registry} {id : IndexId} {ix : Index} (h : g.Extended id ix g') {j : IndexId}
    {ix' : Index} (hj : j ∈ g'.targets) (hix : g'.index? j = some ix') :
    (j = id ∧ ix' = ix) ∨ (j ∈ g.targets ∧ g.index? j = some ix') := by
  by_cases hji : j = id
  · subst hji
    exact .inl ⟨rfl, Option.some.inj (hix.symm.trans h.index)⟩
  · rw [h.targets, List.mem_append, List.mem_singleton] at hj
    exact .inr ⟨hj.resolve_right hji, h.others j hji ▸ hix⟩

/-- A registry without one of its published indexes, whose contents are dropped. -/
structure Reduced (g : Registry) (id : IndexId) (g' : Registry) : Prop where
  visible : id ∈ g.published
  size : g'.all.length = g.all.length
  others : ∀ j, j ≠ id → g'.index? j = g.index? j
  targets : g'.targets = g.targets.erase id
  published : g'.published = g.published.erase id
  queue : g'.queue = g.queue
  worker : g'.workerRunning = g.workerRunning

theorem WF.reduced {g g' : Registry} (h : g.WF) {id : IndexId} (hr : g.Reduced id g') : g'.WF := by
  have hmem : ∀ {ids : List IndexId} {j : IndexId}, ids.Nodup → (j ∈ ids.erase id ↔ j ≠ id ∧ j ∈ ids) :=
    fun hn => hn.mem_erase_iff
  refine ⟨?_, ?_, ?_, ?_⟩
  · rw [hr.targets]; exact h.targets.erase id
  · rw [hr.published]; exact h.published.erase id
  · intro j hj
    rw [hr.targets, hmem h.targets] at hj
    rw [hr.others j hj.1]
    exact h.live j hj.2
  · intro j hj
    rw [hr.published, hmem h.published] at hj
    rw [hr.targets, hmem h.targets]
    exact ⟨hj.1, h.visible j hj.2⟩

/-- A target was one before. -/
theorem Reduced.target {g g' : Registry} (hg : g.WF) {id : IndexId} (h : g.Reduced id g') {j : IndexId}
    {ix : Index} (hj : j ∈ g'.targets) (hix : g'.index? j = some ix) :
    j ∈ g.targets ∧ g.index? j = some ix := by
  rw [h.targets, hg.targets.mem_erase_iff] at hj
  exact ⟨hj.2, h.others j hj.1 ▸ hix⟩

/-! ## An index on its way -/

/-- The place of a new index is past all places there are. -/
theorem WF.fresh {g : Registry} (h : g.WF) : g.all.length ∉ g.targets := by
  intro hid
  obtain ⟨ix, hix, -⟩ := h.live _ hid
  exact Nat.lt_irrefl _ (index?_lt hix)

theorem index?_enter (g : Registry) (ix : Index) (j : IndexId) :
    (g.enter ix).2.index? j = if j = g.all.length then some ix else g.index? j := by
  simp only [enter, index?]
  rcases Nat.lt_trichotomy j g.all.length with hj | rfl | hj
  · rw [List.getElem?_append_left hj, if_neg (Nat.ne_of_lt hj)]
  · simp
  · rw [if_neg (Nat.ne_of_gt hj), List.getElem?_eq_none (by simp; omega), List.getElem?_eq_none (by omega)]

theorem WF.enter {g : Registry} (h : g.WF) {ix : Index} (hix : ix.WF) (hs : ix.state ≠ .removed) :
    (g.enter ix).2.WF where
  targets := nodup_concat h.targets h.fresh
  published := h.published
  live j hj := by
    rw [index?_enter]
    split
    · exact ⟨ix, rfl, hix, hs⟩
    · rename_i hne
      exact h.live j ((List.mem_append.1 hj).resolve_right fun he => hne (List.mem_singleton.1 he))
  visible j hj := List.mem_append_left _ (h.visible j hj)

theorem index?_publish (g : Registry) (id j : IndexId) (report : BuildReport) :
    (g.publish id report).index? j =
      if id = j then (g.index? j).map fun ix => { ix with build := report, state := .ready }
      else g.index? j :=
  index?_modify g id j _

theorem WF.publish {g : Registry} (h : g.WF) {id : IndexId} (hid : id ∈ g.targets) (hnew : id ∉ g.published)
    (report : BuildReport) : (g.publish id report).WF where
  targets := h.targets
  published := nodup_concat h.published hnew
  live j hj := by
    obtain ⟨ix, hix, hwf, hs⟩ := h.live j hj
    rw [index?_publish, hix]
    split
    · exact ⟨_, rfl, hwf.readied report, by simp⟩
    · exact ⟨ix, rfl, hwf, hs⟩
  visible j hj := by
    rcases List.mem_append.1 hj with hj | hj
    · exact h.visible j hj
    · rw [List.mem_singleton.1 hj]
      exact hid

end Registry

/-! ## Filling an index -/

namespace Index

/-- The index after a scan of keys, where `value` gives the values of the region. -/
def filled (ix : Index) (value : Key → Option Value) (keys : List Key) : Index :=
  keys.foldl (fun ix key => match value key with
    | none => ix
    | some v => (ix.maintain key (some v)).2) ix

/-- **A scan of an empty index makes it serve the scanned keys.** -/
theorem filled_spec {ix : Index} (h : ix.WF) (value : Key → Option Value) (keys done : List Key)
    (hs : ∀ k, ix.Serves k (if k ∈ done then value k else none)) :
    (ix.filled value keys).WF ∧ (ix.filled value keys).compiled = ix.compiled ∧
      (ix.filled value keys).state = ix.state ∧
      ∀ k, (ix.filled value keys).Serves k (if k ∈ done ++ keys then value k else none) := by
  induction keys generalizing ix done with
  | nil => exact ⟨h, rfl, rfl, by simpa [filled] using hs⟩
  | cons key rest ih =>
    have hlist : done ++ key :: rest = (done ++ [key]) ++ rest := by simp
    rw [hlist]
    unfold filled
    rw [List.foldl_cons]
    cases hv : value key with
    | none =>
      apply ih h (done ++ [key])
      intro k
      by_cases hk : k = key
      · subst hk
        have := hs k
        simp only [hv, ite_self] at this ⊢
        exact this
      · simpa [hk] using hs k
    | some v =>
      obtain ⟨hwf, hserves, hchanged⟩ := maintain_spec h key (some v)
      obtain ⟨hwf', hc, hst, hall⟩ := ih hwf (done ++ [key]) fun k => by
        by_cases hk : k = key
        · subst hk
          rw [if_pos (by simp), hv]
          exact hserves
        · have := (hchanged.serves hk).2 (hs k)
          simpa [hk] using this
      exact ⟨hwf', hc.trans hchanged.compiled, hst.trans hchanged.state, hall⟩

end Index

end IndexedStore
