import IndexedStore.Proofs.Region.Runs

/-!
# The record of a region

A `Chronicle` is a region with all that it has been before. Each index goes through the phases of a life (`Phase`),
and `Lives` says what is known of it in each: which lists it stands in, and what the record says of its past.
`IndexManager::clear` discards the indexes that are being filled together with the published ones, but it does not end
their creations. Such an index is `Swept`; `IndexManager::create_index` publishes it nevertheless, as no target.
`Held` is the invariant of all indexes of a region, and the theorems on it say what each step does to their phases.
-/

namespace IndexedStore

namespace Registry

/-- The state of the index at a place. -/
def stateOf? (g : Registry) (id : IndexId) : Option IndexState := (g.index? id).map (·.state)

/-- The definition of the index at a place. -/
def compiledOf? (g : Registry) (id : IndexId) : Option CompiledDefinition := (g.index? id).map (·.compiled)

/-- Two places whose indexes have neither the name nor the signature in common. -/
def Apart (g : Registry) (i j : IndexId) : Prop :=
  ∀ c d, g.compiledOf? i = some c → g.compiledOf? j = some d → c.name ≠ d.name ∧ c.signature ≠ d.signature

theorem Apart.symm {g : Registry} {i j : IndexId} (h : g.Apart i j) : g.Apart j i := fun c d hc hd =>
  ⟨(h d c hd hc).1.symm, (h d c hd hc).2.symm⟩

variable {g g' : Registry} {id j : IndexId} {f : Index → Index}

/-- What can be seen of the indexes after a change of one of them. -/
theorem map_index?_modify {α : Type} (view : Index → α) (change : α → α)
    (hf : ∀ ix, view (f ix) = change (view ix)) : ((g.modify id f).index? j).map view =
      if id = j then ((g.index? j).map view).map change else (g.index? j).map view := by
  rw [index?_modify]
  split
  · cases g.index? j with
    | none => rfl
    | some ix => exact congrArg some (hf ix)
  · rfl

/-- What a change of an index leaves as it was can be seen as before. -/
theorem map_index?_modify_same {α : Type} (view : Index → α) (hf : ∀ ix, view (f ix) = view ix) :
    ((g.modify id f).index? j).map view = (g.index? j).map view := by
  rw [map_index?_modify view (fun a => a) hf]
  split
  · exact Option.map_id'
  · rfl

theorem stateOf?_modify {s : IndexState} (hf : ∀ ix, (f ix).state = s) :
    (g.modify id f).stateOf? j = if id = j then (g.stateOf? j).map fun _ => s else g.stateOf? j :=
  map_index?_modify (·.state) (fun _ => s) hf

theorem compiledOf?_modify (hf : ∀ ix, (f ix).compiled = ix.compiled) :
    (g.modify id f).compiledOf? j = g.compiledOf? j :=
  map_index?_modify_same (·.compiled) hf

theorem stateOf?_lt {s : IndexState} (h : g.stateOf? id = some s) : id < g.all.length := by
  obtain ⟨ix, hix, -⟩ := Option.map_eq_some_iff.1 h
  exact index?_lt hix

/-- Two registries that differ, if at all, in other indexes than this, or in its contents. -/
structure SameAt (g g' : Registry) (id : IndexId) : Prop where
  published : id ∈ g'.published ↔ id ∈ g.published
  building : id ∈ g'.building ↔ id ∈ g.building
  targets : id ∈ g'.targets ↔ id ∈ g.targets
  state : g'.stateOf? id = g.stateOf? id
  size : g'.all.length ≤ id ↔ g.all.length ≤ id

/-- A registry in which every index is what it was, up to its contents. -/
structure Standing (g g' : Registry) : Prop where
  size : g'.all.length = g.all.length
  published : g'.published = g.published
  building : g'.building = g.building
  targets : g'.targets = g.targets
  state : ∀ id, g'.stateOf? id = g.stateOf? id
  compiled : ∀ id, g'.compiledOf? id = g.compiledOf? id

theorem Standing.refl (g : Registry) : Standing g g := ⟨rfl, rfl, rfl, rfl, fun _ => rfl, fun _ => rfl⟩

theorem Standing.trans {a b c : Registry} (h : Standing a b) (h' : Standing b c) : Standing a c :=
  ⟨h'.size.trans h.size, h'.published.trans h.published, h'.building.trans h.building,
    h'.targets.trans h.targets, fun id => (h'.state id).trans (h.state id),
    fun id => (h'.compiled id).trans (h.compiled id)⟩

theorem standing_modify (g : Registry) (id : IndexId)
    (hf : ∀ ix, (f ix).compiled = ix.compiled ∧ (f ix).state = ix.state) : Standing g (g.modify id f) :=
  ⟨List.length_modify _ _ _, rfl, rfl, rfl, fun _ => map_index?_modify_same (·.state) fun ix => (hf ix).2,
    fun _ => compiledOf?_modify fun ix => (hf ix).1⟩

theorem size_publish (report : BuildReport) : (g.publish id report).all.length = g.all.length :=
  List.length_modify _ _ _

theorem stateOf?_publish (report : BuildReport) : (g.publish id report).stateOf? j =
    if id = j then (g.stateOf? j).map fun _ => .ready else g.stateOf? j :=
  stateOf?_modify (f := fun ix => { ix with build := report, state := .ready }) fun _ => rfl

theorem compiledOf?_publish (report : BuildReport) : (g.publish id report).compiledOf? j = g.compiledOf? j :=
  compiledOf?_modify (f := fun ix => { ix with build := report, state := .ready }) fun _ => rfl

theorem stateOf?_of_lt (h : id < g.all.length) : ∃ s, g.stateOf? id = some s :=
  ⟨(g.all[id]).state, by simp [stateOf?, index?, h]⟩

theorem stateOf?_discard : (g.modify id Index.discard).stateOf? j =
    if id = j then (g.stateOf? j).map fun _ => .removed else g.stateOf? j :=
  stateOf?_modify fun _ => rfl

theorem size_abandon : (g.abandon id).all.length = g.all.length := List.length_modify _ _ _

theorem stateOf?_abandon : (g.abandon id).stateOf? j =
    if id = j then (g.stateOf? j).map fun _ => .removed else g.stateOf? j :=
  stateOf?_discard

theorem stateOf?_enter (ix : Index) :
    (g.enter ix).2.stateOf? j = if j = g.all.length then some ix.state else g.stateOf? j := by
  simp only [stateOf?, index?_enter]
  split <;> rfl

theorem compiledOf?_enter (ix : Index) :
    (g.enter ix).2.compiledOf? j = if j = g.all.length then some ix.compiled else g.compiledOf? j := by
  simp only [compiledOf?, index?_enter]
  split <;> rfl

/-- An index can be begun if it is apart from all that are known. -/
theorem apart_of_conflict?_eq_none {region : String} {c d : CompiledDefinition}
    (h : g.conflict? region c = none) (hid : id ∈ g.published ++ g.building) (hd : g.compiledOf? id = some d) :
    c.name ≠ d.name ∧ c.signature ≠ d.signature := by
  obtain ⟨ix, hix, rfl⟩ := Option.map_eq_some_iff.1 hd
  have hknown : ix ∈ g.known := List.mem_map.2 ⟨(id, ix), mem_indexesAt.2 ⟨hid, hix⟩, rfl⟩
  unfold conflict? at h
  simp only at h
  split at h
  · cases h
  · rename_i hnames
    split at h
    · cases h
    · rename_i hsignatures
      have hname : ix.name ≠ c.name := fun he =>
        hnames (.inl (List.any_eq_true.2 ⟨ix, hknown, by simpa using he⟩))
      have hsignature : ix.signature ≠ c.signature := by
        simpa using List.find?_eq_none.1 hsignatures ix hknown
      exact ⟨hname.symm, hsignature.symm⟩

theorem discarded_spec (g : Registry) (ids : List IndexId) :
    let g' := ids.foldl (fun g id => g.modify id Index.discard) g
    g'.all.length = g.all.length ∧
      ∀ j, g'.stateOf? j = if j ∈ ids then (g.stateOf? j).map fun _ => .removed else g.stateOf? j := by
  induction ids generalizing g with
  | nil => simp
  | cons id rest ih =>
    obtain ⟨hsize, hstate⟩ := ih (g.modify id Index.discard)
    refine ⟨hsize.trans (List.length_modify _ _ _), fun j => ?_⟩
    rw [List.foldl_cons, hstate, stateOf?_discard]
    by_cases hj : id = j
    · subst hj; simp [Function.comp_def]
    · simp [hj, Ne.symm hj]

theorem Standing.sameAt {g g' : Registry} (h : Standing g g') (j : IndexId) : SameAt g g' j :=
  ⟨by rw [h.published], by rw [h.building], by rw [h.targets], h.state j, by rw [h.size]⟩

section SameAt

variable {g : Registry} {id j : IndexId}

theorem enter_sameAt {ix : Index} (hj : j ≠ g.all.length) : SameAt g (g.enter ix).2 j where
  published := Iff.rfl
  building := by simp [enter, hj]
  targets := by simp [enter, hj]
  state := (stateOf?_enter ix).trans (if_neg hj)
  size := by
    simp only [enter, List.length_append, List.length_singleton]
    exact ⟨Nat.le_of_succ_le, fun hle => Nat.lt_of_le_of_ne hle hj.symm⟩

theorem publish_sameAt (report : BuildReport) (hj : j ≠ id) : SameAt g (g.publish id report) j where
  published := by simp [publish, modify, hj]
  building := List.mem_erase_of_ne hj
  targets := Iff.rfl
  state := (stateOf?_publish report).trans (if_neg hj.symm)
  size := by rw [size_publish]

theorem abandon_sameAt (hj : j ≠ id) : SameAt g (g.abandon id) j where
  published := Iff.rfl
  building := List.mem_erase_of_ne hj
  targets := List.mem_erase_of_ne hj
  state := stateOf?_abandon.trans (if_neg hj.symm)
  size := by rw [size_abandon]

theorem unpublish_sameAt (hj : j ≠ id) : SameAt g (g.unpublish id) j where
  published := List.mem_erase_of_ne hj
  building := Iff.rfl
  targets := List.mem_erase_of_ne hj
  state := rfl
  size := Iff.rfl

theorem discard_sameAt (hj : j ≠ id) : SameAt g (g.modify id Index.discard) j where
  published := Iff.rfl
  building := Iff.rfl
  targets := Iff.rfl
  state := stateOf?_discard.trans (if_neg hj.symm)
  size := by simp [modify]

end SameAt

theorem size_cleared (g : Registry) : g.cleared.all.length = g.all.length :=
  (discarded_spec g (g.published ++ g.building)).1

theorem stateOf?_cleared (g : Registry) (j : IndexId) : g.cleared.stateOf? j =
    if j ∈ g.published ++ g.building then (g.stateOf? j).map fun _ => .removed else g.stateOf? j :=
  (discarded_spec g (g.published ++ g.building)).2 j

end Registry

namespace Region

theorem conflict?_of_beginIndex {r r' : Region} {d : IndexDefinition} {id : IndexId} {c : CompiledDefinition}
    (h : r.beginIndex d = .ok (id, r')) (hc : d.compile = .ok c) : r.registry.conflict? r.path c = none := by
  unfold beginIndex at h
  simp only [hc] at h
  split at h
  · cases h
  · split at h
    · cases h
    · assumption

theorem unpublish_spec {r r' : Region} {name : String} {id : IndexId} (h : r.unpublish name = .ok (id, r')) :
    id ∈ r.registry.published ∧ r' = r.withRegistry (r.registry.unpublish id) := by
  unfold unpublish at h
  cases hn : r.registry.named? name with
  | none => simp [hn] at h
  | some found =>
    obtain ⟨j, ix⟩ := found
    simp only [hn, Except.ok.injEq, Prod.mk.injEq] at h
    obtain ⟨rfl, rfl⟩ := h
    exact ⟨(Registry.mem_publishedIndexes.1 (List.mem_of_find?_eq_some hn)).1, rfl⟩

end Region

/-- A region with all that it has been, the latest first. -/
@[ext] structure Chronicle where
  now : Region
  past : List Region

namespace Chronicle

def moments (c : Chronicle) : List Region := c.now :: c.past

/-- What the region is next. -/
def moved (c : Chronicle) (r : Region) : Chronicle := ⟨r, c.moments⟩

/-- All indexes were cleared away while this one was being filled. -/
def Swept (c : Chronicle) (id : IndexId) : Prop :=
  ∃ before after, [after, before] <:+: c.moments ∧ id ∈ before.registry.building ∧
    after.registry = before.registry.cleared

/-- The index was begun on a region that was closed. -/
def Posthumous (c : Chronicle) (id : IndexId) : Prop :=
  ∃ r ∈ c.moments, r.destroyed = true ∧ r.registry.all.length ≤ id

variable {c : Chronicle} {r : Region} {id : IndexId}

theorem swept_moved : (c.moved r).Swept id ↔
    c.Swept id ∨ (id ∈ c.now.registry.building ∧ r.registry = c.now.registry.cleared) := by
  simp only [Swept]
  constructor
  · rintro ⟨before, after, hinfix, hid, he⟩
    rcases List.infix_cons_iff.1 hinfix with hprefix | hinfix
    · -- the last two moments
      obtain ⟨rfl, hrest⟩ := List.cons_prefix_cons.1 hprefix
      obtain ⟨rfl, -⟩ := List.cons_prefix_cons.1 hrest
      exact .inr ⟨hid, he⟩
    · exact .inl ⟨before, after, hinfix, hid, he⟩
  · rintro (⟨before, after, hinfix, hid, he⟩ | ⟨hid, he⟩)
    · exact ⟨before, after, List.infix_cons_iff.2 (.inr hinfix), hid, he⟩
    · refine ⟨c.now, r, List.IsPrefix.isInfix ?_, hid, he⟩
      exact List.cons_prefix_cons.2 ⟨rfl, List.cons_prefix_cons.2 ⟨rfl, List.nil_prefix⟩⟩

/-- An index that is still listed has not been swept just now. -/
theorem swept_moved_of_listed
    (h : id ∈ c.now.registry.building → id ∈ r.registry.published ∨ id ∈ r.registry.building) :
    (c.moved r).Swept id ↔ c.Swept id := by
  rw [swept_moved, or_iff_left]
  rintro ⟨hid, he⟩
  have hlisted := h hid
  rw [he] at hlisted
  rcases hlisted with hlisted | hlisted <;> cases hlisted

/-! ## The life of one index -/

/-- How far an index is. -/
inductive Phase where
  | unborn
  /-- Its creation is in progress. -/
  | filling
  | shown
  /-- Its removal is in progress. -/
  | leaving
  | gone

/-- What is known of an index in a phase of its life, and what the record says about it. -/
structure Lives (c : Chronicle) (p : Phase) (id : IndexId) : Prop where
  published : id ∈ c.now.registry.published ↔ p = .shown
  building : id ∈ c.now.registry.building ↔ p = .filling ∧ ¬ c.Swept id
  targets : id ∈ c.now.registry.targets ↔ (p = .filling ∨ p = .shown) ∧ ¬ c.Swept id
  unborn : p = .unborn ↔ c.now.registry.all.length ≤ id
  ready : p = .shown → c.now.registry.stateOf? id = some .ready
  unready : p = .filling → ¬ c.Swept id → c.now.registry.stateOf? id = some .building
  early : p = .unborn → ¬ c.Swept id ∧ ∀ r ∈ c.moments, r.registry.all.length ≤ id
  removed : ∀ r ∈ c.moments, r.registry.stateOf? id = some .removed → ¬ c.Swept id →
    c.now.registry.stateOf? id = some .removed
  closed : ∀ r ∈ c.moments, r.destroyed = true → ¬ c.Swept id → ¬ c.Posthumous id →
    p ≠ .filling ∧ p ≠ .shown ∧
      (c.now.registry.stateOf? id = some .ready → r.registry.stateOf? id = some .ready)

/-- What a step may do to an index without upsetting the record. -/
structure Onward (c : Chronicle) (r : Region) (id : IndexId) (p p' : Phase) : Prop where
  removed : ¬ (c.moved r).Swept id → c.now.registry.stateOf? id = some .removed →
    r.registry.stateOf? id = some .removed
  ready : r.registry.stateOf? id = some .ready → c.now.registry.stateOf? id = some .ready ∨ p = .filling
  phase : p' = .filling ∨ p' = .shown → p = .unborn ∨ p = .filling ∨ p = .shown
  closing : r.destroyed = true → c.now.destroyed = true ∨
    (¬ (c.moved r).Swept id → p' ≠ .filling ∧ p' ≠ .shown)

variable {p p' : Phase}

theorem Lives.place (h : c.Lives p id) (hp : p ≠ .unborn) : id < c.now.registry.all.length :=
  not_le.1 fun hle => hp (h.unborn.2 hle)

theorem Lives.removed_moved (h : c.Lives p id) (hs : c.Onward r id p p') : ∀ r' ∈ (c.moved r).moments,
    r'.registry.stateOf? id = some .removed → ¬ (c.moved r).Swept id →
      (c.moved r).now.registry.stateOf? id = some .removed := by
  intro r' hr' hstate hid
  rcases List.mem_cons.1 hr' with rfl | hr'
  · exact hstate
  · exact hs.removed hid (h.removed r' hr' hstate fun hswept => hid (swept_moved.2 (.inl hswept)))

theorem Lives.closed_moved (h : c.Lives p id) (hs : c.Onward r id p p') : ∀ r' ∈ (c.moved r).moments,
    r'.destroyed = true → ¬ (c.moved r).Swept id → ¬ (c.moved r).Posthumous id → p' ≠ .filling ∧ p' ≠ .shown ∧
      ((c.moved r).now.registry.stateOf? id = some .ready → r'.registry.stateOf? id = some .ready) := by
  intro r' hr' hclosed hid hpost
  have hid' : ¬ c.Swept id := fun hswept => hid (swept_moved.2 (.inl hswept))
  have hpost' : ¬ c.Posthumous id := fun ⟨q, hq, hq'⟩ => hpost ⟨q, List.mem_cons_of_mem _ hq, hq'⟩
  -- an index that was there when the region was closed has no way back
  have before : ∀ q ∈ c.moments, q.destroyed = true → p' ≠ .filling ∧ p' ≠ .shown ∧
      (r.registry.stateOf? id = some .ready → q.registry.stateOf? id = some .ready) := by
    intro q hq hdestroyed
    obtain ⟨hfilling, hshown, hready⟩ := h.closed q hq hdestroyed hid' hpost'
    have hphase : ¬ (p' = .filling ∨ p' = .shown) := fun hp => by
      rcases hs.phase hp with hunborn | hp | hp
      · exact hpost' ⟨q, hq, hdestroyed, (h.early hunborn).2 q hq⟩
      · exact hfilling hp
      · exact hshown hp
    exact ⟨fun hp => hphase (.inl hp), fun hp => hphase (.inr hp), fun hstate =>
      (hs.ready hstate).elim hready fun hp => absurd hp hfilling⟩
  rcases List.mem_cons.1 hr' with rfl | hr'
  · rcases hs.closing hclosed with hdestroyed | hnone
    · obtain ⟨hfilling, hshown, -⟩ := before c.now (List.mem_cons_self ..) hdestroyed
      exact ⟨hfilling, hshown, fun hstate => hstate⟩
    · exact ⟨(hnone hid).1, (hnone hid).2, fun hstate => hstate⟩
  · exact before r' hr' hclosed

/-- An index that a step does not concern lives on as before. -/
theorem Lives.stands (h : c.Lives p id) (hs : c.now.registry.SameAt r.registry id)
    (hd : r.destroyed = c.now.destroyed) : (c.moved r).Lives p id := by
  have hswept : (c.moved r).Swept id ↔ c.Swept id := swept_moved_of_listed fun hid => .inr (hs.building.2 hid)
  have honward : c.Onward r id p p :=
    ⟨fun _ hstate => hs.state.trans hstate, fun hstate => .inl (hs.state.symm.trans hstate), .inr,
      fun hclosed => .inl (hd ▸ hclosed)⟩
  exact {
    published := hs.published.trans h.published
    building := by rw [hswept]; exact hs.building.trans h.building
    targets := by rw [hswept]; exact hs.targets.trans h.targets
    unborn := h.unborn.trans hs.size.symm
    ready := fun hp => hs.state.trans (h.ready hp)
    unready := fun hp hid => hs.state.trans (h.unready hp (hswept.not.1 hid))
    early := fun hp => ⟨hswept.not.2 (h.early hp).1, fun r' hr' => by
      rcases List.mem_cons.1 hr' with rfl | hr'
      · exact hs.size.2 (h.unborn.1 hp)
      · exact (h.early hp).2 r' hr'⟩
    removed := h.removed_moved honward
    closed := h.closed_moved honward }

theorem Lives.begun (h : c.Lives .unborn id) {ix : Index} (hid : id = c.now.registry.all.length)
    (hix : ix.state = .building) (hr : r.registry = (c.now.registry.enter ix).2)
    (hd : r.destroyed = c.now.destroyed) : (c.moved r).Lives .filling id := by
  have hstate : r.registry.stateOf? id = some .building := by
    rw [hr, Registry.stateOf?_enter, if_pos hid, hix]
  have hunlisted : id ∉ c.now.registry.building := fun hb => by simpa using h.building.1 hb
  have hswept : ¬ (c.moved r).Swept id := by
    rw [swept_moved_of_listed fun hb => absurd hb hunlisted]
    exact (h.early rfl).1
  have honward : c.Onward r id .unborn .filling :=
    ⟨fun _ hremoved => absurd (Registry.stateOf?_lt hremoved) (hid ▸ Nat.lt_irrefl _),
      fun hready => by simp [hstate] at hready, fun _ => .inl rfl, fun hclosed => .inl (hd ▸ hclosed)⟩
  exact {
    published := iff_of_false (by
      rw [moved, hr]
      exact fun hp => by simpa using h.published.1 hp) (by simp)
    building := iff_of_true (by simp [moved, hr, Registry.enter, hid]) ⟨rfl, hswept⟩
    targets := iff_of_true (by simp [moved, hr, Registry.enter, hid]) ⟨.inl rfl, hswept⟩
    unborn := iff_of_false (by simp) (by simp [moved, hr, Registry.enter, hid])
    ready := by simp
    unready := fun _ _ => hstate
    early := by simp
    removed := h.removed_moved honward
    closed := h.closed_moved honward }

theorem Lives.publishes (h : c.Lives .filling id) (hbuilt : c.now.registry.building.Nodup)
    {report : BuildReport} (hr : r.registry = c.now.registry.publish id report)
    (hd : r.destroyed = c.now.destroyed) : (c.moved r).Lives .shown id := by
  have hlt := h.place (by simp)
  have hstate : r.registry.stateOf? id = some .ready := by
    obtain ⟨s, hs⟩ := Registry.stateOf?_of_lt hlt
    rw [hr, Registry.stateOf?_publish, if_pos rfl, hs]
    rfl
  have hpublished : id ∈ r.registry.published := by simp [hr, Registry.publish, Registry.modify]
  have hswept : (c.moved r).Swept id ↔ c.Swept id := swept_moved_of_listed fun _ => .inl hpublished
  -- it is building if it was not swept, and so was never removed
  have hremoved : ¬ (c.moved r).Swept id → c.now.registry.stateOf? id ≠ some .removed := fun hid => by
    simp [h.unready rfl (hswept.not.1 hid)]
  have honward : c.Onward r id .filling .shown :=
    ⟨fun hid hstate => absurd hstate (hremoved hid), fun _ => .inr rfl, fun _ => .inr (.inl rfl),
      fun hclosed => .inl (hd ▸ hclosed)⟩
  exact {
    published := iff_of_true hpublished rfl
    building := iff_of_false (fun hb => by
      rw [moved, hr] at hb
      exact (hbuilt.mem_erase_iff.1 hb).1 rfl) (by simp)
    targets := by
      have htargets : (c.moved r).now.registry.targets = c.now.registry.targets := by rw [moved, hr]; rfl
      rw [hswept, htargets, h.targets]
      simp
    unborn := iff_of_false (by simp) (by simpa [moved, hr, Registry.size_publish] using hlt)
    ready := fun _ => hstate
    unready := by simp
    early := by simp
    removed := h.removed_moved honward
    closed := h.closed_moved honward }

/-- An index in a phase without a place in the lists. -/
theorem Lives.ends (h : c.Lives p id) (hp : p' = .leaving ∨ p' = .gone) (hplace : id < r.registry.all.length)
    (hpublished : id ∉ r.registry.published) (hbuilding : id ∉ r.registry.building)
    (htargets : id ∉ r.registry.targets) (honward : c.Onward r id p p') : (c.moved r).Lives p' id where
  published := iff_of_false hpublished (by rcases hp with rfl | rfl <;> simp)
  building := iff_of_false hbuilding (by rcases hp with rfl | rfl <;> simp)
  targets := iff_of_false htargets (by rcases hp with rfl | rfl <;> simp)
  unborn := iff_of_false (by rcases hp with rfl | rfl <;> simp) (not_le.2 hplace)
  ready := by rcases hp with rfl | rfl <;> simp
  unready := by rcases hp with rfl | rfl <;> simp
  early := by rcases hp with rfl | rfl <;> simp
  removed := h.removed_moved honward
  closed := h.closed_moved honward

theorem Lives.abandoned (h : c.Lives .filling id) (hbuilt : c.now.registry.building.Nodup)
    (haimed : c.now.registry.targets.Nodup) (hr : r.registry = c.now.registry.abandon id)
    (hd : r.destroyed = c.now.destroyed) : (c.moved r).Lives .gone id := by
  have hremoved : r.registry.stateOf? id = some .removed := by
    obtain ⟨s, hs⟩ := Registry.stateOf?_of_lt (h.place (by simp))
    rw [hr, Registry.stateOf?_abandon, if_pos rfl, hs]
    rfl
  refine h.ends (.inr rfl) ?_ ?_ ?_ ?_ ⟨fun _ _ => hremoved, fun hready => by simp [hremoved] at hready,
    by simp, fun hclosed => .inl (hd ▸ hclosed)⟩
  · simpa [hr, Registry.size_abandon] using h.place (by simp)
  · rw [hr]; exact fun hid => by simpa using h.published.1 hid
  · rw [hr]; exact fun hid => (hbuilt.mem_erase_iff.1 hid).1 rfl
  · rw [hr]; exact fun hid => (haimed.mem_erase_iff.1 hid).1 rfl

theorem Lives.unpublished (h : c.Lives .shown id) (honce : c.now.registry.published.Nodup)
    (haimed : c.now.registry.targets.Nodup) (hr : r.registry = c.now.registry.unpublish id)
    (hd : r.destroyed = c.now.destroyed) : (c.moved r).Lives .leaving id := by
  have hstate : r.registry.stateOf? id = c.now.registry.stateOf? id := by rw [hr]; rfl
  refine h.ends (.inl rfl) ?_ ?_ ?_ ?_ ⟨fun _ => hstate.trans, fun hready => .inl (hstate.symm.trans hready),
    by simp, fun hclosed => .inl (hd ▸ hclosed)⟩
  · rw [hr]; exact h.place (by simp)
  · rw [hr]; exact fun hid => (honce.mem_erase_iff.1 hid).1 rfl
  · rw [hr]; exact fun hid => by simpa using h.building.1 hid
  · rw [hr]; exact fun hid => (haimed.mem_erase_iff.1 hid).1 rfl

theorem Lives.discarded (h : c.Lives .leaving id) (hr : r.registry = c.now.registry.modify id Index.discard)
    (hd : r.destroyed = c.now.destroyed) : (c.moved r).Lives .gone id := by
  have hremoved : r.registry.stateOf? id = some .removed := by
    obtain ⟨s, hs⟩ := Registry.stateOf?_of_lt (h.place (by simp))
    rw [hr, Registry.stateOf?_discard, if_pos rfl, hs]
    rfl
  refine h.ends (.inr rfl) ?_ ?_ ?_ ?_ ⟨fun _ _ => hremoved, fun hready => by simp [hremoved] at hready,
    by simp, fun hclosed => .inl (hd ▸ hclosed)⟩
  · rw [hr]; simpa [Registry.modify] using h.place (by simp)
  · rw [hr]; exact fun hid => by simpa using h.published.1 hid
  · rw [hr]; exact fun hid => by simpa using h.building.1 hid
  · rw [hr]; exact fun hid => by simpa using h.targets.1 hid

/-- The phase after a clear: a creation in progress goes on. -/
def Phase.cleared : Phase → Phase
  | .shown => .gone
  | p => p

theorem Lives.cleared (h : c.Lives p id) (hr : r.registry = c.now.registry.cleared) :
    (c.moved r).Lives p.cleared id := by
  have hswept : (c.moved r).Swept id ↔ c.Swept id ∨ id ∈ c.now.registry.building := by
    rw [swept_moved, and_iff_left hr]
  have hfilling : p.cleared = .filling ↔ p = .filling := by cases p <;> simp [Phase.cleared]
  have hshown : p.cleared ≠ .shown := by cases p <;> simp [Phase.cleared]
  have hunborn : p.cleared = .unborn ↔ p = .unborn := by cases p <;> simp [Phase.cleared]
  have hsize : r.registry.all.length = c.now.registry.all.length := by rw [hr, Registry.size_cleared]
  -- what was being filled is swept by now
  have hnone : ¬ (c.moved r).Swept id → p.cleared ≠ .filling := fun hid hp => by
    rw [hswept, not_or] at hid
    exact hid.2 (h.building.2 ⟨hfilling.1 hp, hid.1⟩)
  have honward : c.Onward r id p p.cleared := {
    removed := fun _ hstate => by
      rw [hr, Registry.stateOf?_cleared, hstate]
      split <;> rfl
    ready := fun hstate => by
      rw [hr, Registry.stateOf?_cleared] at hstate
      split at hstate
      · obtain ⟨_, -, he⟩ := Option.map_eq_some_iff.1 hstate
        cases he
      · exact .inl hstate
    phase := fun hp => .inr (.inl (hfilling.1 (hp.resolve_right hshown)))
    closing := fun _ => .inr fun hid => ⟨hnone hid, hshown⟩ }
  exact {
    published := iff_of_false (by rw [moved, hr]; exact List.not_mem_nil) hshown
    building := iff_of_false (by rw [moved, hr]; exact List.not_mem_nil) fun hp => hnone hp.2 hp.1
    targets := iff_of_false (by rw [moved, hr]; exact List.not_mem_nil)
      fun hp => hp.1.elim (hnone hp.2) hshown
    unborn := by rw [hunborn, h.unborn, moved, hsize]
    ready := fun hp => absurd hp hshown
    unready := fun hp hid => absurd hp (hnone hid)
    early := fun hp => by
      have hp := hunborn.1 hp
      obtain ⟨hearly, hmoments⟩ := h.early hp
      have hunlisted : id ∉ c.now.registry.building := fun hb => by simpa [hp] using (h.building.1 hb).1
      refine ⟨fun hid => (hswept.1 hid).elim hearly hunlisted, fun r' hr' => ?_⟩
      rcases List.mem_cons.1 hr' with rfl | hr'
      · rw [hsize]; exact h.unborn.1 hp
      · exact hmoments r' hr'
    removed := h.removed_moved honward
    closed := h.closed_moved honward }

/-! ## All indexes -/

/-- The indexes of a region, with the phases that they are in. -/
structure Held (phase : IndexId → Phase) (c : Chronicle) : Prop where
  lives : ∀ id, c.Lives (phase id) id
  published : c.now.registry.published.Nodup
  building : c.now.registry.building.Nodup
  targets : c.now.registry.targets.Nodup
  apart : ∀ i ∈ c.now.registry.targets, ∀ j ∈ c.now.registry.targets, i ≠ j → c.now.registry.Apart i j

variable {phase : IndexId → Phase}

/-- A step that concerns one index, after which there are no more targets than before. -/
theorem Held.moves (h : c.Held phase) (hlives : (c.moved r).Lives p id)
    (hothers : ∀ j, j ≠ id → c.now.registry.SameAt r.registry j) (hd : r.destroyed = c.now.destroyed)
    (hpublished : r.registry.published.Nodup) (hbuilding : r.registry.building.Nodup)
    (htargets : r.registry.targets.Sublist c.now.registry.targets)
    (hcompiled : ∀ j, r.registry.compiledOf? j = c.now.registry.compiledOf? j) :
    (c.moved r).Held (Function.update phase id p) where
  lives j := by
    by_cases hj : j = id
    · rw [hj, Function.update_self]; exact hlives
    · rw [Function.update_of_ne hj]; exact (h.lives j).stands (hothers j hj) hd
  published := hpublished
  building := hbuilding
  targets := h.targets.sublist htargets
  apart i hi j hj hij := by
    simp only [moved, Registry.Apart, hcompiled]
    exact h.apart i (htargets.subset hi) j (htargets.subset hj) hij

/-- A step that is not about the indexes. -/
theorem Held.aside (h : c.Held phase) (hs : c.now.registry.Standing r.registry)
    (hd : r.destroyed = c.now.destroyed) : (c.moved r).Held phase where
  lives j := (h.lives j).stands (hs.sameAt j) hd
  published := by rw [moved, hs.published]; exact h.published
  building := by rw [moved, hs.building]; exact h.building
  targets := by rw [moved, hs.targets]; exact h.targets
  apart i hi j hj hij := by
    rw [moved, hs.targets] at hi hj
    simp only [moved, Registry.Apart, hs.compiled]
    exact h.apart i hi j hj hij

theorem Held.not_listed (h : c.Held phase) (hid : phase id = .unborn) :
    id ∉ c.now.registry.published ∧ id ∉ c.now.registry.building ∧ id ∉ c.now.registry.targets :=
  ⟨fun hl => by simpa [hid] using (h.lives id).published.1 hl,
    fun hl => by simpa [hid] using (h.lives id).building.1 hl,
    fun hl => by simpa [hid] using (h.lives id).targets.1 hl⟩

/-- An index begun. -/
theorem Held.begun (h : c.Held phase) {d : IndexDefinition} (hb : c.now.beginIndex d = .ok (id, r)) :
    phase id = .unborn ∧ (c.moved r).Held (Function.update phase id .filling) := by
  obtain ⟨compiled, hc, hpath, rfl, rfl⟩ := Region.beginIndex_spec hb
  have hconflict := Region.conflict?_of_beginIndex hb hc
  have hunborn : phase c.now.registry.all.length = .unborn := (h.lives _).unborn.2 le_rfl
  obtain ⟨hpublished, hbuilding, htargets⟩ := h.not_listed hunborn
  have hlives := h.lives c.now.registry.all.length
  rw [hunborn] at hlives
  refine ⟨hunborn, ?_, h.published, Registry.nodup_concat h.building hbuilding,
    Registry.nodup_concat h.targets htargets, ?_⟩
  · intro j
    by_cases hj : j = c.now.registry.all.length
    · rw [hj, Function.update_self]; exact hlives.begun rfl rfl rfl rfl
    · rw [Function.update_of_ne hj]; exact (h.lives j).stands (Registry.enter_sameAt hj) rfl
  · have hold : ∀ {j}, j ∈ c.now.registry.targets → j ≠ c.now.registry.all.length := fun hj he =>
      htargets (he ▸ hj)
    -- a target is apart from the new index, since it is published or building
    have hnew : ∀ j ∈ c.now.registry.targets, (c.now.registry.enter (c.now.newIndex compiled)).2.Apart
        c.now.registry.all.length j := by
      intro j hj a b ha hb
      rw [Registry.compiledOf?_enter, if_pos rfl] at ha
      rw [Registry.compiledOf?_enter, if_neg (hold hj)] at hb
      obtain rfl := Option.some.inj ha
      obtain ⟨hphase, hs⟩ := (h.lives j).targets.1 hj
      exact Registry.apart_of_conflict?_eq_none hconflict (List.mem_append.2 (hphase.symm.imp
        (h.lives j).published.2 fun hf => (h.lives j).building.2 ⟨hf, hs⟩)) hb
    intro i hi j hj hij
    rcases List.mem_append.1 hi with hi | hi <;> rcases List.mem_append.1 hj with hj | hj
    · intro a b ha hb
      rw [moved, Region.registry_withRegistry, Registry.compiledOf?_enter, if_neg (hold hi)] at ha
      rw [moved, Region.registry_withRegistry, Registry.compiledOf?_enter, if_neg (hold hj)] at hb
      exact h.apart i hi j hj hij a b ha hb
    · rw [List.mem_singleton.1 hj]; exact (hnew i hi).symm
    · rw [List.mem_singleton.1 hi]; exact hnew j hj
    · exact absurd ((List.mem_singleton.1 hi).trans (List.mem_singleton.1 hj).symm) hij

/-- A creation brought to its end. -/
theorem Held.ended (h : c.Held phase) (hid : phase id = .filling) (scanned : Except Error BuildReport) :
    ∃ p, (c.moved (c.now.endIndex id scanned).2).Held (Function.update phase id p) := by
  have hlives := h.lives id
  rw [hid] at hlives
  cases scanned with
  | ok report =>
    have hhidden : id ∉ c.now.registry.published := fun hl => by simpa using hlives.published.1 hl
    exact ⟨.shown, h.moves (hlives.publishes h.building rfl rfl)
      (fun j hj => Registry.publish_sameAt report hj) rfl (Registry.nodup_concat h.published hhidden)
      (h.building.erase id) (List.Sublist.refl _) fun j => Registry.compiledOf?_modify fun _ => rfl⟩
  | error e =>
    exact ⟨.gone, h.moves (hlives.abandoned h.building h.targets rfl rfl)
      (fun j hj => Registry.abandon_sameAt hj) rfl h.published (h.building.erase id) List.erase_sublist
      fun j => Registry.compiledOf?_modify fun _ => rfl⟩

/-- A published index taken out of sight. -/
theorem Held.unpublished (h : c.Held phase) {name : String} (hu : c.now.unpublish name = .ok (id, r)) :
    phase id = .shown ∧ (c.moved r).Held (Function.update phase id .leaving) := by
  obtain ⟨hid, rfl⟩ := Region.unpublish_spec hu
  have hshown := (h.lives id).published.1 hid
  have hlives := h.lives id
  rw [hshown] at hlives
  exact ⟨hshown, h.moves (hlives.unpublished h.published h.targets rfl rfl)
    (fun j hj => Registry.unpublish_sameAt hj) rfl (h.published.erase id) h.building List.erase_sublist
    fun _ => rfl⟩

/-- The contents dropped of an index that is out of sight. -/
theorem Held.discarded (h : c.Held phase) (hid : phase id = .leaving) :
    (c.moved (c.now.discardIndex id)).Held (Function.update phase id .gone) := by
  have hlives := h.lives id
  rw [hid] at hlives
  exact h.moves (hlives.discarded rfl rfl) (fun j hj => Registry.discard_sameAt hj) rfl h.published h.building
    (List.Sublist.refl _) fun j => Registry.compiledOf?_modify fun _ => rfl

/-- All indexes cleared away, by a clear or by the end of the region. -/
theorem Held.cleared (h : c.Held phase) (hr : r.registry = c.now.registry.cleared) :
    (c.moved r).Held fun id => (phase id).cleared where
  lives id := (h.lives id).cleared hr
  published := by rw [moved, hr]; exact List.nodup_nil
  building := by rw [moved, hr]; exact List.nodup_nil
  targets := by rw [moved, hr]; exact List.nodup_nil
  apart i hi := by rw [moved, hr] at hi; cases hi

theorem Held.opened {r₀ : Region} (h : r₀.Opened) : (⟨r₀, []⟩ : Chronicle).Held fun _ => .unborn := by
  obtain ⟨-, hg⟩ := h.spec
  have hswept : ∀ id, ¬ (⟨r₀, []⟩ : Chronicle).Swept id := by
    rintro id ⟨before, after, hinfix, -⟩
    simpa [moments] using hinfix.length_le
  have hstate : ∀ id, r₀.registry.stateOf? id = none := fun id => by rw [hg]; rfl
  have hsize : r₀.registry.all.length = 0 := by rw [hg]; rfl
  refine ⟨fun id => ?_, ?_, ?_, ?_, ?_⟩
  · exact {
      published := by simp [hg, Registry.empty]
      building := by simp [hg, Registry.empty]
      targets := by simp [hg, Registry.empty]
      unborn := by simp [hsize]
      ready := by simp
      unready := by simp
      early := fun _ => ⟨hswept id, by simp [moments, hsize]⟩
      removed := by simp [moments, hstate]
      closed := by simp [moments] }
  all_goals simp [hg, Registry.empty]

end Chronicle

end IndexedStore
