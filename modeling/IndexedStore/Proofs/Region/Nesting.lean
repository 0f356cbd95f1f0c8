import IndexedStore.Proofs.Region.Runs

/-!
# Mutations inside mutations

At the checkpoints of a mutation a listener may run further complete mutations, as far as the locks of entries admit,
and at their checkpoints again. `Course` are the courses that a region can take through this, and `History` those of a
region between outermost operations.

`LocalRegion::put` holds the lock of its entry until the last index is told, so its update is the last word on its
key. `LocalRegion::destroy` unmaps the entry first and has none to lock any more: another put of the key can come
before an index is told of the removal, and the removal is then late. A late removal takes the slots of the new value
away. That is all that can go wrong (`History.agrees_iff`); `Agrees` is the invariant, in which the pairs of an index
and a key that an update in progress is still to reach are left open.
-/

namespace IndexedStore

/-- A region, and the pairs of an index and a key where the last update that the index was told of was the
removal of a key that had a value again. -/
structure Watched where
  region : Region
  late : IndexId → Key → Prop

namespace Watched

/-- Another region with the same record. -/
def moved (w : Watched) (r : Region) : Watched := { w with region := r }

/-- One index told of an update. -/
def tell (w : Watched) (u : Update) (id : IndexId) : Watched where
  region := w.region.updateIndex id u
  late j key := if j = id ∧ key = u.key then u.value = none ∧ w.region.current key ≠ none else w.late j key

end Watched

/-- Where a mutation has arrived: nowhere, or before telling some indexes of its update. -/
inductive Progress where
  | idle
  | telling (u : Update) (ids : List IndexId)

/-- The courses of a region through complete mutations with further ones at their checkpoints. -/
inductive Course : Progress → Watched → Watched → Prop where
  | nothing {w : Watched} : Course .idle w w
  | andThen {a b c : Watched} (first : Course .idle a b) (second : Course .idle b c) : Course .idle a c
  | put {a b c : Watched} {key : Key} {value : Value} {event : EntryEvent} {r : Region}
      (begun : a.region.beginPut key value = .ok (event, r)) (start : Course .idle (a.moved r) b)
      (told : Course (.telling ⟨event.key, event.new.value?⟩ (b.region.registry.liveTargets.map (·.1))) b c) :
      Course .idle a (c.moved (c.region.endPut key))
  | destroy {a b c : Watched} {key : Key} {event : EntryEvent} {r : Region}
      (unmapped : a.region.unmap key = .ok (event, r)) (start : Course .idle (a.moved r) b)
      (told : Course (.telling ⟨event.key, event.new.value?⟩ (b.region.registry.liveTargets.map (·.1))) b c) :
      Course .idle a c
  | done {w : Watched} {u : Update} : Course (.telling u []) w w
  | told {a b c d : Watched} {u : Update} {id : IndexId} {ids : List IndexId} (before : Course .idle a b)
      (after : Course .idle (b.tell u id) c) (rest : Course (.telling u ids) c d) :
      Course (.telling u (id :: ids)) a d

namespace Region

/-- What makes the courses of a region regular. -/
structure Maintained (r : Region) : Prop where
  sound : r.Sound
  registry : r.registry.WF
  synchronous : r.settings.maintenance = .synchronous

/-- A change that the locks of entries admit: they are as they were, and so are the values of locked
keys and the lists of indexes. -/
structure Admitted (r r' : Region) : Prop where
  settings : r'.settings = r.settings
  destroyed : r'.destroyed = r.destroyed
  sound : r'.Sound
  registry : r'.registry.WF
  lists : r.registry.SameLists r'.registry
  locks : ∀ k, r'.lockedAt k = r.lockedAt k
  current : ∀ k, r.lockedAt k = true → r'.current k = r.current k

theorem Admitted.refl {r : Region} (h : r.Maintained) : Admitted r r :=
  ⟨rfl, rfl, h.sound, h.registry, .refl _, fun _ => rfl, fun _ _ => rfl⟩

theorem Admitted.trans {a b c : Region} (h : Admitted a b) (h' : Admitted b c) : Admitted a c :=
  ⟨h'.settings.trans h.settings, h'.destroyed.trans h.destroyed, h'.sound, h'.registry, h.lists.trans h'.lists,
    fun k => (h'.locks k).trans (h.locks k),
    fun k hk => (h'.current k ((h.locks k).trans hk)).trans (h.current k hk)⟩

theorem Admitted.maintained {r r' : Region} (h : r.Maintained) (ha : Admitted r r') : r'.Maintained :=
  ⟨ha.sound, ha.registry, ha.settings ▸ h.synchronous⟩

theorem Maintained.updateIndex {r : Region} (h : r.Maintained) (id : IndexId) (u : Update) :
    Admitted r (r.updateIndex id u) where
  settings := rfl
  destroyed := rfl
  sound := h.sound.withRegistry _
  registry := h.registry.tell u id
  lists := Registry.modify_sameLists _ id _
  locks _ := rfl
  current _ _ := rfl

/-- A change at one key that is not about the indexes. -/
theorem ChangedAt.maintained {key : Key} {r r' : Region} (h : r.Maintained) (hc : ChangedAt key r r') :
    r'.Maintained :=
  ⟨hc.sound, hc.registry ▸ h.registry, hc.settings ▸ h.synchronous⟩

/-- A mutation's own change of one key around a change that locks admit. -/
theorem Admitted.around {key : Key} {a r c z : Region} (hbegin : ChangedAt key a r) (h : Admitted r c)
    (hend : ChangedAt key c z) (hfree : a.lockedAt key = false) (hfreed : z.lockedAt key = false) :
    Admitted a z where
  settings := hend.settings.trans (h.settings.trans hbegin.settings)
  destroyed := hend.destroyed.trans (h.destroyed.trans hbegin.destroyed)
  sound := hend.sound
  registry := hend.registry ▸ h.registry
  lists := by rw [hend.registry, ← hbegin.registry]; exact h.lists
  locks k := by
    by_cases hk : k = key
    · rw [hk, hfree, hfreed]
    · exact (hend.locks k hk).trans ((h.locks k).trans (hbegin.locks k hk))
  current k hlocked := by
    have hk : k ≠ key := by
      rintro rfl
      rw [hfree] at hlocked
      cases hlocked
    exact (hend.current k hk).trans
      ((h.current k ((hbegin.locks k hk).trans hlocked)).trans (hbegin.current k hk))

end Region

/-! ## The invariant -/

namespace Watched

/-- What an index has of a key: what it serves, or nothing after a late removal. -/
def Holds (w : Watched) (id : IndexId) (ix : Index) (key : Key) : Prop :=
  (¬ w.late id key ∧ ix.Serves key (w.region.current key)) ∨
    (w.late id key ∧ ix.Serves key none ∧ w.region.current key ≠ none)

/-- What is known of all pairs of an index and a key but the pending ones. -/
structure Agrees (pending : IndexId → Key → Prop) (w : Watched) : Prop where
  holds : ∀ id ∈ w.region.registry.targets, ∀ ix, w.region.registry.index? id = some ix → ∀ key,
    ¬ pending id key → w.Holds id ix key
  bound : ∀ id key, w.late id key → id < w.region.registry.all.length

/-- The pairs that an update still has to reach, and others. -/
def owing (pending : IndexId → Key → Prop) (key : Key) (ids : List IndexId) : IndexId → Key → Prop :=
  fun id k => pending id k ∨ (k = key ∧ id ∈ ids)

/-- A change of the value of one key leaves the pairs of that key open. -/
theorem Agrees.begun {pending : IndexId → Key → Prop} {w : Watched} (h : w.Agrees pending) {key : Key}
    {r : Region} (hc : Region.ChangedAt key w.region r) :
    (w.moved r).Agrees (owing pending key w.region.registry.targets) where
  holds id hid ix hix k hk := by
    simp only [Watched.moved, hc.registry] at hid hix
    have hne : k ≠ key := fun he => hk (.inr ⟨he, hid⟩)
    have := h.holds id hid ix hix k fun hp => hk (.inl hp)
    simpa only [Holds, Watched.moved, hc.current k hne] using this
  bound id k hl := by
    simp only [Watched.moved, hc.registry]
    exact h.bound id k hl

/-- A region with the same values and the same indexes. -/
theorem Agrees.moved {pending : IndexId → Key → Prop} {w : Watched} (h : w.Agrees pending) {r : Region}
    (hg : r.registry = w.region.registry) (hc : ∀ k, r.current k = w.region.current k) :
    (w.moved r).Agrees pending where
  holds id hid ix hix k hk := by
    simp only [Watched.moved, hg] at hid hix
    simpa only [Holds, Watched.moved, hc] using h.holds id hid ix hix k hk
  bound id k hl := by
    simp only [Watched.moved, hg]
    exact h.bound id k hl

/-- **One index told of the value that the key has, or of a removal, in time or late.** -/
theorem Agrees.tell {pending : IndexId → Key → Prop} {w : Watched} {u : Update} {id : IndexId}
    {ids : List IndexId} (hr : w.region.registry.WF) (hid : id ∈ w.region.registry.targets)
    (hu : ∀ v, u.value = some v → w.region.current u.key = some v)
    (h : w.Agrees (owing pending u.key (id :: ids))) : (w.tell u id).Agrees (owing pending u.key ids) where
  holds j hj ix' hix' k hk := by
    change j ∈ w.region.registry.targets at hj
    change (w.region.registry.tell u id).index? j = some ix' at hix'
    rw [Registry.tell, Registry.index?_modify] at hix'
    by_cases hji : id = j
    · subst hji
      rw [if_pos rfl] at hix'
      obtain ⟨ix, hix, rfl⟩ := Option.map_eq_some_iff.1 hix'
      obtain ⟨-, hserves, hchanged⟩ := Index.maintain_spec (hr.index hj hix).1 u.key u.value
      by_cases hkey : k = u.key
      · subst hkey
        simp only [Holds, Watched.tell, and_self, if_true]
        cases hv : u.value with
        | some v =>
          refine .inl ⟨by simp, ?_⟩
          rw [show (w.region.updateIndex id u).current u.key = some v from hu v hv, ← hv]
          exact hserves
        | none =>
          rw [hv] at hserves
          by_cases hc : w.region.current u.key = none
          · refine .inl ⟨by simp [hc], ?_⟩
            rw [show (w.region.updateIndex id u).current u.key = none from hc]
            exact hserves
          · exact .inr ⟨⟨rfl, hc⟩, hserves, hc⟩
      · have := h.holds id hj ix hix k fun hp => hk (hp.imp_right fun hp => absurd hp.1 hkey)
        simp only [Holds, Watched.tell, hkey, and_false, if_false, hchanged.serves hkey]
        exact this
    · rw [if_neg hji] at hix'
      have hopen : ¬ owing pending u.key (id :: ids) j k := fun hp => hk (hp.imp_right fun ho =>
        ⟨ho.1, (List.mem_cons.1 ho.2).resolve_left (Ne.symm hji)⟩)
      simp only [Holds, Watched.tell, Ne.symm hji, false_and, if_false]
      exact h.holds j hj ix' hix' k hopen
  bound j k hl := by
    rw [show (w.tell u id).region.registry.all.length = w.region.registry.all.length from
      (Registry.modify_sameLists _ id _).size]
    by_cases hji : j = id
    · subst hji
      obtain ⟨ix, hix, -⟩ := hr.live j hid
      exact Registry.index?_lt hix
    · simp only [Watched.tell, hji, false_and, if_false] at hl
      exact h.bound j k hl

/-- Where nothing is owed nothing is left open. -/
theorem Agrees.settled {pending : IndexId → Key → Prop} {w : Watched} {key : Key}
    (h : w.Agrees (owing pending key [])) : w.Agrees pending :=
  ⟨fun id hid ix hix k hk => h.holds id hid ix hix k fun hp => hk (hp.resolve_right (by simp)), h.bound⟩

end Watched

/-! ## Courses -/

namespace Course

theorem admitted {p : Progress} {a b : Watched} (h : Course p a b) (ha : a.region.Maintained) :
    Region.Admitted a.region b.region := by
  induction h with
  | nothing => exact .refl ha
  | andThen _ _ ih ih' =>
    have hab := ih ha
    exact hab.trans (ih' (hab.maintained ha))
  | @put a b c key value event r begun _ _ ih ih' =>
    obtain ⟨hbegin, hfree, -⟩ := Region.beginPut_spec ha.sound begun
    have hr := hbegin.maintained ha
    have hstart : Region.Admitted r b.region := ih hr
    have hall := hstart.trans (ih' (hstart.maintained hr))
    obtain ⟨hend, -, hfreed⟩ := Region.endPut_spec hall.sound key
    exact .around hbegin hall hend hfree hfreed
  | @destroy a b c key event r unmapped _ _ ih ih' =>
    obtain ⟨hunmap, hfree, -, -, hfreed, -⟩ := Region.unmap_spec ha.sound unmapped
    have hr := hunmap.maintained ha
    have hstart : Region.Admitted r b.region := ih hr
    have hall := hstart.trans (ih' (hstart.maintained hr))
    exact .around hunmap hall (.refl hall.sound key) hfree ((hall.locks key).trans hfreed)
  | done => exact .refl ha
  | @told a b c d u id ids _ _ _ ih ih' ih'' =>
    have hab := ih ha
    have hb := hab.maintained ha
    have htell : Region.Admitted b.region (b.tell u id).region := hb.updateIndex id u
    have hbc := htell.trans (ih' (htell.maintained hb))
    exact (hab.trans hbc).trans (ih'' (hbc.maintained hb))

/-- What a course keeps of the invariant: all of it between mutations, and while some indexes are still to
be told of an update, all that the update does not concern. The value that is told is then still there. -/
def Keeps : Progress → Watched → Watched → Prop
  | .idle, a, b => ∀ pending, a.Agrees pending → b.Agrees pending
  | .telling u ids, a, b => (∀ id ∈ ids, id ∈ a.region.registry.targets) →
      (∀ v, u.value = some v → a.region.lockedAt u.key = true ∧ a.region.current u.key = some v) →
      ∀ pending, a.Agrees (Watched.owing pending u.key ids) → b.Agrees pending

/-- A mutation's own change of one key keeps the invariant if the indexes are told of it after that, where a
value is told under its lock. -/
theorem keeps_mutation {a b c : Watched} {key : Key} {r : Region} {u : Update} (hkey : u.key = key)
    (ha : a.region.Maintained) (hchange : Region.ChangedAt key a.region r)
    (hvalue : ∀ v, u.value = some v → r.lockedAt key = true ∧ r.current key = some v)
    (start : Course .idle (a.moved r) b) (hstart : Keeps .idle (a.moved r) b)
    (htold : Keeps (.telling u (b.region.registry.liveTargets.map (·.1))) b c) : Keeps .idle a c := by
  subst hkey
  have hr := hchange.maintained ha
  have hrb : Region.Admitted r b.region := start.admitted hr
  have hb := hrb.maintained hr
  have htargets : b.region.registry.targets = a.region.registry.targets := by
    rw [hrb.lists.targets, hchange.registry]
  rw [hb.registry.liveTargets_ids, htargets] at htold
  intro pending hagrees
  refine htold (fun id hid => htargets ▸ hid) ?_ pending (hstart _ (hagrees.begun hchange))
  intro v hv
  obtain ⟨hlocked, hcurrent⟩ := hvalue v hv
  exact ⟨(hrb.locks _).trans hlocked, (hrb.current _ hlocked).trans hcurrent⟩

/-- **Every course keeps the invariant.** -/
theorem keeps {p : Progress} {a b : Watched} (h : Course p a b) (ha : a.region.Maintained) : Keeps p a b := by
  induction h with
  | nothing => exact fun _ hagrees => hagrees
  | andThen first _ ih ih' =>
    have hb := (first.admitted ha).maintained ha
    exact fun pending hagrees => ih' hb pending (ih ha pending hagrees)
  | @put a b c key value event r begun start told ih ih' =>
    obtain ⟨hbegin, -, hvalue, hlocked, hkey, hnew, -⟩ := Region.beginPut_spec ha.sound begun
    have hr := hbegin.maintained ha
    have hb : b.region.Maintained := (start.admitted hr).maintained hr
    have hc := (told.admitted hb).maintained hb
    obtain ⟨hend, hlast, -⟩ := Region.endPut_spec hc.sound key
    intro pending hagrees
    have htold := keeps_mutation hkey ha hbegin
      (fun v hv => ⟨hlocked, hvalue.trans (hnew.symm.trans hv)⟩) start (ih hr) (ih' hb) pending hagrees
    apply htold.moved hend.registry
    intro k
    by_cases hk : k = key
    · rw [hk]; exact hlast
    · exact hend.current k hk
  | @destroy a b c key event r unmapped start told ih ih' =>
    obtain ⟨hunmap, -, -, -, -, hkey, hnew, -⟩ := Region.unmap_spec ha.sound unmapped
    have hr := hunmap.maintained ha
    have hb : b.region.Maintained := (start.admitted hr).maintained hr
    exact keeps_mutation hkey ha hunmap (fun v hv => by simp [hnew] at hv) start (ih hr) (ih' hb)
  | done => exact fun _ _ pending hagrees => hagrees.settled
  | @told a b c d u id ids before after _ ih ih' ih'' =>
    intro hids hvalue pending hagrees
    have hab := before.admitted ha
    have hb := hab.maintained ha
    have htell : Region.Admitted b.region (b.tell u id).region := hb.updateIndex id u
    have hbc := htell.trans (after.admitted (htell.maintained hb))
    have htargets : ∀ j ∈ id :: ids, j ∈ b.region.registry.targets := by
      intro j hj
      rw [hab.lists.targets]; exact hids j hj
    have hlocked : ∀ v, u.value = some v →
        b.region.lockedAt u.key = true ∧ b.region.current u.key = some v := by
      intro v hv
      obtain ⟨hl, hc⟩ := hvalue v hv
      exact ⟨(hab.locks u.key).trans hl, (hab.current u.key hl).trans hc⟩
    have htold := (ih ha _ hagrees).tell hb.registry (htargets id (by simp)) fun v hv => (hlocked v hv).2
    refine ih'' (hbc.maintained hb) ?_ ?_ pending
      (ih' (htell.maintained hb) _ htold)
    · intro j hj
      rw [hbc.lists.targets]
      exact htargets j (List.mem_cons_of_mem _ hj)
    · intro v hv
      obtain ⟨hl, hc⟩ := hlocked v hv
      exact ⟨(hbc.locks u.key).trans hl, (hbc.current u.key hl).trans hc⟩

end Course

/-! ## Hosts -/

/-- A complete mutation. -/
inductive Mutation where
  | put (key : Key) (value : Value)
  | destroy (key : Key)

namespace Host

variable {σ : Type}

/-- The state after a mutation, whether or not that was refused. -/
def mutate (h : Host σ) (s : σ) : Mutation → σ
  | .put key value => (h.put key value s).2
  | .destroy key => (h.destroy key s).2

/-- A host gives the region that was set. -/
def Lawful (h : Host σ) : Prop := ∀ r s, h.region (h.setRegion r s) = r

/-- All that the listeners of a host do to the region at the checkpoints of mutations is to run complete
mutations, with further ones at their checkpoints. -/
def Nests (h : Host σ) : Prop :=
  ∀ installed arrival s, arrival.checkpoint ∈ [.maintenanceStart, .beforeIndexUpdate, .afterIndexUpdate] →
    (h.region s).Maintained → ∀ late, ∃ late',
      Course .idle ⟨h.region s, late⟩ ⟨h.region (h.listener installed arrival s), late'⟩

variable {h : Host σ}

theorem updateTargets_course (hl : h.Lawful) (hn : h.Nests) (installed : σ) (u : Update)
    (targets : List (IndexId × Index)) {s : σ} (hs : (h.region s).Maintained) (late : IndexId → Key → Prop) :
    ∃ late', Course (.telling u (targets.map (·.1))) ⟨h.region s, late⟩
      ⟨h.region (h.updateTargets (h.listener installed) false u targets s), late'⟩ := by
  unfold updateTargets
  induction targets generalizing s late with
  | nil => exact ⟨late, .done⟩
  | cons target rest ih =>
    let arrival (c : Checkpoint) : Arrival := ⟨c, (h.region s).path, some target.2.name, some u.key, false⟩
    let s₁ := h.listener installed (arrival .beforeIndexUpdate) s
    let s₂ := h.modify (·.updateIndex target.1 u) s₁
    let s₃ := h.listener installed (arrival .afterIndexUpdate) s₂
    obtain ⟨late₁, before⟩ := hn installed (arrival .beforeIndexUpdate) s (by simp [arrival]) hs late
    have hs₁ : (h.region s₁).Maintained := (before.admitted hs).maintained hs
    have hr₂ : h.region s₂ = (h.region s₁).updateIndex target.1 u := hl _ _
    have hs₂ : (h.region s₂).Maintained := by
      rw [hr₂]
      exact (hs₁.updateIndex target.1 u).maintained hs₁
    obtain ⟨late₂, after⟩ := hn installed (arrival .afterIndexUpdate) s₂ (by simp [arrival]) hs₂
      (Watched.tell ⟨h.region s₁, late₁⟩ u target.1).late
    have hs₃ : (h.region s₃).Maintained := (after.admitted hs₂).maintained hs₂
    obtain ⟨late₃, hrest⟩ := ih hs₃ late₂
    rw [hr₂] at after
    exact ⟨late₃, .told before after hrest⟩

/-- What follows on a mutation's own change of the region. -/
theorem notify_course (hl : h.Lawful) (hn : h.Nests) {event : EntryEvent} (he : event.operation ≠ .evict) {s : σ}
    (hs : (h.region s).Maintained) (late : IndexId → Key → Prop) :
    ∃ b late', Course .idle ⟨h.region s, late⟩ b ∧
      Course (.telling ⟨event.key, event.new.value?⟩ (b.region.registry.liveTargets.map (·.1))) b
        ⟨h.region (h.notify event s), late'⟩ := by
  let start : Arrival := ⟨.maintenanceStart, (h.region s).path, none, some event.key, false⟩
  let s₁ := h.listener s start s
  obtain ⟨late₁, hstart⟩ := hn s start s (by simp [start]) hs late
  have hs₁ : (h.region s₁).Maintained := (hstart.admitted hs).maintained hs
  have hnotify : h.notify event s = if (h.region s₁).registry.liveTargets.isEmpty then s₁
      else h.updateTargets (h.listener s) false ⟨event.key, event.new.value?⟩
        (h.region s₁).registry.liveTargets s₁ := by
    unfold notify
    rw [if_neg he]
    simp only [s₁, start, hs₁.synchronous]
  rw [hnotify]
  by_cases hnone : (h.region s₁).registry.liveTargets.isEmpty = true
  · rw [if_pos hnone]
    refine ⟨_, late₁, hstart, ?_⟩
    rw [List.isEmpty_iff.1 hnone]
    exact .done
  · rw [if_neg hnone]
    obtain ⟨late₂, htold⟩ := updateTargets_course hl hn s ⟨event.key, event.new.value?⟩
      (h.region s₁).registry.liveTargets hs₁ late₁
    exact ⟨_, late₂, hstart, htold⟩

/-- **A mutation of a host whose listeners run mutations is a course of the region.** -/
theorem mutate_course (hl : h.Lawful) (hn : h.Nests) (m : Mutation) {s : σ} (hs : (h.region s).Maintained)
    (late : IndexId → Key → Prop) :
    ∃ late', Course .idle ⟨h.region s, late⟩ ⟨h.region (h.mutate s m), late'⟩ := by
  cases m with
  | put key value =>
    cases hb : (h.region s).beginPut key value with
    | error e => exact ⟨late, by simp only [mutate, Host.put, hb]; exact .nothing⟩
    | ok begun =>
      obtain ⟨event, r⟩ := begun
      obtain ⟨hbegin, -, -, -, -, -, hop⟩ := Region.beginPut_spec hs.sound hb
      have hset : h.region (h.setRegion r s) = r := hl r s
      have hr : (h.region (h.setRegion r s)).Maintained := by rw [hset]; exact hbegin.maintained hs
      obtain ⟨b, late', hstart, htold⟩ := notify_course hl hn hop hr late
      rw [hset] at hstart
      refine ⟨late', ?_⟩
      have hend : h.region (h.mutate s (.put key value)) =
          (h.region (h.notify event (h.setRegion r s))).endPut key := by
        simp only [mutate, Host.put, hb, Host.modify]
        exact hl _ _
      rw [hend]
      exact .put (a := ⟨h.region s, late⟩) (c := ⟨h.region (h.notify event (h.setRegion r s)), late'⟩) hb hstart
        htold
  | destroy key =>
    cases hu : (h.region s).unmap key with
    | error e => exact ⟨late, by simp only [mutate, Host.destroy, hu]; exact .nothing⟩
    | ok unmapped =>
      obtain ⟨event, r⟩ := unmapped
      obtain ⟨hunmap, -, -, -, -, -, -, hop⟩ := Region.unmap_spec hs.sound hu
      have hset : h.region (h.setRegion r s) = r := hl r s
      have hr : (h.region (h.setRegion r s)).Maintained := by rw [hset]; exact hunmap.maintained hs
      obtain ⟨b, late', hstart, htold⟩ := notify_course hl hn hop hr late
      rw [hset] at hstart
      refine ⟨late', ?_⟩
      simp only [mutate, Host.destroy, hu]
      exact .destroy (a := ⟨h.region s, late⟩) hu hstart htold

theorem mutations_course (hl : h.Lawful) (hn : h.Nests) (ms : List Mutation) {s : σ}
    (hs : (h.region s).Maintained) (late : IndexId → Key → Prop) :
    ∃ late', Course .idle ⟨h.region s, late⟩ ⟨h.region (ms.foldl h.mutate s), late'⟩ := by
  induction ms generalizing s late with
  | nil => exact ⟨late, .nothing⟩
  | cons m rest ih =>
    obtain ⟨late₁, hfirst⟩ := mutate_course hl hn m hs late
    obtain ⟨late₂, hrest⟩ := ih ((hfirst.admitted hs).maintained hs) late₁
    exact ⟨late₂, hfirst.andThen hrest⟩

/-- Listeners may run mutations of a host that nests itself, so that mutations nest to any depth. -/
theorem nests_of_runs {h' : Host σ} (hl : h.Lawful) (hn : h.Nests) (hregion : h'.region = h.region)
    (hruns : ∀ installed arrival s, ∃ ms : List Mutation,
      h'.listener installed arrival s = ms.foldl h.mutate s) : h'.Nests := by
  intro installed arrival s _ hs late
  obtain ⟨ms, hms⟩ := hruns installed arrival s
  rw [hregion] at hs ⊢
  rw [hms]
  exact mutations_course hl hn ms hs late

end Host

theorem lawful_quiet : quiet.Lawful := fun _ _ => rfl

theorem nests_quiet : quiet.Nests := fun _ _ _ _ _ late => ⟨late, .nothing⟩

/-! ## Histories -/

namespace Region

/-- What becomes of a region through outermost operations, of which the mutations may have others nested in
them. -/
inductive History (r₀ : Region) : Watched → Prop where
  | opened : History r₀ ⟨r₀, fun _ _ => False⟩
  | mutated {a b : Watched} (h : History r₀ a) (course : Course .idle a b) : History r₀ b
  | read {w : Watched} (h : History r₀ w) (key : Key) : History r₀ (w.moved (w.region.get key).2)
  | created {w : Watched} (h : History r₀ w) (d : IndexDefinition) :
      History r₀ (w.moved (quiet.createIndex d w.region).2)
  | removed {w : Watched} (h : History r₀ w) (name : String) :
      History r₀ (w.moved (quiet.removeIndex name w.region).2)

end Region

namespace Watched

variable {pending : IndexId → Key → Prop} {w : Watched}

theorem Agrees.created (h : w.Agrees pending) {id : IndexId} {ix : Index} {g' : Registry} {r' : Region}
    (hc : ∀ k, r'.current k = w.region.current k) (he : w.region.registry.Extended id ix g')
    (hs : ∀ k, ix.Serves k (w.region.current k)) : (w.moved (r'.withRegistry g')).Agrees pending where
  holds j hj ix' hix' key hk := by
    simp only [Watched.moved, Region.registry_withRegistry] at hj hix'
    simp only [Holds, Watched.moved, Region.current_withRegistry, hc]
    rcases he.target hj hix' with ⟨rfl, rfl⟩ | ⟨hj, hix⟩
    · -- nothing is on record of an index that was not there
      exact .inl ⟨fun hl => Nat.lt_irrefl _ (he.place ▸ h.bound j key hl), hs key⟩
    · exact h.holds j hj ix' hix key hk
  bound j key hl := by
    simp only [Watched.moved, Region.registry_withRegistry, he.size]
    exact Nat.lt_succ_of_lt (h.bound j key hl)

theorem Agrees.removed (h : w.Agrees pending) (hg : w.region.registry.WF) {id : IndexId} {g' : Registry}
    (hr : w.region.registry.Reduced id g') : (w.moved (w.region.withRegistry g')).Agrees pending where
  holds j hj ix hix key hk := by
    simp only [Watched.moved, Region.registry_withRegistry] at hj hix
    obtain ⟨hj, hix⟩ := hr.target hg hj hix
    exact h.holds j hj ix hix key hk
  bound j key hl := by
    simp only [Watched.moved, Region.registry_withRegistry, hr.size]
    exact h.bound j key hl

/-- What an index that is not a primary-key index has of a key, in slots. -/
theorem Holds.slotsAt {id : IndexId} {ix : Index} {key : Key} (h : w.Holds id ix key) (hix : ix.WF)
    (hk : ix.kind ≠ .primaryKey) : (w.late id key → ix.slotsAt key = [] ∧ w.region.current key ≠ none) ∧
      (ix.slotsAt key = ix.projected (w.region.current key) ↔
        ¬ w.late id key ∨ ix.projected (w.region.current key) = []) := by
  rcases h with ⟨hl, hs⟩ | ⟨hl, hs, hc⟩
  · rw [hix.serves_iff hk] at hs
    exact ⟨fun hl' => absurd hl' hl, by simp [hl, hs]⟩
  · rw [hix.serves_iff hk, Index.projected_none] at hs
    exact ⟨fun _ => ⟨hs, hc⟩, by simp [hl, hs, eq_comm (a := ([] : List Slot))]⟩

end Watched

namespace Region

theorem History.spec {r₀ : Region} (hopen : r₀.Opened) (hsync : r₀.settings.maintenance = .synchronous)
    {w : Watched} (h : r₀.History w) :
    w.region.Steady ∧ w.region.Maintained ∧ w.Agrees fun _ _ => False := by
  have regular : ∀ {r : Region}, r.Steady → r.settings.maintenance = .synchronous → r.Maintained :=
    fun hs hm => ⟨hs.sound, hs.registry, hm⟩
  induction h with
  | opened =>
    obtain ⟨hsteady, hg⟩ := hopen.spec
    refine ⟨hsteady, regular hsteady hsync, ⟨?_, fun _ _ hl => hl.elim⟩⟩
    intro id hid
    rw [hg] at hid
    cases hid
  | mutated _ course ih =>
    obtain ⟨hsteady, hm, hagrees⟩ := ih
    have ha := course.admitted hm
    exact ⟨⟨ha.sound, ha.registry, ha.destroyed.trans hsteady.live,
      fun key => (ha.locks key).trans (hsteady.unlocked key)⟩, ha.maintained hm, course.keeps hm _ hagrees⟩
  | @read w _ key ih =>
    obtain ⟨hsteady, hm, hagrees⟩ := ih
    have ht := hsteady.transition (.get key)
    have hsame := get_same w.region key
    exact ⟨ht.steady hsteady, regular (ht.steady hsteady) (ht.settings ▸ hm.synchronous),
      hagrees.moved hsame.registry (hsame.undisturbed hsteady.sound).current⟩
  | @created w _ d ih =>
    obtain ⟨hsteady, hm, hagrees⟩ := ih
    have ht := hsteady.transition (.createIndex d)
    refine ⟨ht.steady hsteady, regular (ht.steady hsteady) (ht.settings ▸ hm.synchronous), ?_⟩
    rcases createIndex_spec hsteady.sound hsteady.live hsteady.unlocked d with
      ⟨e, he⟩ | ⟨id, c, ix, g', r', hok, hsame, -, -, -, hs, hx⟩
    · rw [he]; exact hagrees
    · rw [hok]; exact hagrees.created (hsame.undisturbed hsteady.sound).current hx hs
  | @removed w _ name ih =>
    obtain ⟨hsteady, hm, hagrees⟩ := ih
    have ht := hsteady.transition (.removeIndex name)
    refine ⟨ht.steady hsteady, regular (ht.steady hsteady) (ht.settings ▸ hm.synchronous), ?_⟩
    rcases removeIndex_spec w.region name with ⟨e, he⟩ | ⟨id, g', hok, hr⟩
    · rw [he]; exact hagrees
    · rw [hok]; exact hagrees.removed hsteady.registry hr

/-- **Between the outermost operations of a synchronous region an index has the slots of every key's value,
but for keys with a late removal: of those it has none.** Whatever a host's listeners nest in a mutation of
such a region makes such a history again. -/
theorem History.agrees_iff {r₀ : Region} (hopen : r₀.Opened) (hsync : r₀.settings.maintenance = .synchronous)
    {w : Watched} (hw : r₀.History w) :
    (∀ id ix, (id, ix) ∈ w.region.registry.publishedIndexes → ix.kind ≠ .primaryKey → ∀ key,
      (w.region.readValue key).1 = .ok (w.region.current key) ∧
      (w.late id key → ix.slotsAt key = [] ∧ w.region.current key ≠ none) ∧
      (ix.slotsAt key = ix.projected (w.region.current key) ↔
        ¬ w.late id key ∨ ix.projected (w.region.current key) = [])) ∧
    ∀ {σ : Type} (h : Host σ), h.Lawful → h.Nests → ∀ (m : Mutation) (s : σ), h.region s = w.region →
      ∃ late, r₀.History ⟨h.region (h.mutate s m), late⟩ := by
  obtain ⟨hsteady, hm, hagrees⟩ := hw.spec hopen hsync
  refine ⟨fun id ix hpub hkind key => ⟨(readValue_spec hsteady.sound key).1, ?_⟩,
    ?_⟩
  · obtain ⟨hid, hix⟩ := hsteady.registry.mem_published hpub
    have hholds := hagrees.holds id hid ix hix key not_false
    exact hholds.slotsAt (hsteady.registry.index hid hix).1 hkind
  · intro σ h hl hn m s hs
    obtain ⟨late, course⟩ := Host.mutate_course hl hn m (hs ▸ hm : (h.region s).Maintained) w.late
    rw [hs] at course
    exact ⟨late, hw.mutated course⟩

end Region

/-! ## A key put again in its own removal -/

/-- A host that puts a key again when its removal begins. -/
def restoring : Host Region :=
  .alone fun _ arrival r =>
    if arrival.checkpoint = .maintenanceStart ∧ (r.current (.int 1)).isNone then
      quiet.mutate r (.put (.int 1) (valued 2))
    else r

theorem nests_restoring : restoring.Nests := by
  have hregion : restoring.region = quiet.region := rfl
  apply Host.nests_of_runs lawful_quiet nests_quiet hregion
  intro _ arrival r
  by_cases hc : arrival.checkpoint = .maintenanceStart ∧ (r.current (.int 1)).isNone
  · exact ⟨[.put (.int 1) (valued 2)], if_pos hc⟩
  · exact ⟨[], if_neg hc⟩

/-- A region with one indexed value. -/
def oneValue : Region :=
  quiet.mutate (quiet.createIndex valueDefinition (.blank .synchronous)).2 (.put (.int 1) (valued 1))

/-- That region after the value was removed and put again. -/
def restored : Region := restoring.mutate oneValue (.destroy (.int 1))

theorem Region.History.late_restored : ∃ late, (Region.blank .synchronous).History ⟨restored, late⟩ ∧
    late 0 (.int 1) ∧ restored.current (.int 1) = some (valued 2) := by
  have hopen := Region.opened_blank .synchronous
  have hindexed : (Region.blank .synchronous).History
      ⟨(quiet.createIndex valueDefinition (.blank .synchronous)).2, fun _ _ => False⟩ :=
    Region.History.created .opened valueDefinition
  obtain ⟨late₁, hone⟩ := (agrees_iff hopen rfl hindexed).2 quiet lawful_quiet nests_quiet
    (.put (.int 1) (valued 1)) _ rfl
  obtain ⟨late₂, hrestored⟩ := (agrees_iff hopen rfl hone).2 restoring (fun _ _ => rfl) nests_restoring
    (.destroy (.int 1)) oneValue rfl
  have hrestored : (Region.blank .synchronous).History ⟨restored, late₂⟩ := hrestored
  refine ⟨late₂, hrestored, ?_, rfl⟩
  let ix := (restored.registry.index? 0).getD default
  have hix : (0, ix) ∈ restored.registry.publishedIndexes := List.mem_singleton.2 rfl
  have hkind : ix.kind ≠ .primaryKey := by decide
  have hslots : ix.slotsAt (.int 1) = [] := rfl
  have hprojected : ix.projected (restored.current (.int 1)) = [.defined (.int 2)] := rfl
  by_contra hl
  have hagrees := ((agrees_iff hopen rfl hrestored).1 0 ix hix hkind (.int 1)).2.2.2 (.inl hl)
  rw [hslots, hprojected] at hagrees
  cases hagrees

end IndexedStore
