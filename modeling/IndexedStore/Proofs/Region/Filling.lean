import IndexedStore.Proofs.Region.Nesting

/-!
# Mutations while an index is filled

A creation registers its index, lists the keys and reads each of them (`builder::populate`), and publishes the index.
Other callers can mutate the region in between. `createIndexAmid` is a creation with complete mutations in every gap,
and `Following` what holds of the region throughout: the index accounts for every key, but for keys that are still to
be read and have a value. A mutation tells the index, since that is a target from the start, and so takes its key out
of that exception for good; and a key that came after the keys were listed never was in it.
-/

namespace IndexedStore

namespace Region

/-- The region after some complete mutations. -/
def mutated (r : Region) (mutations : List Mutation) : Region := mutations.foldl quiet.mutate r

/-- Mutations in the gaps of a creation. -/
structure Interlude where
  /-- When the index is a target, and the keys are not listed. -/
  begun : List Mutation
  /-- Right before the key of the given number is read. -/
  amid : Nat → List Mutation
  /-- When all keys are read, and the index is not published. -/
  scanned : List Mutation

/-- `scanEntries`, with mutations before each entry is read. -/
def scanAmid (r : Region) (id : IndexId) (report : BuildReport) (amid : Nat → List Mutation) :
    List Key → Except Error BuildReport × Region
  | [] => (.ok report, r)
  | key :: rest =>
    match (r.mutated (amid 0)).scanEntry id report key with
    | (.ok report, r) => r.scanAmid id report (fun n => amid (n + 1)) rest
    | (.error e, r) => (.error e, r)

/-- A creation with mutations in its gaps. -/
def createIndexAmid (r : Region) (definition : IndexDefinition) (gaps : Interlude) :
    Except Error IndexId × Region :=
  match r.beginIndex definition with
  | .error e => (.error e, r)
  | .ok (id, r) =>
    let r := r.mutated gaps.begun
    let (scanned, r) := r.scanAmid id .empty gaps.amid r.keys
    (r.mutated gaps.scanned).endIndex id scanned

/-- A listener that lets others in before the scan of a creation and after it. -/
def interrupted (begun scanned : List Mutation) : Host Region :=
  .alone fun _ arrival r =>
    match arrival.checkpoint with
    | .beforeInitialScan => r.mutated begun
    | .afterInitialScan => r.mutated scanned
    | _ => r

theorem scanAmid_alone (r : Region) (id : IndexId) (report : BuildReport) (keys : List Key) :
    r.scanAmid id report (fun _ => []) keys = r.scanEntries id report keys := by
  induction keys generalizing r report with
  | nil => rfl
  | cons key rest ih =>
    simp only [scanAmid, scanEntries, mutated, List.foldl_nil]
    generalize r.scanEntry id report key = outcome
    obtain ⟨_ | report, r⟩ := outcome
    · rfl
    · exact ih r report

/-- The creation of an index is this one, when others come in at its checkpoints. -/
theorem createIndex_interrupted (r : Region) (definition : IndexDefinition) (begun scanned : List Mutation) :
    (interrupted begun scanned).createIndex definition r =
      r.createIndexAmid definition ⟨begun, fun _ => [], scanned⟩ := by
  unfold Host.createIndex createIndexAmid
  rw [show (interrupted begun scanned).region r = r from rfl]
  cases r.beginIndex definition with
  | error e => rfl
  | ok entered =>
    obtain ⟨id, r₁⟩ := entered
    simp only [Host.run, interrupted, Host.alone, scan, scanAmid_alone]
    cases (r₁.mutated begun).scanEntries id .empty (r₁.mutated begun).keys with
    | mk outcome r₂ => cases outcome <;> rfl

/-- A primary-key index on the field that `valued` sets. -/
def ownerDefinition : IndexDefinition := ⟨"owners", .primaryKey, "v", "/r"⟩

/-! ## Mutations -/

/-- A complete mutation changes nothing, or one value. -/
theorem mutate_spec {r : Region} (h : r.Sound) (hg : r.registry.WF) (m : Mutation) :
    quiet.mutate r m = r ∨ ∃ u, Mutated u r (quiet.mutate r m) := by
  cases m with
  | put key value =>
    rcases put_spec h hg key value with ⟨e, he⟩ | ⟨r', hok, hm⟩
    · exact .inl (by rw [Host.mutate, he])
    · exact .inr ⟨_, by rw [Host.mutate, hok]; exact hm⟩
  | destroy key =>
    rcases destroy_spec h hg key with ⟨e, he⟩ | ⟨value, r', hok, hm⟩
    · exact .inl (by rw [Host.mutate, he])
    · exact .inr ⟨_, by rw [Host.mutate, hok]; exact hm⟩

/-! ## What holds of a target -/

/-- A region in which a target, published or not, accounts for every key but those that are due to be read
and have a value. -/
structure Following (id : IndexId) (compiled : CompiledDefinition) (published : List IndexId)
    (due : Key → Prop) (r : Region) : Prop extends Steady r where
  synchronous : r.settings.maintenance = .synchronous
  target : id ∈ r.registry.targets
  shown : r.registry.published = published
  index : ∃ ix, r.registry.index? id = some ix ∧ ix.compiled = compiled ∧
    ∀ key, ix.Accounts key (r.current key) ∨ (due key ∧ r.current key ≠ none)

variable {id : IndexId} {c : CompiledDefinition} {published : List IndexId} {due : Key → Prop} {r : Region}

/-- When an index is begun, every key is due. -/
theorem Following.begun (h : r.Steady) (hsync : r.settings.maintenance = .synchronous) {d : IndexDefinition}
    {r' : Region} (hb : r.beginIndex d = .ok (id, r')) :
    id ∉ r.registry.published ∧
      ∃ c, d.compile = .ok c ∧ r'.Following id c r.registry.published fun _ => True := by
  obtain ⟨c, hc, -, rfl, rfl⟩ := beginIndex_spec hb
  let blank := r.newIndex c
  have hwf : blank.WF := Index.wf_new hc _ _
  have hbuilding : blank.state ≠ .removed := show IndexState.building ≠ .removed by decide
  refine ⟨fun hid => h.registry.fresh (h.registry.visible _ hid), c, hc,
    ⟨h.sound.withRegistry _, h.registry.enter hwf hbuilding, h.live, h.unlocked⟩, hsync, ?_, rfl, blank, ?_, rfl,
    ?_⟩
  · exact List.mem_append_right _ (List.mem_singleton.2 rfl)
  · exact (Registry.index?_enter _ _ _).trans (if_pos rfl)
  · intro key
    rw [current_withRegistry]
    cases hv : r.current key with
    | none => exact .inl (Index.accounts_new c _ _ key)
    | some value => exact .inr ⟨trivial, by simp⟩

/-- A mutation brings the index up to date with its key. -/
theorem Following.mutate (h : r.Following id c published due) (m : Mutation) :
    (quiet.mutate r m).Following id c published due := by
  rcases mutate_spec h.sound h.registry m with he | ⟨u, hm⟩
  · rw [he]; exact h
  · have hg : (quiet.mutate r m).registry = r.registry.told u r.registry.targets := by
      rw [hm.registry, h.synchronous]; rfl
    have hlists := Registry.told_sameLists r.registry u r.registry.targets
    have hsteady := (Transition.mutated u hm).steady h.toSteady
    refine ⟨hsteady, hm.settings ▸ h.synchronous, ?_, ?_, ?_⟩
    · rw [hg, hlists.targets]; exact h.target
    · rw [hg, hlists.published]; exact h.shown
    · obtain ⟨ix, hix, hc, hall⟩ := h.index
      obtain ⟨ix', hix', -, -⟩ := hsteady.registry.live id (by rw [hg, hlists.targets]; exact h.target)
      obtain ⟨_, hold, hchanged, haccounts⟩ := Registry.accounts_told h.registry h.target (hg ▸ hix')
      obtain rfl := Option.some.inj (hold.symm.trans hix)
      refine ⟨ix', hix', hchanged.compiled.trans hc, ?_⟩
      intro key
      rw [hm.current]
      by_cases hk : key = u.key
      · rw [if_pos hk, hk]
        exact .inl haccounts
      · rw [if_neg hk]
        exact (hall key).imp_left (hchanged.accounts hk)

theorem Following.mutated (h : r.Following id c published due) (mutations : List Mutation) :
    (r.mutated mutations).Following id c published due := by
  induction mutations generalizing r with
  | nil => exact h
  | cons m rest ih => exact ih (h.mutate m)

/-- Once the keys are listed, only those are due: no other key has a value. -/
theorem Following.listed (h : r.Following id c published due) : r.Following id c published (· ∈ r.keys) := by
  obtain ⟨ix, hix, hc, hall⟩ := h.index
  refine ⟨h.toSteady, h.synchronous, h.target, h.shown, ix, hix, hc, ?_⟩
  intro key
  exact (hall key).imp_right fun hdue => ⟨(mem_keys_iff h.sound).2 hdue.2, hdue.2⟩

/-- An entry that was read is due no more. -/
theorem Following.scanEntry {key : Key} {rest : List Key} (h : r.Following id c published (· ∈ key :: rest))
    (report : BuildReport) :
    (∃ report', (r.scanEntry id report key).1 = .ok report') ∧
      (r.scanEntry id report key).2.Following id c published (· ∈ rest) := by
  obtain ⟨r', hscan, hsame, hreport⟩ := scanEntry_spec h.sound h.live (h.unlocked key) id report
  refine ⟨hreport, ?_⟩
  rw [hscan]
  have hund := hsame.undisturbed h.sound
  have hfilled : ∀ ix : Index, ix.WF →
      (ix.filled r.current [key]).WF ∧ (ix.filled r.current [key]).state = ix.state := by
    intro ix hix
    unfold Index.filled
    cases hv : r.current key with
    | none => simpa [hv] using hix
    | some value =>
      obtain ⟨hwf, -, hchanged⟩ := Index.maintain_spec hix key (some value)
      simpa [hv] using And.intro hwf hchanged.state
  refine ⟨⟨hund.sound.withRegistry _, h.registry.modify hfilled, hsame.destroyed.trans h.live,
    fun k => (hund.locks k).trans (h.unlocked k)⟩, hsame.settings ▸ h.synchronous, h.target, h.shown, ?_⟩
  obtain ⟨ix, hix, hc, hall⟩ := h.index
  have hwf := (h.registry.index h.target hix).1
  refine ⟨ix.filled r.current [key], ?_, ?_⟩
  · rw [registry_withRegistry, Registry.index?_modify, if_pos rfl, hix]; rfl
  · unfold Index.filled
    simp only [List.foldl_cons, List.foldl_nil, current_withRegistry, hund.current]
    cases hv : r.current key with
    | none =>
      refine ⟨hc, ?_⟩
      intro k
      refine (hall k).imp_right ?_
      rintro ⟨hmem, hne⟩
      refine ⟨(List.mem_cons.1 hmem).resolve_left ?_, hne⟩
      rintro rfl
      exact hne hv
    | some value =>
      obtain ⟨-, -, hchanged⟩ := Index.maintain_spec hwf key (some value)
      refine ⟨hchanged.compiled.trans hc, ?_⟩
      intro k
      by_cases hk : k = key
      · rw [hk, hv]
        exact .inl (Index.maintain_accounts hwf key (some value))
      · exact (hall k).imp (hchanged.accounts hk)
          fun hdue => ⟨(List.mem_cons.1 hdue.1).resolve_left hk, hdue.2⟩

/-- A scan ends, with no key due. -/
theorem Following.scanAmid {keys : List Key} (h : r.Following id c published (· ∈ keys)) (report : BuildReport)
    (amid : Nat → List Mutation) :
    (∃ report', (r.scanAmid id report amid keys).1 = .ok report') ∧
      (r.scanAmid id report amid keys).2.Following id c published fun _ => False := by
  induction keys generalizing r report amid with
  | nil => exact ⟨⟨report, rfl⟩, by simpa [Region.scanAmid] using h⟩
  | cons key rest ih =>
    obtain ⟨⟨report', hreport⟩, hfilling⟩ := (h.mutated (amid 0)).scanEntry report
    have hcons : r.scanAmid id report amid (key :: rest) =
        ((r.mutated (amid 0)).scanEntry id report key).2.scanAmid id report' (fun n => amid (n + 1)) rest := by
      rw [Region.scanAmid]
      generalize (r.mutated (amid 0)).scanEntry id report key = outcome at hreport
      obtain ⟨_, _⟩ := outcome
      simp only at hreport
      rw [hreport]
    rw [hcons]
    exact ih hfilling report' _

/-- **A creation is refused at its beginning, or publishes an index that accounts for every key**, whatever
mutations come in between. -/
theorem createIndexAmid_spec (h : r.Steady) (hsync : r.settings.maintenance = .synchronous)
    (d : IndexDefinition) (gaps : Interlude) :
    (∃ e, r.beginIndex d = .error e ∧ r.createIndexAmid d gaps = (.error e, r)) ∨
      ∃ id ix r', r.createIndexAmid d gaps = (.ok id, r') ∧ r'.Steady ∧
        (id, ix) ∈ r'.registry.publishedIndexes ∧ ix.state = .ready ∧ d.compile = .ok ix.compiled ∧
        ∀ key, ix.Accounts key (r'.current key) := by
  cases hb : r.beginIndex d with
  | error e => exact .inl ⟨e, rfl, by rw [createIndexAmid, hb]⟩
  | ok entered =>
    obtain ⟨id, r₁⟩ := entered
    obtain ⟨hhidden, c, hc, hbegun⟩ := Following.begun h hsync hb
    have hlisted := (hbegun.mutated gaps.begun).listed
    obtain ⟨⟨report, hreport⟩, hscanned⟩ := hlisted.scanAmid .empty gaps.amid
    have hcreate : r.createIndexAmid d gaps = (((r₁.mutated gaps.begun).scanAmid id .empty gaps.amid
        (r₁.mutated gaps.begun).keys).2.mutated gaps.scanned).endIndex id (.ok report) := by
      simp only [createIndexAmid, hb, hreport]
    have hdone := hscanned.mutated gaps.scanned
    generalize ((r₁.mutated gaps.begun).scanAmid id .empty gaps.amid
      (r₁.mutated gaps.begun).keys).2.mutated gaps.scanned = r₂ at hcreate hdone
    obtain ⟨ix, hix, hcompiled, hall⟩ := hdone.index
    have hpublished := hdone.registry.publish hdone.target (hdone.shown ▸ hhidden) report
    refine .inr ⟨id, { ix with build := report, state := .ready },
      r₂.withRegistry (r₂.registry.publish id report), hcreate,
      ⟨hdone.sound.withRegistry _, hpublished, hdone.live, hdone.unlocked⟩, ?_, rfl, hc.trans (congrArg _ hcompiled.symm), ?_⟩
    · refine Registry.mem_publishedIndexes.2 ⟨List.mem_append_right _ (List.mem_singleton.2 rfl), ?_⟩
      rw [registry_withRegistry, Registry.index?_publish, if_pos rfl, hix]
      rfl
    · intro key
      have haccounts := (hall key).resolve_right fun hdue => hdue.1
      exact haccounts.congr rfl rfl Iff.rfl

/-! ## All targets -/

/-- Every target accounts for every key. -/
def Accounted (r : Region) : Prop :=
  ∀ id ∈ r.registry.targets, ∀ ix, r.registry.index? id = some ix → ∀ key, ix.Accounts key (r.current key)

theorem Accounted.following (ha : r.Accounted) (h : r.Steady)
    (hsync : r.settings.maintenance = .synchronous) (hid : id ∈ r.registry.targets) {ix : Index}
    (hix : r.registry.index? id = some ix) :
    r.Following id ix.compiled r.registry.published fun _ => False :=
  ⟨h, hsync, hid, rfl, ix, hix, rfl, fun key => .inl (ha id hid ix hix key)⟩

theorem Following.accounts (h : r.Following id c published fun _ => False) :
    ∃ ix, r.registry.index? id = some ix ∧ ix.compiled = c ∧ ∀ key, ix.Accounts key (r.current key) := by
  obtain ⟨ix, hix, hc, hall⟩ := h.index
  exact ⟨ix, hix, hc, fun key => (hall key).resolve_right fun hdue => hdue.1⟩

theorem Accounted.mutate (ha : r.Accounted) (h : r.Steady) (hsync : r.settings.maintenance = .synchronous)
    (m : Mutation) : (quiet.mutate r m).Accounted := by
  intro id hid ix' hix'
  have htargets : (quiet.mutate r m).registry.targets = r.registry.targets := by
    rcases mutate_spec h.sound h.registry m with he | ⟨u, hm⟩
    · rw [he]
    · rw [hm.registry, hsync]
      exact (Registry.told_sameLists _ _ _).targets
  rw [htargets] at hid
  obtain ⟨ix, hix, -⟩ := h.registry.live id hid
  obtain ⟨_, hnew, -, hall⟩ := ((ha.following h hsync hid hix).mutate m).accounts
  obtain rfl := Option.some.inj (hnew.symm.trans hix')
  exact hall

theorem Accounted.same (ha : r.Accounted) (h : r.Sound) {r' : Region} (hsame : SameValues r r') :
    r'.Accounted := by
  intro id hid ix hix key
  rw [hsame.registry] at hid hix
  rw [(hsame.undisturbed h).current]
  exact ha id hid ix hix key

/-- With nobody in the gaps this is the creation by itself. -/
theorem createIndex_eq_amid (r : Region) (d : IndexDefinition) :
    quiet.createIndex d r = r.createIndexAmid d ⟨[], fun _ => [], []⟩ := by
  have hquiet : interrupted [] [] = quiet := by
    have hlistener : (interrupted [] []).listener = quiet.listener := by
      funext installed arrival s
      obtain ⟨checkpoint, _, _, _, _⟩ := arrival
      cases checkpoint <;> rfl
    exact congrArg (fun l => ({ quiet with listener := l } : Host Region)) hlistener
  rw [← hquiet, createIndex_interrupted]

theorem Steady.accounted (h : r.Steady) (hsync : r.settings.maintenance = .synchronous) (ha : r.Accounted)
    (a : Action) : (a.run r).Accounted := by
  cases a with
  | put key value => exact ha.mutate h hsync (.put key value)
  | destroy key => exact ha.mutate h hsync (.destroy key)
  | get key => exact ha.same h.sound (get_same _ key)
  | createIndex d =>
    rcases createIndex_spec h.sound h.live h.unlocked d with
      ⟨e, he⟩ | ⟨id, c, ix, g', r', hok, hsame, -, -, -, -, hx⟩
    · simpa only [Action.run, he] using ha
    · rcases createIndexAmid_spec h hsync d ⟨[], fun _ => [], []⟩ with
        ⟨e, -, he⟩ | ⟨_, ix', _, hamid, -, hpub, -, -, hall⟩
      · rw [← createIndex_eq_amid, hok] at he
        cases he
      · rw [← createIndex_eq_amid, hok] at hamid
        cases hamid
        simp only [Action.run, hok]
        intro j hj ix'' hix'' key
        rcases hx.target hj hix'' with ⟨rfl, rfl⟩ | ⟨hj, hix⟩
        · obtain ⟨-, hix'⟩ := Registry.mem_publishedIndexes.1 hpub
          obtain rfl := Option.some.inj (hix'.symm.trans hix'')
          exact hall key
        · rw [current_withRegistry, (hsame.undisturbed h.sound).current]
          exact ha j hj ix'' hix key
  | removeIndex name =>
    rcases removeIndex_spec r name with ⟨e, he⟩ | ⟨id, g', hok, hr⟩
    · simpa only [Action.run, he] using ha
    · simp only [Action.run, hok]
      intro j hj ix hix key
      obtain ⟨hj, hix⟩ := hr.target h.registry hj hix
      exact ha j hj ix hix key

/-- After any run of complete operations of a synchronous region, every target accounts for every key. -/
theorem Opened.accounted {r₀ : Region} (h : r₀.Opened) (hsync : r₀.settings.maintenance = .synchronous)
    (actions : List Action) :
    (r₀.after actions).Steady ∧ (r₀.after actions).settings.maintenance = .synchronous ∧
      (r₀.after actions).Accounted := by
  obtain ⟨hsteady, hg⟩ := h.spec
  have hnone : r₀.Accounted := by
    intro id hid
    rw [hg] at hid
    cases hid
  clear h hg
  induction actions generalizing r₀ with
  | nil => exact ⟨hsteady, hsync, hnone⟩
  | cons a rest ih =>
    have htransition := hsteady.transition a
    exact ih (htransition.settings ▸ hsync) (htransition.steady hsteady) (hsteady.accounted hsync hnone a)

/-! ## Creation -/

/-- **No update is lost while an index is created.** In a synchronous region a creation is refused before
anything is done, or else, whatever complete mutations come between its steps, it publishes an index that
stands to every entry as an index does that was told of the current value: it keeps the slots of the value,
or, being a primary-key index, refused them and marks the key, or has none for a value without projection;
and it has nothing of a key without a value. -/
theorem Opened.no_update_lost {r₀ : Region} (h : r₀.Opened) (hsync : r₀.settings.maintenance = .synchronous)
    (actions : List Action) (d : IndexDefinition) (gaps : Interlude) :
    (∃ e, (r₀.after actions).beginIndex d = .error e ∧
      (r₀.after actions).createIndexAmid d gaps = (.error e, r₀.after actions)) ∨
    ∃ id ix r', (r₀.after actions).createIndexAmid d gaps = (.ok id, r') ∧
      (id, ix) ∈ r'.registry.publishedIndexes ∧ ix.state = .ready ∧ d.compile = .ok ix.compiled ∧
      ∀ key, (r'.readValue key).1 = .ok (r'.current key) ∧
        (∀ slot, ix.store.occurrences slot key = (ix.slotsAt key).count slot) ∧
        match r'.current key with
        | none => ix.slotsAt key = [] ∧ key ∉ ix.degraded
        | some value =>
          (ix.project value = .ok (ix.slotsAt key) ∧ key ∉ ix.degraded) ∨
          (ix.kind = .primaryKey ∧ (∃ slots, ix.project value = .ok slots) ∧ ix.slotsAt key = [] ∧
            key ∈ ix.degraded) ∨
          (∃ fault, ix.project value = .error fault ∧ ix.slotsAt key = [] ∧ key ∉ ix.degraded) := by
  obtain ⟨hsteady, hsettings, -⟩ := h.accounted hsync actions
  rcases createIndexAmid_spec hsteady hsettings d gaps with
    hrefused | ⟨id, ix, r', hcreate, hsteady', hpub, hready, hc, hall⟩
  · exact .inl hrefused
  · refine .inr ⟨id, ix, r', hcreate, hpub, hready, hc, ?_⟩
    intro key
    obtain ⟨hid, hix⟩ := hsteady'.registry.mem_published hpub
    have hfiled := (hsteady'.registry.index hid hix).1.occurrences
    refine ⟨(readValue_spec hsteady'.sound key).1, fun slot => hfiled slot key, ?_⟩
    have haccounts := hall key
    cases hv : r'.current key with
    | none =>
      rw [hv] at haccounts
      exact haccounts.absent
    | some value =>
      rw [hv] at haccounts
      cases haccounts with
      | mapped hp hd => exact .inl ⟨hp, hd⟩
      | refused hk hp hv hs hd => exact .inr (.inl ⟨hk, ⟨_, hp⟩, hs, hd⟩)
      | excluded hp hs hd => exact .inr (.inr ⟨_, hp, hs, hd⟩)

/-- A key that was there when the keys were listed finds its slot taken by one that came before, and stays
marked although that one is gone in the end. -/
theorem Opened.no_update_lost_refused : ∃ id ix r',
    ((Region.blank .synchronous).after [.put (.int 1) (valued 1)]).createIndexAmid ownerDefinition
      ⟨[.put (.int 2) (valued 1)], fun _ => [], [.destroy (.int 2)]⟩ = (.ok id, r') ∧
    (id, ix) ∈ r'.registry.publishedIndexes ∧ r'.current (.int 1) = some (valued 1) ∧
    ix.slotsAt (.int 1) = [] ∧ .int 1 ∈ ix.degraded ∧
    r'.current (.int 2) = none ∧ ix.slotsAt (.int 2) = [] := by
  rcases no_update_lost (opened_blank .synchronous) rfl [.put (.int 1) (valued 1)] ownerDefinition
    ⟨[.put (.int 2) (valued 1)], fun _ => [], [.destroy (.int 2)]⟩ with
    ⟨e, he, -⟩ | ⟨id, ix, r', hcreate, hpub, -, -, hall⟩
  · cases he
  · obtain rfl : _ = r' := (Prod.mk.inj hcreate).2
    obtain ⟨rfl, rfl⟩ := Prod.mk.inj (List.mem_singleton.1 hpub)
    exact ⟨_, _, _, hcreate, hpub, rfl, rfl, List.mem_singleton.2 rfl, rfl, (hall (.int 2)).2.2.1⟩

end Region

end IndexedStore
