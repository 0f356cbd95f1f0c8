import IndexedStore.Proofs.Region.Lifecycle

/-!
# Definitions built in a row

What becomes of the pending definitions of a region is decided by the definitions of the indexes there are: one with
the name of such an index, or else with its signature, fails, and any other is built and is an index for those after
it. `attempts` says so on lists of definitions, and `createDefined_spec` that `IndexManager::create_defined` follows
it, when nothing else is in progress and the entries can be read.
-/

namespace IndexedStore

/-! ## Attempts -/

/-- Why an index cannot be begun where there are indexes of the given definitions, if it cannot. -/
def CompiledDefinition.refusal? (c : CompiledDefinition) (region : String) (known : List CompiledDefinition) :
    Option Error :=
  if ∃ k ∈ known, k.name = c.name then some (.nameTaken c.name region)
  else (known.find? (·.signature = c.signature)).map fun k => .duplicateIndex c.name k.name

/-- A definition and what became of it. -/
abbrev Attempt := IndexDefinition × Except Error IndexId

/-- What becomes of definitions one after another, where there are indexes of the definitions in `known`, and
the next place is `next`. -/
def attempts (region : String) (known : List CompiledDefinition) (next : IndexId) :
    List IndexDefinition → List Attempt
  | [] => []
  | d :: rest =>
    match d.compile with
    | .error fault => (d, .error (.parse fault)) :: attempts region known next rest
    | .ok c =>
      match c.refusal? region known with
      | some e => (d, .error e) :: attempts region known next rest
      | none => (d, .ok next) :: attempts region (known ++ [c]) (next + 1) rest

namespace Attempt

/-- The index that was built, and its definition. -/
def built? (a : Attempt) : Option (IndexId × CompiledDefinition) :=
  match a.2, a.1.compile with
  | .ok id, .ok c => some (id, c)
  | _, _ => none

def failure? (region : String) (a : Attempt) : Option IndexFailure :=
  match a.2 with
  | .ok _ => none
  | .error e => some ⟨region, a.1.name, e⟩

end Attempt

namespace CompiledDefinition

variable {c : CompiledDefinition} {region : String} {known : List CompiledDefinition}

theorem refusal?_name_iff :
    c.refusal? region known = some (.nameTaken c.name region) ↔ ∃ k ∈ known, k.name = c.name := by
  unfold refusal?
  split
  · simp [*]
  · rename_i hname
    simp only [hname, iff_false]
    cases known.find? (·.signature = c.signature) <;> simp

theorem refusal?_signature_iff :
    (∃ existing, c.refusal? region known = some (.duplicateIndex c.name existing)) ↔
      (∀ k ∈ known, k.name ≠ c.name) ∧ ∃ k ∈ known, k.signature = c.signature := by
  unfold refusal?
  split
  · rename_i hname
    obtain ⟨k, hk, hname⟩ := hname
    simp only [Option.some.injEq, reduceCtorEq, exists_false, false_iff]
    exact fun h => h.1 k hk hname
  · rename_i hname
    have hfree : ∀ k ∈ known, k.name ≠ c.name := fun k hk he => hname ⟨k, hk, he⟩
    cases hf : known.find? (·.signature = c.signature) with
    | none =>
      simp only [Option.map_none, reduceCtorEq, exists_false, false_iff]
      rintro ⟨-, k, hk, hsignature⟩
      exact absurd hsignature (by simpa using List.find?_eq_none.1 hf k hk)
    | some k =>
      have hsignature : k.signature = c.signature := by simpa using List.find?_some hf
      exact ⟨fun _ => ⟨hfree, k, List.mem_of_find?_eq_some hf, hsignature⟩, fun _ => ⟨k.name, rfl⟩⟩

theorem refusal?_none_iff :
    c.refusal? region known = none ↔ ∀ k ∈ known, k.name ≠ c.name ∧ k.signature ≠ c.signature := by
  unfold refusal?
  split
  · rename_i hname
    obtain ⟨k, hk, hname⟩ := hname
    simp only [reduceCtorEq, false_iff]
    exact fun h => (h k hk).1 hname
  · rename_i hname
    have hfree : ∀ k ∈ known, k.name ≠ c.name := fun k hk he => hname ⟨k, hk, he⟩
    simp only [Option.map_eq_none_iff, List.find?_eq_none, decide_eq_true_eq]
    exact ⟨fun h k hk => ⟨hfree k hk, h k hk⟩, fun h k hk => (h k hk).2⟩

end CompiledDefinition

section Attempts

variable {region : String} {known : List CompiledDefinition} {next : IndexId} {definitions : List IndexDefinition}

/-- Each definition is attempted once, in order. -/
theorem map_fst_attempts : (attempts region known next definitions).map (·.1) = definitions := by
  induction definitions generalizing known next with
  | nil => rfl
  | cons d rest ih =>
    unfold attempts
    split
    · simp [ih]
    · split <;> simp [ih]

/-- Each attempt ends in an index or in a failure. -/
theorem length_attempts :
    ((attempts region known next definitions).filterMap Attempt.built?).length +
      ((attempts region known next definitions).filterMap (Attempt.failure? region)).length = definitions.length := by
  have hfailed : ∀ (d : IndexDefinition) (e : Error) (rest : List Attempt),
      (((d, .error e) :: rest : List Attempt).filterMap Attempt.built?).length +
        (((d, .error e) :: rest : List Attempt).filterMap (Attempt.failure? region)).length =
      (rest.filterMap Attempt.built?).length + (rest.filterMap (Attempt.failure? region)).length + 1 := by
    intro d e rest
    have hsome : Attempt.failure? region (d, .error e) = some ⟨region, d.name, e⟩ := rfl
    rw [List.filterMap_cons_none rfl, List.filterMap_cons_some hsome, List.length_cons]
    rfl
  induction definitions generalizing known next with
  | nil => rfl
  | cons d rest ih =>
    cases hc : d.compile with
    | error fault => simp only [attempts, hc, hfailed, ih, List.length_cons]
    | ok c =>
      cases hr : c.refusal? region known with
      | some e => simp only [attempts, hc, hr, hfailed, ih, List.length_cons]
      | none =>
        have hsome : Attempt.built? (d, .ok next) = some (next, c) := by simp only [Attempt.built?, hc]
        have hnone : Attempt.failure? region (d, .ok next) = none := rfl
        simp only [attempts, hc, hr]
        rw [List.filterMap_cons_some hsome, List.filterMap_cons_none hnone, List.length_cons, List.length_cons, ← ih]
        exact Nat.add_right_comm _ 1 _

/-- What becomes of a definition is decided by the indexes there are, and it is one more of them if it is built. -/
theorem attempts_cons (region : String) (known : List CompiledDefinition) (next : IndexId) (d : IndexDefinition)
    (rest : List IndexDefinition) :
    ∃ o next', attempts region known next (d :: rest) =
        (d, o) :: attempts region (known ++ (Attempt.built? (d, o)).toList.map (·.2)) next' rest ∧
      ∀ c, d.compile = .ok c → match c.refusal? region known with
        | some e => o = .error e
        | none => ∃ id, o = .ok id := by
  have hfailed : ∀ e, known ++ (Attempt.built? (d, .error e)).toList.map (·.2) = known := fun e => by
    simp [Attempt.built?]
  cases hc : d.compile with
  | error fault => exact ⟨.error (.parse fault), next, by simp only [attempts, hc, hfailed], by simp⟩
  | ok c =>
    cases hr : c.refusal? region known with
    | some e =>
      refine ⟨.error e, next, by simp only [attempts, hc, hr, hfailed], fun c' hc' => ?_⟩
      rw [← Except.ok.inj hc', hr]
    | none =>
      refine ⟨.ok next, next + 1, by simp [attempts, hc, hr, Attempt.built?], fun c' hc' => ?_⟩
      rw [← Except.ok.inj hc', hr]
      exact ⟨next, rfl⟩

/-- What becomes of a definition is decided by the indexes that were there and by those built before it. -/
theorem attempts_split {before later : List Attempt} {d : IndexDefinition} {o : Except Error IndexId}
    {c : CompiledDefinition} (hc : d.compile = .ok c)
    (h : attempts region known next definitions = before ++ (d, o) :: later) :
    match c.refusal? region (known ++ (before.filterMap Attempt.built?).map (·.2)) with
    | some e => o = .error e
    | none => ∃ id, o = .ok id := by
  induction definitions generalizing known next before with
  | nil => simp [attempts] at h
  | cons first rest ih =>
    obtain ⟨o', next', hcons, hdecided⟩ := attempts_cons region known next first rest
    rw [hcons] at h
    cases before with
    | nil =>
      obtain ⟨hfirst, -⟩ := List.cons.inj h
      obtain ⟨rfl, rfl⟩ := Prod.mk.inj hfirst
      simpa using hdecided c hc
    | cons a before =>
      obtain ⟨rfl, hrest⟩ := List.cons.inj h
      have hknown : known ++ (((first, o') :: before).filterMap Attempt.built?).map (·.2) =
          known ++ (Attempt.built? (first, o')).toList.map (·.2) ++ (before.filterMap Attempt.built?).map (·.2) := by
        rw [List.append_assoc, ← List.map_append]
        cases hb : Attempt.built? (first, o') with
        | none => rw [List.filterMap_cons_none hb]; rfl
        | some built => rw [List.filterMap_cons_some hb]; rfl
      rw [hknown]
      exact ih hrest

end Attempts

/-! ## The indexes of a region that is at rest -/

namespace Registry

variable {g g' : Registry} {id : IndexId}

/-- The published indexes, by place and definition. -/
def listed (g : Registry) : List (IndexId × CompiledDefinition) :=
  g.publishedIndexes.map fun (id, ix) => (id, ix.compiled)

/-- The definitions that a new index may not conflict with. -/
def knownDefinitions (g : Registry) : List CompiledDefinition := g.listed.map (·.2)

theorem listed_eq (g : Registry) : g.listed = g.published.filterMap fun id => (g.compiledOf? id).map (id, ·) := by
  simp only [listed, publishedIndexes, indexesAt, compiledOf?, List.map_filterMap, Option.map_map]
  rfl

theorem Standing.listed (h : Standing g g') : g'.listed = g.listed := by
  simp only [listed_eq, h.published, h.compiled]

/-- No index is being filled, and every published one is there. -/
structure Idle (g : Registry) : Prop where
  building : g.building = []
  published : ∀ id ∈ g.published, id < g.all.length

/-- Without pending definitions a conflict is one with a published index. -/
theorem Idle.conflict?_eq (h : g.Idle) (hp : g.pending = []) (region : String) (c : CompiledDefinition) :
    g.conflict? region c = c.refusal? region g.knownDefinitions := by
  have hknown : g.known.map (·.compiled) = g.knownDefinitions := by
    rw [known, h.building, List.append_nil, knownDefinitions, Registry.listed, List.map_map, List.map_map]
    rfl
  have hname : (g.known.any (·.name = c.name) = true ∨ g.pending.any (·.name = c.name) = true) ↔
      ∃ k ∈ g.knownDefinitions, k.name = c.name := by
    rw [hp, ← hknown]
    constructor
    · rintro (hn | hn)
      · obtain ⟨ix, hix, he⟩ := List.any_eq_true.1 hn
        exact ⟨ix.compiled, List.mem_map_of_mem hix, of_decide_eq_true he⟩
      · cases hn
    · rintro ⟨k, hk, he⟩
      obtain ⟨ix, hix, rfl⟩ := List.mem_map.1 hk
      exact .inl (List.any_eq_true.2 ⟨ix, hix, decide_eq_true he⟩)
  have hsignature : g.knownDefinitions.find? (·.signature = c.signature) =
      (g.known.find? (·.signature = c.signature)).map (·.compiled) := by
    rw [← hknown, List.find?_map]
    rfl
  unfold conflict? CompiledDefinition.refusal?
  simp only [hname]
  split
  · rfl
  · rw [hsignature]
    cases g.known.find? (·.signature = c.signature) <;> rfl

/-- A registry with one index more, which is the last published. -/
structure Grown (g : Registry) (id : IndexId) (c : CompiledDefinition) (g' : Registry) : Prop where
  place : id = g.all.length
  size : g'.all.length = g.all.length + 1
  published : g'.published = g.published ++ [id]
  building : g'.building = g.building
  pending : g'.pending = g.pending
  compiled : ∀ j, g'.compiledOf? j = if j = id then some c else g.compiledOf? j

theorem Grown.listed {c : CompiledDefinition} (h : g.Grown id c g') (hi : g.Idle) :
    g'.listed = g.listed ++ [(id, c)] := by
  rw [listed_eq, listed_eq, h.published, List.filterMap_append]
  congr 1
  · refine List.filterMap_congr fun j hj => ?_
    have hne : j ≠ id := by
      rw [h.place]
      exact Nat.ne_of_lt (hi.published j hj)
    rw [h.compiled, if_neg hne]
  · simp [h.compiled]

theorem Grown.idle {c : CompiledDefinition} (h : g.Grown id c g') (hi : g.Idle) : g'.Idle where
  building := h.building.trans hi.building
  published j hj := by
    rw [h.published, List.mem_append, List.mem_singleton] at hj
    rw [h.size]
    rcases hj with hj | rfl
    · exact Nat.lt_succ_of_lt (hi.published j hj)
    · rw [h.place]; exact Nat.lt_succ_self _

end Registry

namespace Region

/-! ## Reading -/

/-- What reading an evicted value gives. -/
theorem faultIn_outcome (r : Region) (key : Key) : (r.faultIn key).1 = match r.stored key with
    | some value => .ok value
    | none => .error (if r.disk.isSome then .notInBackingStore key else .noBackingStore key) := by
  unfold faultIn stored
  cases r.disk with
  | none => rfl
  | some disk =>
    simp only [BackingStore.read, Option.bind_some]
    cases Table.find? key disk.entries <;> rfl

/-- What reading an entry gives does not depend on the indexes. -/
theorem SameEntries.snapshot_eq {r r' : Region} (h : SameEntries r r') (key : Key) :
    (r'.snapshot key).1 = (r.snapshot key).1 := by
  have hfault : (r'.faultIn key).1 = (r.faultIn key).1 := by
    rw [faultIn_outcome, faultIn_outcome, h.stored, h.disk]
  unfold snapshot ensureLive
  rw [h.destroyed, h.entries, h.path]
  cases r.destroyed with
  | true => rfl
  | false =>
    simp only [Bool.false_eq_true, if_false]
    rcases r.entries.find? key with _ | ⟨value | _, _ | _⟩
    · rfl
    · rfl
    · rfl
    · -- only an evicted value is looked for elsewhere
      simp only [Bool.false_eq_true, if_false]
      generalize r.faultIn key = read at hfault
      generalize r'.faultIn key = read' at hfault
      obtain ⟨_ | value, _⟩ := read <;> obtain ⟨_ | value', _⟩ := read' <;> cases hfault <;> rfl
    · rfl

/-- A region whose entries can all be read. -/
def Readable (r : Region) : Prop := ∀ key ∈ r.keys, ∃ snapshot, (r.snapshot key).1 = .ok snapshot

theorem SameEntries.readable {r r' : Region} (h : SameEntries r r') (hread : r.Readable) : r'.Readable := by
  intro key hkey
  rw [keys, h.entries] at hkey
  rw [h.snapshot_eq]
  exact hread key hkey

/-- A scan of entries that can be read comes to its end. -/
theorem scanEntries_ok {r : Region} {keys : List Key}
    (hread : ∀ key ∈ keys, ∃ snapshot, (r.snapshot key).1 = .ok snapshot) (id : IndexId) (report : BuildReport) :
    ∃ report', (r.scanEntries id report keys).1 = .ok report' := by
  induction keys generalizing r report with
  | nil => exact ⟨report, rfl⟩
  | cons key rest ih =>
    have hentry := scanEntry_scanned r id report key
    obtain ⟨snapshot, hsnapshot⟩ := hread key (by simp)
    obtain ⟨report', hreport⟩ : ∃ report', (r.scanEntry id report key).1 = .ok report' := by
      unfold scanEntry
      generalize r.snapshot key = read at hsnapshot
      obtain ⟨_ | ⟨_ | value, fromDisk⟩, r'⟩ := read
      · cases hsnapshot
      · exact ⟨_, rfl⟩
      · simp only
        split <;> exact ⟨_, rfl⟩
    unfold scanEntries
    generalize r.scanEntry id report key = scanned at hentry hreport
    obtain ⟨_, r'⟩ := scanned
    simp only at hreport
    rw [hreport]
    refine ih (fun k hk => ?_) report'
    rw [hentry.snapshot_eq]
    exact hread k (List.mem_cons_of_mem _ hk)

/-! ## Creations -/

theorem endIndex_sameEntries (r : Region) (id : IndexId) (scanned : Except Error BuildReport) :
    SameEntries r (r.endIndex id scanned).2 := by
  cases scanned <;> exact sameEntries_withRegistry r _

/-- A creation leaves the entries as they are, whether or not it is refused. -/
theorem createIndex_sameEntries (d : IndexDefinition) (r : Region) : SameEntries r (quiet.createIndex d r).2 := by
  unfold Host.createIndex
  rw [show quiet.region r = r from rfl]
  cases hb : r.beginIndex d with
  | error e => exact .refl r
  | ok begun =>
    obtain ⟨id, r₁⟩ := begun
    obtain ⟨c, -, -, -, rfl⟩ := beginIndex_spec hb
    let g := (r.registry.enter (r.newIndex c)).2
    have hscan := scanEntries_scanned (r.withRegistry g) id .empty (r.withRegistry g).keys
    have hcreated := ((sameEntries_withRegistry r g).trans hscan.toSameEntries).trans
      (endIndex_sameEntries _ id ((r.withRegistry g).scan id).1)
    simp only [Host.run, quiet, Host.alone]
    split <;> rename_i houtcome <;> rw [← (Prod.mk.inj houtcome).2] <;> exact hcreated

/-- An index that can be begun is built, when the entries can be read. -/
theorem createIndex_grown {r r₁ : Region} (hread : r.Readable) (hi : r.registry.Idle) {d : IndexDefinition}
    {id : IndexId} {c : CompiledDefinition} (hc : d.compile = .ok c) (hb : r.beginIndex d = .ok (id, r₁)) :
    ∃ r', quiet.createIndex d r = (.ok id, r') ∧ r.registry.Grown id c r'.registry := by
  obtain ⟨c', hc', -, rfl, rfl⟩ := beginIndex_spec hb
  obtain rfl : c = c' := Except.ok.inj (hc.symm.trans hc')
  let blank := r.newIndex c
  let begun := r.withRegistry (r.registry.enter blank).2
  have hscan := scanEntries_scanned begun r.registry.all.length .empty begun.keys
  obtain ⟨report, hreport⟩ := scanEntries_ok ((sameEntries_withRegistry r _).readable hread : begun.Readable)
    r.registry.all.length .empty
  let scanned := (begun.scan r.registry.all.length).2
  have hscanned : begun.scan r.registry.all.length = (.ok report, scanned) := Prod.ext hreport rfl
  refine ⟨scanned.withRegistry (scanned.registry.publish r.registry.all.length report), ?_, ?_⟩
  · unfold Host.createIndex
    rw [show quiet.region r = r from rfl, hb]
    simp only [Host.run, quiet, Host.alone]
    rw [show (r.withRegistry (r.registry.enter blank).2).scan r.registry.all.length = _ from hscanned]
    rfl
  · have hstanding : begun.registry.Standing scanned.registry := hscan.standing
    refine ⟨rfl, ?_, ?_, ?_, hscan.pending, fun j => ?_⟩
    · rw [registry_withRegistry, Registry.size_publish, hstanding.size]
      exact List.length_append
    · rw [registry_withRegistry]
      exact congrArg (· ++ [r.registry.all.length]) hstanding.published
    · have hbuilding : begun.registry.building = [r.registry.all.length] := by
        show r.registry.building ++ _ = _
        rw [hi.building]
        rfl
      show scanned.registry.building.erase r.registry.all.length = r.registry.building
      rw [hstanding.building, hbuilding, hi.building]
      simp
    · rw [registry_withRegistry, Registry.compiledOf?_publish, hstanding.compiled]
      exact Registry.compiledOf?_enter blank

/-- **What becomes of one definition is decided by the published indexes.** -/
theorem createIndex_attempt {r : Region} (hread : r.Readable) (hi : r.registry.Idle)
    (hp : r.registry.pending = []) {d : IndexDefinition} {c : CompiledDefinition} (hc : d.compile = .ok c)
    (hpath : c.regionPath = r.path) :
    match c.refusal? r.path r.registry.knownDefinitions with
    | some e => quiet.createIndex d r = (.error e, r)
    | none => ∃ r', quiet.createIndex d r = (.ok r.registry.all.length, r') ∧
        r.registry.Grown r.registry.all.length c r'.registry := by
  have hbegin : r.beginIndex d = match c.refusal? r.path r.registry.knownDefinitions with
      | some e => .error e
      | none => .ok (r.registry.all.length,
          r.withRegistry (r.registry.enter (r.newIndex c)).2) := by
    unfold beginIndex
    simp only [hc, hpath, ne_eq, not_true_eq_false, if_false, hi.conflict?_eq hp]
    cases c.refusal? r.path r.registry.knownDefinitions <;> rfl
  cases hr : c.refusal? r.path r.registry.knownDefinitions with
  | some e =>
    rw [hr] at hbegin
    unfold Host.createIndex
    rw [show quiet.region r = r from rfl, hbegin]
  | none =>
    rw [hr] at hbegin
    exact createIndex_grown hread hi hc hbegin

/-- **Definitions built in a row fare as `attempts` says**, and the indexes built are published after those that
were there. -/
theorem createEach_spec {r : Region} (hread : r.Readable) (hi : r.registry.Idle) (hp : r.registry.pending = [])
    {definitions : List IndexDefinition}
    (hd : ∀ d ∈ definitions, ∃ c, d.compile = .ok c ∧ c.regionPath = r.path) :
    let attempted := attempts r.path r.registry.knownDefinitions r.registry.all.length definitions
    let outcome := quiet.createEach definitions r
    outcome.1 = ((attempted.filterMap Attempt.built?).map (·.1), attempted.filterMap (Attempt.failure? r.path)) ∧
      SameEntries r outcome.2 ∧ outcome.2.registry.Idle ∧ outcome.2.registry.pending = [] ∧
      outcome.2.registry.listed = r.registry.listed ++ attempted.filterMap Attempt.built? := by
  induction definitions generalizing r with
  | nil => exact ⟨rfl, .refl r, hi, hp, (List.append_nil _).symm⟩
  | cons d rest ih =>
    obtain ⟨c, hc, hpath⟩ := hd d (by simp)
    have hrest : ∀ d ∈ rest, ∃ c, d.compile = .ok c ∧ c.regionPath = r.path := fun d' hd' =>
      hd d' (List.mem_cons_of_mem _ hd')
    have hattempt := createIndex_attempt hread hi hp hc hpath
    have hsame := createIndex_sameEntries d r
    intro attempted outcome
    cases hr : c.refusal? r.path r.registry.knownDefinitions with
    | some e =>
      rw [hr] at hattempt
      have hattempted : attempted = (d, .error e) ::
          attempts r.path r.registry.knownDefinitions r.registry.all.length rest := by
        simp only [attempted, attempts, hc, hr]
      have houtcome : outcome = (((quiet.createEach rest r).1.1, ⟨r.path, d.name, e⟩ ::
          (quiet.createEach rest r).1.2), (quiet.createEach rest r).2) := by
        simp only [outcome, Host.createEach, hattempt]
        rfl
      obtain ⟨hfirst, hothers⟩ := ih hread hi hp hrest
      rw [hattempted, houtcome, hfirst]
      exact ⟨rfl, hothers⟩
    | none =>
      rw [hr] at hattempt
      obtain ⟨r', hcreate, hgrown⟩ := hattempt
      replace hsame : SameEntries r r' := by rwa [hcreate] at hsame
      have hpath' : r'.path = r.path := hsame.path
      have hbuilt : Attempt.built? (d, .ok r.registry.all.length) = some (r.registry.all.length, c) := by
        simp only [Attempt.built?, hc]
      have hknown : r'.registry.knownDefinitions = r.registry.knownDefinitions ++ [c] := by
        simp [Registry.knownDefinitions, hgrown.listed hi]
      have hattempted : attempted = (d, .ok r.registry.all.length) ::
          attempts r'.path r'.registry.knownDefinitions r'.registry.all.length rest := by
        simp only [attempted, attempts, hc, hr, hknown, hpath', hgrown.size]
      have houtcome : outcome = ((r.registry.all.length :: (quiet.createEach rest r').1.1,
          (quiet.createEach rest r').1.2), (quiet.createEach rest r').2) := by
        simp only [outcome, Host.createEach, hcreate]
      obtain ⟨hfirst, hentries, hidle, hpending, hlisted⟩ := ih (hsame.readable hread) (hgrown.idle hi)
        (hgrown.pending.trans hp) (by rwa [hpath'])
      rw [hattempted, houtcome, hfirst]
      refine ⟨?_, hsame.trans hentries, hidle, hpending, ?_⟩
      · rw [hpath', List.filterMap_cons_some hbuilt]; rfl
      · rw [hlisted, hgrown.listed hi, List.append_assoc, List.filterMap_cons_some hbuilt]
        rfl

/-- The attempts at the pending definitions of a region. -/
def pendingAttempts (r : Region) : List Attempt :=
  attempts r.path r.registry.knownDefinitions r.registry.all.length r.registry.pending

/-- A region on which no creation is in progress, and whose pending definitions are for it. -/
structure AtRest (r : Region) : Prop where
  idle : r.registry.Idle
  pending : ∀ d ∈ r.registry.pending, ∃ c, d.compile = .ok c ∧ c.regionPath = r.path

/-- Building the pending definitions attempts each of them, and leaves none pending. -/
theorem createDefined_spec {r : Region} (hread : r.Readable) (h : r.AtRest) :
    let outcome := quiet.createDefined r
    outcome.1 = ((r.pendingAttempts.filterMap Attempt.built?).map (·.1),
        r.pendingAttempts.filterMap (Attempt.failure? r.path)) ∧
      SameEntries r outcome.2 ∧ outcome.2.registry.Idle ∧ outcome.2.registry.pending = [] ∧
      outcome.2.registry.listed = r.registry.listed ++ r.pendingAttempts.filterMap Attempt.built? := by
  let g : Registry := { r.registry with pending := [] }
  have hsame : SameEntries r (r.withRegistry g) := sameEntries_withRegistry r g
  have hidle : g.Idle := ⟨h.idle.building, h.idle.published⟩
  obtain ⟨hfirst, hentries, hrest⟩ :=
    createEach_spec (r := r.withRegistry g) (hsame.readable hread) hidle rfl h.pending
  exact ⟨hfirst, hsame.trans hentries, hrest⟩

end Region

end IndexedStore
