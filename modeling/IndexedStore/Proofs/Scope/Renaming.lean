import IndexedStore.Proofs.Scope.Spelling
import Mathlib.Data.List.Nodup

/-!
# Aliases do not matter

Renaming an alias where it is declared and at the head of the paths after that, or leaving the region's alias
out where the next segment names no iterator, gives another wording of the same index
(`Wording.Reworded.resolved`). An index definition and any other with texts so reworded have one signature
(`IndexDefinition.signature_reworded`).

A path before the declaration that begins with the alias's name reads a field of that name, and keeps it:
`renameClauses` renames heads only from the declaration on.
-/

namespace IndexedStore

/-- One name in place of another. -/
def renamed (old new name : String) : String := if name = old then new else name

/-- A path with its first segment renamed. -/
def renameHead (old new : String) : List String → List String
  | [] => []
  | s :: rest => renamed old new s :: rest

def ScopeIterator.rename (old new : String) (it : ScopeIterator) : ScopeIterator :=
  ⟨it.name.map (renamed old new), it.collection⟩

/-- Clauses with an alias renamed, where it is declared and at the heads of paths after its declaration. -/
def renameClauses (old new : String) : Bool → List Clause → List Clause
  | _, [] => []
  | declared, c :: rest =>
    ⟨if declared then renameHead old new c.path else c.path, c.name.map (renamed old new)⟩ ::
      renameClauses old new (declared || c.name == some old) rest

/-- A wording with an alias renamed. -/
def Wording.rename (old new : String) (w : Wording) : Wording :=
  ⟨w.region, w.name.map (renamed old new), renameClauses old new (w.name == some old) w.nested,
    renameHead old new w.expression⟩

/-- Two wordings that differ in one alias, or in the region's alias at the head of one path. -/
inductive Wording.Reworded : Wording → Wording → Prop
  | renamed {w : Wording} {old new : String} (declared : old ∈ w.names) (identifier : isIdentifier new.toList = true)
      (unused : new ∉ w.names ∧ new ∉ w.heads) : Reworded w (w.rename old new)
  | droppedInScope {region name next : String} {before after : List Clause} {rest expression : List String}
      {own : Option String} (unnamed : next ∉ name :: before.filterMap (·.name)) :
      Reworded ⟨region, some name, before ++ ⟨name :: next :: rest, own⟩ :: after, expression⟩
        ⟨region, some name, before ++ ⟨next :: rest, own⟩ :: after, expression⟩
  | droppedInExpression {region name next : String} {nested : List Clause} {rest : List String}
      (unnamed : next ∉ name :: nested.filterMap (·.name)) :
      Reworded ⟨region, some name, nested, name :: next :: rest⟩ ⟨region, some name, nested, next :: rest⟩

/-! ## Renaming -/

section
variable {old new : String}

theorem renamed_inj {m n : String} (hm : m ≠ new) (hn : n ≠ new) : renamed old new m = renamed old new n ↔ m = n := by
  unfold renamed
  split <;> split <;> grind

theorem IsAlias.renamed {name : Option String} (h : IsAlias name) (hnew : isIdentifier new.toList = true) :
    IsAlias (name.map (renamed old new)) := by
  cases name with
  | none => exact h
  | some a =>
    have ha := h a rfl
    rintro _ ⟨⟩
    unfold IndexedStore.renamed
    split
    · exact hnew
    · exact ha

theorem IsPath.renameHead {path : List String} (h : IsPath path) (hnew : isIdentifier new.toList = true) :
    IsPath (renameHead old new path) := by
  obtain ⟨hne, hids⟩ := h
  cases path with
  | nil => exact absurd rfl hne
  | cons s rest =>
    refine ⟨List.cons_ne_nil _ _, List.forall_mem_cons.2 ⟨?_, fun t ht => hids t (List.mem_cons_of_mem _ ht)⟩⟩
    unfold renamed
    split
    · exact hnew
    · exact hids s (by simp)

theorem Clause.sound_of_mem_renameClauses {declared : Bool} {clauses : List Clause}
    (h : ∀ c ∈ clauses, c.Sound) (hnew : isIdentifier new.toList = true) :
    ∀ c ∈ renameClauses old new declared clauses, c.Sound := by
  induction clauses generalizing declared with
  | nil => simp [renameClauses]
  | cons c rest ih =>
    obtain ⟨⟨hpath, hname⟩, hrest⟩ := List.forall_mem_cons.1 h
    refine List.forall_mem_cons.2 ⟨⟨?_, hname.renamed hnew⟩, ih hrest⟩
    split
    · exact hpath.renameHead hnew
    · exact hpath

theorem names_renameClauses (declared : Bool) (clauses : List Clause) :
    (renameClauses old new declared clauses).filterMap (·.name) =
      (clauses.filterMap (·.name)).map (renamed old new) := by
  induction clauses generalizing declared with
  | nil => rfl
  | cons c rest ih =>
    rw [renameClauses]
    cases hc : c.name with
    | none => simpa [hc] using ih _
    | some a => simpa [hc] using ih _

namespace Scope

theorem rename_of_notMem {its : List ScopeIterator} (h : old ∉ namesOf its) : its.map (·.rename old new) = its := by
  refine (List.map_congr_left fun it hit => ?_).trans (List.map_id its)
  obtain ⟨name, collection⟩ := it
  cases name with
  | none => rfl
  | some a =>
    have ha : a ≠ old := by
      rintro rfl
      exact h (mem_namesOf.2 ⟨_, hit, rfl⟩)
    simp [ScopeIterator.rename, renamed, ha]

theorem findIdx?_rename {its : List ScopeIterator} (hnew : new ∉ namesOf its) {s : String} (hs : s ≠ new) :
    (its.map (·.rename old new)).findIdx? (·.name == some (renamed old new s)) =
      its.findIdx? (·.name == some s) := by
  induction its with
  | nil => rfl
  | cons it its ih =>
    have hhead : ((it.rename old new).name == some (renamed old new s)) = (it.name == some s) := by
      cases hname : it.name with
      | none => simp [ScopeIterator.rename, hname]
      | some a =>
        have ha : a ≠ new := by
          rintro rfl
          exact hnew (mem_namesOf.2 ⟨it, by simp, hname⟩)
        rw [ScopeIterator.rename, hname, Option.map_some, Bool.eq_iff_iff]
        simpa using renamed_inj ha hs
    have hrest : new ∉ namesOf its := by
      intro hmem
      obtain ⟨e, he, hname⟩ := mem_namesOf.1 hmem
      exact hnew (mem_namesOf.2 ⟨e, List.mem_cons_of_mem _ he, hname⟩)
    rw [List.map_cons, List.findIdx?_cons, List.findIdx?_cons, hhead, ih hrest]

/-- A path whose first segment is no alias starts at the region's iterator. -/
theorem locate_of_notMem {its : List ScopeIterator} {s : String} (h : s ∉ namesOf its) (rest : List String) :
    locate its (s :: rest) = ⟨0, s :: rest⟩ := by
  have hnone : its.findIdx? (·.name == some s) = none := by
    rw [List.findIdx?_eq_none_iff]
    intro e he
    rw [beq_eq_false_iff_ne]
    intro hname
    exact h (mem_namesOf.2 ⟨e, he, hname⟩)
  rw [locate, hnone]

/-- A path, its first segment renamed along with the aliases if it can be one of them, is resolved as before. -/
theorem locate_rename {its : List ScopeIterator} (hnew : new ∉ namesOf its) {path : List String}
    (hhead : path.head? ≠ some new) :
    locate (its.map (·.rename old new)) (if old ∈ namesOf its then renameHead old new path else path) =
      locate its path := by
  by_cases hold : old ∈ namesOf its
  · rw [if_pos hold]
    cases path with
    | nil => rfl
    | cons s rest =>
      have hs : s ≠ new := by simpa using hhead
      rw [renameHead, locate, locate, findIdx?_rename hnew hs]
      cases hfind : its.findIdx? (·.name == some s) with
      | some i => rfl
      | none =>
        -- the renamed alias is among the iterators, so the first segment is another name
        have hne : s ≠ old := by
          rintro rfl
          obtain ⟨e, he, hname⟩ := mem_namesOf.1 hold
          have := List.findIdx?_eq_none_iff.1 hfind e he
          simp [hname] at this
        rw [renamed, if_neg hne]
  · rw [if_neg hold, rename_of_notMem hold]

/-- Clauses with an alias renamed are placed as before, under the new names. -/
theorem place_renameClauses {earlier : List ScopeIterator} {clauses : List Clause}
    (hnew : new ∉ namesOf (place earlier clauses)) (hheads : ∀ c ∈ clauses, c.path.head? ≠ some new) :
    place (earlier.map (·.rename old new)) (renameClauses old new (decide (old ∈ namesOf earlier)) clauses) =
      (place earlier clauses).map (·.rename old new) := by
  induction clauses generalizing earlier with
  | nil => rfl
  | cons c rest ih =>
    have hearlier : new ∉ namesOf earlier := by
      intro hmem
      rw [namesOf_place] at hnew
      exact hnew (List.mem_append_left _ hmem)
    have hlocate : locate (earlier.map (·.rename old new))
        (if old ∈ namesOf earlier then renameHead old new c.path else c.path) = locate earlier c.path :=
      locate_rename hearlier (hheads c (by simp))
    have hdeclared : (decide (old ∈ namesOf earlier) || c.name == some old) =
        decide (old ∈ namesOf (earlier ++ [⟨c.name, some (locate earlier c.path)⟩])) := by
      rw [Bool.eq_iff_iff, namesOf_append]
      simp [mem_namesOf_singleton]
    simp only [renameClauses, place, decide_eq_true_eq, hlocate, hdeclared]
    rw [← ih hnew fun e he => hheads e (List.mem_cons_of_mem _ he), List.map_append]
    rfl

end Scope

namespace Wording

theorem iterators_rename {w : Wording} (hnew : new ∉ w.names) (hheads : new ∉ w.heads) :
    (w.rename old new).iterators = w.iterators.map (·.rename old new) := by
  rw [← namesOf_iterators] at hnew
  have hclauses : ∀ c ∈ w.nested, c.path.head? ≠ some new := by
    intro c hc hhead
    exact hheads (List.mem_append_left _ (List.mem_filterMap.2 ⟨c, hc, hhead⟩))
  rw [iterators, iterators, ← Scope.place_renameClauses hnew hclauses]
  have hdeclared : (w.name == some old) = decide (old ∈ Scope.namesOf [⟨w.name, none⟩]) := by
    rw [Bool.eq_iff_iff]
    simp [Scope.mem_namesOf_singleton]
  rw [rename, hdeclared]
  rfl

theorem names_rename (w : Wording) : (w.rename old new).names = w.names.map (renamed old new) := by
  rw [names, names, rename, names_renameClauses, List.map_append]
  cases w.name <;> rfl

theorem Sound.rename {w : Wording} (h : w.Sound) (hnew : isIdentifier new.toList = true) :
    (w.rename old new).Sound where
  region := h.region
  name := h.name.renamed hnew
  nested := Clause.sound_of_mem_renameClauses h.nested hnew
  expression := h.expression.renameHead hnew

theorem shape_rename {w : Wording} (hnew : new ∉ w.names) (hheads : new ∉ w.heads) :
    (w.rename old new).shape = w.shape := by
  rw [shape, shape, iterators_rename hnew hheads, List.filterMap_map]
  rfl

theorem locator_rename {w : Wording} (hold : old ∈ w.names) (hnew : new ∉ w.names) (hheads : new ∉ w.heads) :
    (w.rename old new).locator = w.locator := by
  rw [locator, locator, iterators_rename hnew hheads]
  have hhead : w.expression.head? ≠ some new := by
    intro hhead
    exact hheads (List.mem_append_right _ (by simp [hhead]))
  rw [← namesOf_iterators] at hold hnew
  rw [← Scope.locate_rename hnew hhead, if_pos hold]
  rfl

end Wording

end

/-! ## The region's alias left out -/

namespace Scope

theorem place_eq_append (earlier : List ScopeIterator) (clauses : List Clause) :
    ∃ later, place earlier clauses = earlier ++ later := by
  induction clauses generalizing earlier with
  | nil => exact ⟨[], (List.append_nil _).symm⟩
  | cons c rest ih =>
    obtain ⟨later, h⟩ := ih (earlier ++ [⟨c.name, some (locate earlier c.path)⟩])
    exact ⟨_ :: later, by rw [place, h, List.append_assoc, List.singleton_append]⟩

/-- The region's alias before a segment that is no alias changes nothing. -/
theorem locate_region {name next : String} {clauses : List Clause}
    (hnext : next ∉ name :: clauses.filterMap (·.name)) (rest : List String) :
    locate (place [⟨some name, none⟩] clauses) (name :: next :: rest) =
      locate (place [⟨some name, none⟩] clauses) (next :: rest) := by
  have hnotMem : next ∉ namesOf (place [⟨some name, none⟩] clauses) := by
    rw [namesOf_place]
    exact hnext
  rw [locate_of_notMem hnotMem]
  obtain ⟨later, hplace⟩ := place_eq_append [⟨some name, none⟩] clauses
  rw [hplace, List.singleton_append, locate, List.findIdx?_cons, if_pos (beq_self_eq_true _)]

end Scope

theorem IsPath.of_cons {s next : String} {rest : List String} (h : IsPath (s :: next :: rest)) :
    IsPath (next :: rest) :=
  ⟨List.cons_ne_nil _ _, fun t ht => h.2 t (List.mem_cons_of_mem _ ht)⟩

namespace Wording

/-- **Reworded, the aliases are still distinct, and the scope and the expression resolve to the same.** -/
theorem Reworded.resolved {w w' : Wording} (h : w.Reworded w') (hn : w.names.Nodup) :
    w'.names.Nodup ∧ w'.shape = w.shape ∧ w'.locator = w.locator := by
  cases h with
  | renamed declared _ unused =>
    obtain ⟨hnew, hheads⟩ := unused
    refine ⟨?_, shape_rename hnew hheads, locator_rename declared hnew hheads⟩
    rw [names_rename]
    refine hn.map_on fun m hm n hn' hmn => (renamed_inj ?_ ?_).1 hmn
    · rintro rfl
      exact hnew hm
    · rintro rfl
      exact hnew hn'
  | @droppedInScope region name next before after rest expression own unnamed =>
    have hiterators : iterators ⟨region, some name, before ++ ⟨next :: rest, own⟩ :: after, expression⟩ =
        iterators ⟨region, some name, before ++ ⟨name :: next :: rest, own⟩ :: after, expression⟩ := by
      simp only [iterators, Scope.place_append, Scope.place, Scope.locate_region unnamed]
    refine ⟨?_, ?_, ?_⟩
    · rw [names, List.filterMap_append, List.filterMap_cons] at hn ⊢
      exact hn
    · rw [shape, shape, hiterators]
    · rw [locator, locator, hiterators]
  | droppedInExpression unnamed => exact ⟨hn, rfl, (Scope.locate_region unnamed _).symm⟩

theorem Reworded.sound {w w' : Wording} (h : w.Reworded w') (hs : w.Sound) : w'.Sound := by
  cases h with
  | renamed _ identifier _ => exact hs.rename identifier
  | droppedInScope _ =>
    obtain ⟨region, name, nested, expression⟩ := hs
    refine ⟨region, name, ?_, expression⟩
    simp only [List.forall_mem_append, List.forall_mem_cons] at nested ⊢
    obtain ⟨hbefore, ⟨hpath, hown⟩, hafter⟩ := nested
    exact ⟨hbefore, ⟨hpath.of_cons, hown⟩, hafter⟩
  | droppedInExpression _ => exact ⟨hs.region, hs.name, hs.nested, hs.expression.of_cons⟩

end Wording

/-! ## Signatures -/

namespace IndexDefinition

/-- **An index is known by its signature whatever its aliases are called.** The texts of a definition that
compiles have one wording. Any wording that renames an alias of it, or that leaves the region's alias out of a
path, is the wording of some definition; and every definition with such texts compiles, to the same scope, the
same expression and the same signature. -/
theorem signature_reworded {d : IndexDefinition} {c : CompiledDefinition} (h : d.compile = .ok c) :
    ∃ w, (∀ u, d.Reads u ↔ u = w) ∧ ∀ w', w.Reworded w' →
      (∃ d' : IndexDefinition, d'.kind = d.kind ∧ d'.Reads w') ∧
      ∀ d' : IndexDefinition, d'.kind = d.kind → d'.Reads w' →
        ∃ c', d'.compile = .ok c' ∧ c'.scope.shape = c.scope.shape ∧ c'.locator = c.locator ∧
          c'.signature = c.signature := by
  obtain ⟨w, hreads, hnodup, hshape, hlocator⟩ := wording_of_compile h
  refine ⟨w, fun u => ⟨fun hu => hu.unique hreads, fun hu => hu ▸ hreads⟩, fun w' hw => ⟨?_, ?_⟩⟩
  · exact ⟨w'.definition d.name d.kind, rfl, Wording.definition_reads (hw.sound hreads.sound) _ _⟩
  · intro d' hkind hreads'
    obtain ⟨hnodup', hshape', hlocator'⟩ := hw.resolved hnodup
    obtain ⟨c', hcompile, hshape'', hlocator''⟩ := compile_of_reads hreads' hnodup'
    have hsame : c'.scope.shape = c.scope.shape := by rw [hshape'', hshape', hshape]
    have hsame' : c'.locator = c.locator := by rw [hlocator'', hlocator', hlocator]
    refine ⟨c', hcompile, hsame, hsame', ?_⟩
    rw [CompiledDefinition.signature, CompiledDefinition.signature, CompiledDefinition.kind, CompiledDefinition.kind,
      (compile_spec hcompile).1, (compile_spec h).1, hkind, hsame, hsame']

/-- The prices of the items on the shelves of shops. -/
def itemPrices : IndexDefinition := ⟨"prices", .range, "i.price", "/shops s, s.shelves sh, sh.items i"⟩

def itemPricesWording : Wording :=
  ⟨"/shops", some "s", [⟨["s", "shelves"], some "sh"⟩, ⟨["sh", "items"], some "i"⟩], ["i", "price"]⟩

/-- The same with another alias for the shelves. -/
def itemPricesReworded : IndexDefinition :=
  ⟨"prices", .range, "i.price", "/shops s, s.shelves as rack, rack.items i"⟩

theorem signature_reworded_prices : ∃ c c' : CompiledDefinition, itemPrices.compile = .ok c ∧
    itemPricesReworded.compile = .ok c' ∧ c'.scope.shape = c.scope.shape ∧ c'.locator = c.locator ∧
    c'.signature = c.signature := by
  have hreads : itemPrices.Reads itemPricesWording :=
    ⟨⟨_, _, _, rfl, rfl, rfl, .cons ⟨_, _, rfl, rfl, rfl⟩ (.cons ⟨_, _, rfl, rfl, rfl⟩ .nil)⟩, _, rfl, rfl⟩
  have hreworded : itemPricesWording.Reworded (itemPricesWording.rename "sh" "rack") :=
    .renamed (by decide) (by decide) (by decide)
  have hreads' : itemPricesReworded.Reads (itemPricesWording.rename "sh" "rack") :=
    ⟨⟨_, _, _, rfl, rfl, rfl, .cons ⟨_, _, rfl, rfl, rfl⟩ (.cons ⟨_, _, rfl, rfl, rfl⟩ .nil)⟩, _, rfl, rfl⟩
  obtain ⟨c, hc⟩ : ∃ c, itemPrices.compile = .ok c := ⟨_, rfl⟩
  obtain ⟨w, hw, hall⟩ := signature_reworded hc
  obtain rfl := (hw _).1 hreads
  obtain ⟨c', hc', hsame⟩ := (hall _ hreworded).2 itemPricesReworded rfl hreads'
  exact ⟨c, c', hc, hc', hsame⟩

end IndexDefinition

end IndexedStore
