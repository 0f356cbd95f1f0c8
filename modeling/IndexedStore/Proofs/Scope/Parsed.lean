import IndexedStore.Index.Definition

/-!
# Scopes as they are read

A scope that was read from a text is well scoped: its first iterator is the region's, every other one has
a collection, and a collection starts at an earlier iterator. A path resolved in it starts at one of its
iterators.
-/

namespace IndexedStore

/-- Each of the iterators, of which the first stands at position `from`, has a collection over an earlier
one. -/
def Nested : Nat → List ScopeIterator → Prop
  | _, [] => True
  | start, it :: rest => (∃ c, it.collection = some c ∧ c.iterator < start) ∧ Nested (start + 1) rest

namespace Scope

/-- The region's own iterator first, and then nested ones. -/
def WellScoped (s : Scope) : Prop :=
  ∃ name rest, s.iterators = ⟨name, none⟩ :: rest ∧ Nested 1 rest

theorem locate_lt {iterators : List ScopeIterator} (h : iterators ≠ []) (segments : List String) :
    (locate iterators segments).iterator < iterators.length := by
  have hpos := List.length_pos_iff.2 h
  unfold locate
  split
  · exact hpos
  · split
    · rename_i hi
      exact (List.findIdx?_eq_some_iff_getElem.1 hi).1
    · exact hpos

/-- A path resolved in a scope that was read starts at one of its iterators. -/
theorem WellScoped.resolve_lt {s : Scope} (h : s.WellScoped) (path : Path) :
    (s.resolve path).iterator < s.iterators.length := by
  obtain ⟨name, rest, hits, -⟩ := h
  exact locate_lt (by simp [hits]) _

theorem splitAlias_nil : splitAlias [] = .error (.badIterator "") := rfl

/-- What reading a scope takes: a head with the region, and nested iterators in order. -/
theorem parse_eq_ok_iff {text : List Char} {s : Scope} : parse text = .ok s ↔
    ∃ head parts region name, Text.cutAt ',' (Text.trim text) = head :: parts ∧
      splitAlias (Text.trim head) = .ok (region, name) ∧ regionPathOf region = .ok s.regionPath ∧
      parseIterators [⟨name, none⟩] parts = .ok s.iterators ∧ s.text = String.ofList (Text.trim text) := by
  unfold parse
  simp only [bind, Except.bind, pure, Except.pure, throw, throwThe, MonadExceptOf.throw]
  constructor
  · intro h
    split at h
    · cases h
    · rename_i head parts hcut
      split at h
      · cases h
      · split at h
        · cases h
        · rename_i heading halias
          split at h
          · cases h
          · rename_i path hpath
            split at h
            · cases h
            · rename_i its hits
              cases h
              exact ⟨head, parts, heading.1, heading.2, hcut, halias, hpath, hits, rfl⟩
  · rintro ⟨head, parts, region, name, hcut, halias, hpath, hits, htext⟩
    have hhead : (Text.trim head).isEmpty = false := by
      cases htrim : Text.trim head with
      | nil => rw [htrim, splitAlias_nil] at halias; cases halias
      | cons _ _ => rfl
    rw [hcut]
    simp only [hhead, Bool.false_eq_true, if_false, halias, hpath, hits, ← htext]

/-- What reading a nested iterator takes: a path, and an alias that no earlier iterator has. -/
theorem parseIterator_eq_ok_iff {earlier : List ScopeIterator} {part : List Char} {it : ScopeIterator} :
    parseIterator earlier part = .ok it ↔ ∃ expr path, splitAlias (Text.trim part) = .ok (expr, it.name) ∧
      Path.parse expr = .ok path ∧ (∀ a, it.name = some a → ∀ e ∈ earlier, e.name ≠ some a) ∧
      it.collection = some (locate earlier path.segments) := by
  unfold parseIterator
  simp only [bind, Except.bind, pure, Except.pure, throw, throwThe, MonadExceptOf.throw]
  constructor
  · intro h
    split at h
    · cases h
    · rename_i clause hclause
      split at h
      · cases h
      · rename_i path hpath
        obtain ⟨expr, name⟩ := clause
        simp only at h hpath
        cases name with
        | none =>
          cases h
          exact ⟨expr, path, hclause, hpath, by simp, rfl⟩
        | some a =>
          simp only at h
          split at h
          · cases h
          · rename_i hfresh
            cases h
            refine ⟨expr, path, hclause, hpath, ?_, rfl⟩
            rintro _ ⟨rfl⟩ e he
            simp only [List.any_eq_true, beq_iff_eq, not_exists, not_and] at hfresh
            exact hfresh e he
  · rintro ⟨expr, path, hclause, hpath, hfresh, hcollection⟩
    obtain ⟨name, collection⟩ := it
    simp only at hclause hfresh hcollection
    subst hcollection
    rw [hclause]
    simp only [hpath]
    cases name with
    | none => rfl
    | some a =>
      have hnone : earlier.any (·.name == some a) = false := by
        simpa using hfresh a rfl
      simp only [hnone, Bool.false_eq_true, if_false]

theorem parseIterators_nested {parts : List (List Char)} {earlier all : List ScopeIterator}
    (h : parseIterators earlier parts = .ok all) (hne : earlier ≠ []) :
    ∃ rest, all = earlier ++ rest ∧ Nested earlier.length rest := by
  induction parts generalizing earlier with
  | nil => exact ⟨[], by simpa [parseIterators] using h.symm, trivial⟩
  | cons part parts ih =>
    simp only [parseIterators, bind, Except.bind] at h
    cases hit : parseIterator earlier part with
    | error _ => simp [hit] at h
    | ok it =>
      simp only [hit] at h
      obtain ⟨_, path, -, -, -, hc⟩ := parseIterator_eq_ok_iff.1 hit
      obtain ⟨rest, rfl, hrest⟩ := ih h (by simp)
      refine ⟨it :: rest, by simp, ⟨_, hc, locate_lt hne _⟩, ?_⟩
      simpa using hrest

theorem parse_wellScoped {text : List Char} {s : Scope} (h : parse text = .ok s) : s.WellScoped := by
  obtain ⟨_, _, _, name, -, -, -, hits, -⟩ := parse_eq_ok_iff.1 h
  obtain ⟨rest, hrest, hn⟩ := parseIterators_nested hits (by simp)
  exact ⟨name, rest, by simpa using hrest, hn⟩

end Scope

namespace IndexDefinition

theorem compile_eq_ok_iff {d : IndexDefinition} {c : CompiledDefinition} : d.compile = .ok c ↔
    ∃ scope path, Scope.parse d.scope.toList = .ok scope ∧ Path.parse d.expression.toList = .ok path ∧
      c = ⟨d, scope, path, scope.resolve path⟩ := by
  unfold compile
  simp only [bind, Except.bind, pure, Except.pure]
  constructor
  · intro h
    split at h
    · cases h
    · rename_i scope hs
      split at h
      · cases h
      · rename_i path hp
        exact ⟨scope, path, hs, hp, (Except.ok.inj h).symm⟩
  · rintro ⟨scope, path, hs, hp, rfl⟩
    rw [hs]
    simp only [hp]

/-- What a compiled definition is made of: a scope that was read, and a path resolved in it. -/
theorem compile_spec {d : IndexDefinition} {c : CompiledDefinition} (h : d.compile = .ok c) :
    c.definition = d ∧ c.scope.WellScoped ∧ c.locator = c.scope.resolve c.expression := by
  obtain ⟨_, _, hs, _, rfl⟩ := compile_eq_ok_iff.1 h
  exact ⟨rfl, Scope.parse_wellScoped hs, rfl⟩

end IndexDefinition

end IndexedStore
