import IndexedStore.Proofs.Scope.Parsed
import Mathlib.Data.List.Forall2

/-!
# Definitions as they are written

A `Wording` is what the texts of an index definition say before any path is resolved: the path and the alias
of the region, the path and the alias of each nested iterator, and the indexed expression. Resolving is a
second step, `Wording.iterators`, which places each iterator after those before it. A definition compiles
exactly if its texts have a wording with distinct aliases, and then to the shape and the locator of that
wording (`IndexDefinition.wording_of_compile`, `IndexDefinition.compile_of_reads`).
-/

namespace IndexedStore

/-- A nested iterator as it is written. -/
@[ext]
structure Clause where
  path : List String
  name : Option String
deriving DecidableEq, Repr

/-- The text of a nested iterator reads as a clause. -/
def Clause.Reads (part : List Char) (c : Clause) : Prop :=
  ∃ expr path, Scope.splitAlias (Text.trim part) = .ok (expr, c.name) ∧ Path.parse expr = .ok path ∧
    path.segments = c.path

/-- A text reads as one clause at most. -/
theorem Clause.Reads.unique {part : List Char} {c c' : Clause} (h : Clause.Reads part c)
    (h' : Clause.Reads part c') : c = c' := by
  obtain ⟨expr, path, hsplit, hpath, hsegments⟩ := h
  obtain ⟨expr', path', hsplit', hpath', hsegments'⟩ := h'
  obtain ⟨rfl, hname⟩ := Prod.mk.inj (Except.ok.inj (hsplit.symm.trans hsplit'))
  obtain rfl := Except.ok.inj (hpath.symm.trans hpath')
  exact Clause.ext (hsegments.symm.trans hsegments') hname

/-- The scope and the expression of an index definition as they are written. -/
@[ext]
structure Wording where
  region : String
  /-- The alias of the region's iterator. -/
  name : Option String
  nested : List Clause
  expression : List String
deriving DecidableEq, Repr

/-- The texts of a definition read as a wording. -/
structure IndexDefinition.Reads (d : IndexDefinition) (w : Wording) : Prop where
  scope : ∃ head parts region, Text.cutAt ',' (Text.trim d.scope.toList) = head :: parts ∧
    Scope.splitAlias (Text.trim head) = .ok (region, w.name) ∧ Scope.regionPathOf region = .ok w.region ∧
    List.Forall₂ Clause.Reads parts w.nested
  expression : ∃ path, Path.parse d.expression.toList = .ok path ∧ path.segments = w.expression

/-- The texts of a definition read as one wording at most. -/
theorem IndexDefinition.Reads.unique {d : IndexDefinition} {w w' : Wording} (h : d.Reads w) (h' : d.Reads w') :
    w = w' := by
  obtain ⟨⟨head, parts, region, hcut, halias, hregion, hreads⟩, path, hpath, hsegments⟩ := h
  obtain ⟨⟨head', parts', region', hcut', halias', hregion', hreads'⟩, path', hpath', hsegments'⟩ := h'
  obtain ⟨rfl, rfl⟩ := List.cons.inj (hcut.symm.trans hcut')
  obtain ⟨rfl, hname⟩ := Prod.mk.inj (Except.ok.inj (halias.symm.trans halias'))
  have hunique : Relator.RightUnique Clause.Reads := fun _ _ _ => Clause.Reads.unique
  obtain rfl := Except.ok.inj (hpath.symm.trans hpath')
  exact Wording.ext (Except.ok.inj (hregion.symm.trans hregion')) hname (hunique.forall₂ hreads hreads')
    (hsegments.symm.trans hsegments')

namespace Scope

/-- Clauses resolved in order, each among the iterators before it. -/
def place (earlier : List ScopeIterator) : List Clause → List ScopeIterator
  | [] => earlier
  | c :: rest => place (earlier ++ [⟨c.name, some (locate earlier c.path)⟩]) rest

/-- The aliases of iterators. -/
def namesOf (iterators : List ScopeIterator) : List String := iterators.filterMap (·.name)

theorem mem_namesOf {iterators : List ScopeIterator} {a : String} :
    a ∈ namesOf iterators ↔ ∃ e ∈ iterators, e.name = some a := List.mem_filterMap

theorem mem_namesOf_singleton {it : ScopeIterator} {a : String} : a ∈ namesOf [it] ↔ it.name = some a := by
  simp [mem_namesOf]

theorem nodup_namesOf_singleton (it : ScopeIterator) : (namesOf [it]).Nodup := by
  cases h : it.name <;> simp [namesOf, h]

theorem namesOf_append (its more : List ScopeIterator) : namesOf (its ++ more) = namesOf its ++ namesOf more :=
  List.filterMap_append

/-- A further alias leaves the aliases distinct if no earlier iterator has it. -/
theorem nodup_namesOf_concat {earlier : List ScopeIterator} {it : ScopeIterator} (hn : (namesOf earlier).Nodup) :
    (namesOf (earlier ++ [it])).Nodup ↔ ∀ a, it.name = some a → ∀ e ∈ earlier, e.name ≠ some a := by
  rw [namesOf_append, List.nodup_append]
  constructor
  · rintro ⟨-, -, hapart⟩ a ha e he hea
    exact hapart a (mem_namesOf.2 ⟨e, he, hea⟩) a (mem_namesOf_singleton.2 ha) rfl
  · intro hfresh
    refine ⟨hn, nodup_namesOf_singleton it, ?_⟩
    rintro a ha _ hb rfl
    obtain ⟨e, he, hea⟩ := mem_namesOf.1 ha
    exact hfresh a (mem_namesOf_singleton.1 hb) e he hea

theorem namesOf_place (earlier : List ScopeIterator) (clauses : List Clause) :
    namesOf (place earlier clauses) = namesOf earlier ++ clauses.filterMap (·.name) := by
  induction clauses generalizing earlier with
  | nil => simp [place]
  | cons c rest ih =>
    rw [place, ih, namesOf_append, List.append_assoc]
    congr 1
    cases hc : c.name <;> simp [namesOf, hc]

theorem place_append (earlier : List ScopeIterator) (first more : List Clause) :
    place earlier (first ++ more) = place (place earlier first) more := by
  induction first generalizing earlier with
  | nil => rfl
  | cons c rest ih => exact ih _

/-- Nested iterators are read as clauses, whose aliases are no earlier ones, and placed in order. -/
theorem parseIterators_eq_ok_iff {earlier all : List ScopeIterator} {parts : List (List Char)}
    (hn : (namesOf earlier).Nodup) : parseIterators earlier parts = .ok all ↔
      ∃ clauses, List.Forall₂ Clause.Reads parts clauses ∧ (namesOf (place earlier clauses)).Nodup ∧
        all = place earlier clauses := by
  induction parts generalizing earlier with
  | nil =>
    constructor
    · intro h
      exact ⟨[], .nil, hn, (Except.ok.inj h).symm⟩
    · rintro ⟨clauses, hreads, -, rfl⟩
      cases hreads
      rfl
  | cons part parts ih =>
    simp only [parseIterators, bind, Except.bind]
    constructor
    · intro h
      cases hit : parseIterator earlier part with
      | error _ => simp [hit] at h
      | ok it =>
        simp only [hit] at h
        obtain ⟨expr, path, hsplit, hpath, hfresh, hcollection⟩ := parseIterator_eq_ok_iff.1 hit
        obtain ⟨clauses, hreads, hnodup, rfl⟩ := (ih ((nodup_namesOf_concat hn).2 hfresh)).1 h
        have hit : it = ⟨it.name, some (locate earlier path.segments)⟩ := by rw [← hcollection]
        refine ⟨⟨path.segments, it.name⟩ :: clauses, .cons ⟨expr, path, hsplit, hpath, rfl⟩ hreads, ?_, ?_⟩
        · rw [place, ← hit]
          exact hnodup
        · rw [place, ← hit]
    · rintro ⟨clauses, hreads, hnodup, rfl⟩
      obtain _ | ⟨⟨expr, path, hsplit, hpath, hsegments⟩, hreads⟩ := hreads
      rename_i c clauses
      have hprefix := hnodup
      rw [place, namesOf_place] at hprefix
      have hname := (List.nodup_append.1 hprefix).1
      have hfresh := (nodup_namesOf_concat hn).1 hname
      have hit : parseIterator earlier part = .ok ⟨c.name, some (locate earlier c.path)⟩ :=
        parseIterator_eq_ok_iff.2 ⟨expr, path, hsplit, hpath, hfresh, by rw [hsegments]⟩
      rw [hit]
      exact (ih hname).2 ⟨clauses, hreads, hnodup, rfl⟩

end Scope

namespace Wording

/-- The iterators of a wording, each path resolved among the iterators before its own. -/
def iterators (w : Wording) : List ScopeIterator := Scope.place [⟨w.name, none⟩] w.nested

/-- The form of the scope that does not depend on aliases. -/
def shape (w : Wording) : ScopeShape := ⟨w.region, w.iterators.filterMap (·.collection)⟩

/-- The indexed expression, resolved among all iterators. -/
def locator (w : Wording) : Locator := Scope.locate w.iterators w.expression

/-- The aliases, in order. -/
def names (w : Wording) : List String := w.name.toList ++ w.nested.filterMap (·.name)

/-- The first segments of the paths. -/
def heads (w : Wording) : List String := w.nested.filterMap (·.path.head?) ++ w.expression.head?.toList

theorem namesOf_iterators (w : Wording) : Scope.namesOf w.iterators = w.names := by
  rw [iterators, Scope.namesOf_place, names]
  cases w.name <;> rfl

end Wording

namespace IndexDefinition

/-- A definition that compiles has a wording, and compiles to what that wording resolves to. -/
theorem wording_of_compile {d : IndexDefinition} {c : CompiledDefinition} (h : d.compile = .ok c) :
    ∃ w, d.Reads w ∧ w.names.Nodup ∧ c.scope.shape = w.shape ∧ c.locator = w.locator := by
  obtain ⟨scope, path, hs, hp, rfl⟩ := compile_eq_ok_iff.1 h
  obtain ⟨head, parts, region, name, hcut, halias, hregion, hits, -⟩ := Scope.parse_eq_ok_iff.1 hs
  obtain ⟨nested, hreads, hnodup, hplace⟩ :=
    (Scope.parseIterators_eq_ok_iff (Scope.nodup_namesOf_singleton _)).1 hits
  refine ⟨⟨scope.regionPath, name, nested, path.segments⟩, ⟨⟨head, parts, region, hcut, halias, hregion, hreads⟩,
    path, hp, rfl⟩, ?_, ?_, ?_⟩
  · rw [← Wording.namesOf_iterators]
    exact hnodup
  · rw [Scope.shape, hplace]
    rfl
  · rw [Scope.resolve, hplace]
    rfl

/-- A definition whose texts have a wording with distinct aliases compiles, to what the wording resolves to. -/
theorem compile_of_reads {d : IndexDefinition} {w : Wording} (h : d.Reads w) (hn : w.names.Nodup) :
    ∃ c, d.compile = .ok c ∧ c.scope.shape = w.shape ∧ c.locator = w.locator := by
  obtain ⟨⟨head, parts, region, hcut, halias, hregion, hreads⟩, path, hp, hpath⟩ := h
  rw [← Wording.namesOf_iterators] at hn
  have hits := (Scope.parseIterators_eq_ok_iff (Scope.nodup_namesOf_singleton _)).2 ⟨w.nested, hreads, hn, rfl⟩
  have hs : Scope.parse d.scope.toList =
      .ok ⟨String.ofList (Text.trim d.scope.toList), w.region, w.iterators⟩ :=
    Scope.parse_eq_ok_iff.2 ⟨head, parts, region, w.name, hcut, halias, hregion, hits, rfl⟩
  refine ⟨_, compile_eq_ok_iff.2 ⟨_, path, hs, hp, rfl⟩, rfl, ?_⟩
  rw [Wording.locator, ← hpath]
  rfl

end IndexDefinition

end IndexedStore
