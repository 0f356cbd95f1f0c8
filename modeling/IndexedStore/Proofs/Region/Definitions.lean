import IndexedStore.Proofs.Region.Lifecycle
import IndexedStore.Proofs.Region.Nesting

/-!
# Definitions of indexes are kept

An index has the definition it was begun with for good: also when it has been published, removed or discarded,
whoever has hold of it finds the same kind, scope and expression (`Host.remembers_run`).
-/

namespace IndexedStore

namespace Registry

variable {g : Registry} {id : IndexId} {c : CompiledDefinition}

theorem compiledOf?_cleared (g : Registry) (id : IndexId) : g.cleared.compiledOf? id = g.compiledOf? id := by
  have hdiscarded : ∀ ids : List IndexId,
      (ids.foldl (fun g i => g.modify i Index.discard) g).compiledOf? id = g.compiledOf? id := by
    intro ids
    induction ids generalizing g with
    | nil => rfl
    | cons i rest ih => exact (ih (g.modify i Index.discard)).trans (compiledOf?_modify fun _ => rfl)
  exact hdiscarded (g.published ++ g.building)

end Registry

namespace Region

/-- Every index of the first region has its definition in the second. -/
def Remembers (r r' : Region) : Prop :=
  ∀ id c, r.registry.compiledOf? id = some c → r'.registry.compiledOf? id = some c

theorem Remembers.refl (r : Region) : Remembers r r := fun _ _ h => h

theorem Remembers.trans {a b c : Region} (h : Remembers a b) (h' : Remembers b c) : Remembers a c :=
  fun id d hd => h' id d (h id d hd)

theorem remembers_of_eq {r r' : Region} (h : ∀ id, r'.registry.compiledOf? id = r.registry.compiledOf? id) :
    Remembers r r' := fun id _ hc => (h id).trans hc

theorem remembers_begun {r r' : Region} {d : IndexDefinition} {id : IndexId} (h : r.beginIndex d = .ok (id, r')) :
    Remembers r r' := by
  obtain ⟨c, -, -, -, rfl⟩ := beginIndex_spec h
  intro i d hd
  have hold : i ≠ r.registry.all.length := by
    obtain ⟨ix, hix, -⟩ := Option.map_eq_some_iff.1 hd
    exact Nat.ne_of_lt (Registry.index?_lt hix)
  rw [registry_withRegistry, Registry.compiledOf?_enter, if_neg hold]
  exact hd

theorem remembers_ended (r : Region) (id : IndexId) (scanned : Except Error BuildReport) :
    Remembers r (r.endIndex id scanned).2 := by
  cases scanned with
  | ok report => exact remembers_of_eq fun _ => Registry.compiledOf?_publish report
  | error e => exact remembers_of_eq fun _ => Registry.compiledOf?_modify fun _ => rfl

end Region

namespace Host

variable {σ : Type} {h : Host σ}

/-- What listeners do leaves the definitions of indexes alone. -/
def Remembers (h : Host σ) : Prop :=
  ∀ installed arrival s, (h.region s).Remembers (h.region (h.listener installed arrival s))

theorem Remembers.respects (hl : h.Lawful) (hr : h.Remembers) :
    h.Respects fun s s' => (h.region s).Remembers (h.region s') where
  refl _ := .refl _
  trans := .trans
  heard := hr
  aside {s r} ha := by rw [hl]; exact Region.remembers_of_eq ha.standing.compiled
  cleared {s r} _ hcleared := by
    rw [hl]
    exact Region.remembers_of_eq fun id => by rw [hcleared, Registry.compiledOf?_cleared]
  creation {s s' d id r} hb hbetween scanned := by
    rw [hl] at hbetween ⊢
    exact ((Region.remembers_begun hb).trans hbetween).trans (Region.remembers_ended _ id scanned)
  removal {s s' name id r} hu hbetween := by
    rw [hl] at hbetween
    rw [Host.modify, hl]
    obtain ⟨-, rfl⟩ := Region.unpublish_spec hu
    exact hbetween.trans (Region.remembers_of_eq fun _ => Registry.compiledOf?_modify fun _ => rfl)

/-- **Whatever commands are run, every index keeps its definition.** -/
theorem remembers_run (hl : h.Lawful) (hr : h.Remembers) (commands : List Command) (s : σ) :
    (h.region s).Remembers (h.region (commands.foldl (Command.run h) s)) := by
  induction commands generalizing s with
  | nil => exact .refl _
  | cons command rest ih => exact ((hr.respects hl).run command s).trans (ih (command.run h s))

end Host

end IndexedStore
