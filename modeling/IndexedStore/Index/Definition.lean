import IndexedStore.Comparison
import IndexedStore.Scope.Basic

/-!
# Index definitions

A definition gives the name, the kind, the indexed expression and the scope of an index as texts
(`definition::IndexDefinition`). `IndexDefinition.compile` reads the texts. The signature of a compiled
definition, which leaves names and aliases out, is what two equivalent indexes share.
-/

namespace IndexedStore

structure IndexDefinition where
  name : String
  kind : IndexKind
  expression : String
  scope : String
deriving Repr, DecidableEq, Inhabited

/-- What makes two indexes of one region equivalent (`definition::IndexSignature`). -/
structure IndexSignature where
  kind : IndexKind
  shape : ScopeShape
  expression : Locator
deriving Repr, DecidableEq, Inhabited

/-- A definition with its texts read (`definition::CompiledDefinition`). -/
structure CompiledDefinition where
  definition : IndexDefinition
  scope : Scope
  expression : Path
  locator : Locator
deriving Repr, DecidableEq, Inhabited

namespace CompiledDefinition

def name (c : CompiledDefinition) : String := c.definition.name

def kind (c : CompiledDefinition) : IndexKind := c.definition.kind

def regionPath (c : CompiledDefinition) : String := c.scope.regionPath

def signature (c : CompiledDefinition) : IndexSignature := ⟨c.kind, c.scope.shape, c.locator⟩

end CompiledDefinition

namespace IndexDefinition

/-- Reads the scope, then the expression, and resolves the expression in the scope
(`IndexDefinition::compile`). -/
def compile (d : IndexDefinition) : Except ParseFault CompiledDefinition := do
  let scope ← Scope.parse d.scope.toList
  let expression ← Path.parse d.expression.toList
  return ⟨d, scope, expression, scope.resolve expression⟩

end IndexDefinition

end IndexedStore
