import IndexedStore.Proofs.Scope.Comprehension
import IndexedStore.Proofs.Scope.Wording

/-!
# Walks over a region value

`Scope.forEach` hands the tuples of a region value to a visitor, which can fail, as `FromClause::for_each_tuple` does.
It keeps one tuple that it extends by an element before it goes on to the next iterator, and cuts back by that element
afterwards, also where the rest of the walk has failed. What the visitor is told is the visit of the scope: the tuples
in order, up to the first failure of the visitor or the fault that ends the visit (`Scope.walk_eq`).

A scope that was read from a text has its iterators in order, each over a collection that starts at an earlier one. So
neither its collections nor a path resolved in it ever start at an element that is not there, and a walk fails on the
values alone (`Scope.parse_walks`).
-/

namespace IndexedStore

/-- Actions on the items of a list one after another, each on what the one before it left behind, up to the first
that fails. -/
def inTurn {α σ ε : Type} (action : α → σ → Option ε × σ) : List α → σ → Option ε × σ
  | [], s => (none, s)
  | item :: rest, s =>
    match action item s with
    | (some failure, s) => (some failure, s)
    | (none, s) => inTurn action rest s

section InTurn

variable {α σ ε : Type}

theorem inTurn_append (action : α → σ → Option ε × σ) (first rest : List α) (s : σ) :
    inTurn action (first ++ rest) s = match inTurn action first s with
      | (some failure, s) => (some failure, s)
      | (none, s) => inTurn action rest s := by
  induction first generalizing s with
  | nil => rfl
  | cons item first ih =>
    rw [List.cons_append, inTurn, inTurn]
    split
    · rfl
    · exact ih _

/-- Actions that each restore what stands beside their state restore it in the end. -/
theorem inTurn_beside {β : Type} {action : α → β × σ → Option ε × β × σ} {plain : α → σ → Option ε × σ} {b : β}
    (h : ∀ item s, action item (b, s) = ((plain item s).1, b, (plain item s).2)) (items : List α) (s : σ) :
    inTurn action items (b, s) = ((inTurn plain items s).1, b, (inTurn plain items s).2) := by
  induction items generalizing s with
  | nil => rfl
  | cons item rest ih =>
    rw [inTurn, inTurn, h]
    rcases plain item s with ⟨_ | failure, s⟩
    · exact ih s
    · rfl

end InTurn

namespace Visit

variable {σ ε : Type} (visitor : List Value → σ → Option ε × σ) (refuse : EvaluationFault → ε)

/-- The tuples of a visit told to a visitor, up to its first failure, and then the fault that ended the visit. -/
def report (v : Visit) (s : σ) : Option ε × σ :=
  match inTurn visitor v.tuples s with
  | (some failure, s) => (some failure, s)
  | (none, s) => (v.fault.map refuse, s)

theorem report_append (a b : Visit) (s : σ) : (a.append b).report visitor refuse s =
    match a.report visitor refuse s with
      | (some failure, s) => (some failure, s)
      | (none, s) => b.report visitor refuse s := by
  cases ha : a.fault with
  | some fault =>
    rw [append_of_fault (by simp [ha])]
    simp only [report, ha, Option.map_some]
    rcases inTurn visitor a.tuples s with ⟨_ | failure, s⟩ <;> rfl
  | none =>
    simp only [report, append, ha, inTurn_append, Option.map_none]
    rcases inTurn visitor a.tuples s with ⟨_ | failure, s⟩ <;> rfl

theorem report_concat {α : Type} (visit : α → Visit) (items : List α) (s : σ) :
    (concat (items.map visit)).report visitor refuse s =
      inTurn (fun item => (visit item).report visitor refuse) items s := by
  induction items generalizing s with
  | nil => rfl
  | cons item rest ih => simp only [List.map_cons, concat, report_append, ih, inTurn]

end Visit

namespace Scope

section Walk

variable {σ ε : Type} (visitor : List Value → σ → Option ε × σ) (refuse : EvaluationFault → ε)

/-- Hands the tuples that go on from the one in the buffer to a visitor. The buffer is extended by each element in
turn and cut back after it, whether or not the walk failed below it (`FromClause::walk`). -/
def walk : List ScopeIterator → List Value × σ → Option ε × List Value × σ
  | [], (buffer, s) =>
    let (failure, s) := visitor buffer s
    (failure, buffer, s)
  | it :: rest, (buffer, s) =>
    match elementsOf it buffer with
    | .error fault => (some (refuse fault), buffer, s)
    | .ok items =>
      inTurn (fun item (buffer, s) =>
        let (failure, buffer, s) := walk rest (buffer ++ [item], s)
        (failure, buffer.dropLast, s)) items (buffer, s)

/-- Hands the tuples of a region value to a visitor (`FromClause::for_each_tuple`). -/
def forEach (scope : Scope) (v : Value) (s : σ) : Option ε × σ :=
  if scope.iterators.length = 1 then visitor [v] s
  else
    let (failure, _, s) := walk visitor refuse scope.iterators.tail ([v], s)
    (failure, s)

/-- A walk leaves the buffer as it was, and tells the visitor the visit that goes on from it. -/
theorem walk_eq (its : List ScopeIterator) (buffer : List Value) (s : σ) :
    walk visitor refuse its (buffer, s) =
      (((tuplesFrom its buffer).report visitor refuse s).1, buffer,
        ((tuplesFrom its buffer).report visitor refuse s).2) := by
  induction its generalizing buffer s with
  | nil =>
    simp only [walk, tuplesFrom, Visit.report, inTurn]
    rcases visitor buffer s with ⟨_ | failure, s⟩ <;> rfl
  | cons it rest ih =>
    rw [walk, tuplesFrom]
    cases elementsOf it buffer with
    | error fault => rfl
    | ok items =>
      simp only [Visit.report_concat]
      refine inTurn_beside (fun item s => ?_) items s
      simp only [ih, List.dropLast_concat]

theorem forEach_eq (scope : Scope) (v : Value) (s : σ) :
    scope.forEach visitor refuse v s = (scope.tuples v).report visitor refuse s := by
  unfold forEach
  split
  · rename_i hone
    have htail : scope.iterators.tail = [] := List.eq_nil_of_length_eq_zero (by rw [List.length_tail, hone])
    simp only [tuples, htail, tuplesFrom, Visit.report, inTurn]
    rcases visitor [v] s with ⟨_ | failure, s⟩ <;> rfl
  · simp only [walk_eq, tuples]

end Walk

end Scope

/-! ## Faults of values and faults of scopes -/

/-- A fault for which the iterators of a scope are to blame, and not the values they run over. -/
def EvaluationFault.ofScope : EvaluationFault → Bool
  | .unboundIterator _ | .nestedRegionIterator => true
  | .nullInComposite | .mapAsKey | .fieldOf .. | .notIterable _ => false

theorem Value.ofScope_of_readField {v : Value} {field : String} {fault : EvaluationFault}
    (h : v.readField field = .error fault) : fault.ofScope = false := by
  cases v with
  | map fields =>
    simp only [readField] at h
    split at h
    · cases h
    · split at h
      · cases h
      · split at h <;> cases h
  | null | undefined => cases h
  | bool | integer | float | text | list =>
    obtain rfl := Except.error.inj h
    rfl

theorem Value.ofScope_of_navigate {root : Value} {fields : List String} {fault : EvaluationFault}
    (h : root.navigate fields = .error fault) : fault.ofScope = false := by
  induction fields generalizing root with
  | nil => cases h
  | cons field rest ih =>
    rw [navigate] at h
    split at h
    · exact ih h
    · rename_i hfield
      obtain rfl := Except.error.inj h
      exact ofScope_of_readField hfield

theorem Value.ofScope_of_elements {v : Value} {fault : EvaluationFault} (h : v.elements = .error fault) :
    fault.ofScope = false := by
  cases v with
  | list | map | null | undefined => cases h
  | bool | integer | float | text =>
    obtain rfl := Except.error.inj h
    rfl

/-- A locator that starts at an element of a tuple fails on that element only. -/
theorem Locator.ofScope_of_eval {l : Locator} {tuple : List Value} (hl : l.iterator < tuple.length)
    {fault : EvaluationFault} (h : l.eval tuple = .error fault) : fault.ofScope = false := by
  rw [eval, List.getElem?_eq_getElem hl] at h
  exact Value.ofScope_of_navigate h

/-- Nested iterators have collections, each over an earlier one. -/
theorem Nested.getElem? {start : Nat} {its : List ScopeIterator} (h : Nested start its) {i : Nat} {it : ScopeIterator}
    (hi : its[i]? = some it) : ∃ c, it.collection = some c ∧ c.iterator < start + i := by
  induction its generalizing start i with
  | nil => cases hi
  | cons first rest ih =>
    obtain ⟨⟨c, hc, hlt⟩, hrest⟩ := h
    cases i with
    | zero =>
      obtain rfl := Option.some.inj hi
      exact ⟨c, hc, hlt⟩
    | succ i =>
      obtain ⟨c, hc, hlt⟩ := ih hrest hi
      exact ⟨c, hc, by omega⟩

namespace Scope

theorem ofScope_of_elementsOf {it : ScopeIterator} {c : Locator} (hc : it.collection = some c) {tuple : List Value}
    (hlt : c.iterator < tuple.length) {fault : EvaluationFault} (h : elementsOf it tuple = .error fault) :
    fault.ofScope = false := by
  simp only [elementsOf, hc] at h
  cases he : c.eval tuple with
  | ok v =>
    rw [he] at h
    exact Value.ofScope_of_elements h
  | error f =>
    rw [he] at h
    obtain rfl := Except.error.inj h
    exact Locator.ofScope_of_eval hlt he

/-- No position of nested iterators leads to a fault of the scope. -/
theorem Leads.ofScope_error {its : List ScopeIterator} {tuple : List Value} {p : List Nat} {fault : EvaluationFault}
    (h : Leads its tuple p (.error fault)) (hn : Nested tuple.length its) : fault.ofScope = false := by
  generalize ho : (Except.error fault : Except EvaluationFault (List Value)) = outcome at h
  induction h with
  | tuple => cases ho
  | fault he =>
    obtain rfl := Except.error.inj ho
    obtain ⟨⟨c, hc, hlt⟩, -⟩ := hn
    exact ofScope_of_elementsOf hc hlt he
  | element _ _ _ ih => exact ih (by simpa using hn.2) ho

/-- The aliases of a scope that was read are distinct. -/
theorem nodup_names_of_parse {text : List Char} {s : Scope} (h : parse text = .ok s) : (namesOf s.iterators).Nodup := by
  obtain ⟨_, _, _, _, -, -, -, hits, -⟩ := parse_eq_ok_iff.1 h
  obtain ⟨_, -, hnodup, hplace⟩ := (parseIterators_eq_ok_iff (nodup_namesOf_singleton _)).1 hits
  rw [hplace]
  exact hnodup

/-- **A scope that was read is well scoped, and walks over values as the nested comprehension over its collections
does.** Its first iterator has no collection, every later one has a collection over an earlier one, its aliases are
distinct and every path starts at one of its iterators. The visit of a value passes through the tuples of the
comprehension in lexicographic order up to the first fault, with one element for each iterator; neither the
collections nor a path that is evaluated on such a tuple fail but on the values; and whatever it does, a visitor is
told this visit up to its own first failure. -/
theorem parse_walks {text : List Char} {s : Scope} (h : parse text = .ok s) :
    (∃ it, s.iterators[0]? = some it ∧ it.collection = none) ∧
    (∀ i it, s.iterators[i + 1]? = some it → ∃ c, it.collection = some c ∧ c.iterator < i + 1) ∧
    (namesOf s.iterators).Nodup ∧
    (∀ path, (s.resolve path).iterator < s.iterators.length) ∧
    ∀ v,
      (∃ positions, (s.tuples v).Enumerates (Leads s.iterators.tail [v]) positions) ∧
      (∀ u ∈ (s.tuples v).tuples, u.length = s.iterators.length ∧
        ∀ path fault, (s.resolve path).eval u = .error fault → fault.ofScope = false) ∧
      (∀ fault, (s.tuples v).fault = some fault → fault.ofScope = false) ∧
      ∀ (σ ε : Type) (visitor : List Value → σ → Option ε × σ) (refuse : EvaluationFault → ε) (state : σ),
        s.forEach visitor refuse v state = (s.tuples v).report visitor refuse state := by
  have hscoped := parse_wellScoped h
  obtain ⟨name, rest, hits, hnested⟩ := id hscoped
  refine ⟨⟨⟨name, none⟩, by rw [hits]; rfl, rfl⟩, fun i it hit => ?_, nodup_names_of_parse h, hscoped.resolve_lt,
    fun v => ?_⟩
  · rw [hits, List.getElem?_cons_succ] at hit
    rw [Nat.add_comm]
    exact hnested.getElem? hit
  · obtain ⟨positions, hvisit⟩ := tuplesFrom_enumerates s.iterators.tail [v]
    have hlength : ∀ u ∈ (s.tuples v).tuples, u.length = s.iterators.length := by
      intro u hu
      obtain ⟨p, hp⟩ := hvisit.exists_position hu
      rw [hp.length_ok, hits]
      exact Nat.add_comm 1 _
    refine ⟨⟨positions, hvisit⟩, fun u hu => ⟨hlength u hu, fun path fault he => ?_⟩, fun fault hfault => ?_,
      fun _ _ visitor refuse state => forEach_eq visitor refuse s v state⟩
    · exact Locator.ofScope_of_eval (by rw [hlength u hu]; exact hscoped.resolve_lt path) he
    · obtain ⟨q, hq, -⟩ := hvisit.first fault hfault
      refine hq.ofScope_error ?_
      rw [hits]
      exact hnested

/-- The lines of the pages of books. -/
def linesOfPages : Scope := ⟨"/books b, b.pages p, p.lines l", "/books",
  [⟨some "b", none⟩, ⟨some "p", some ⟨0, ["pages"]⟩⟩, ⟨some "l", some ⟨1, ["lines"]⟩⟩]⟩

/-- A book of three pages, of which the second has no list of lines. -/
def tornBook : Value := .map [("pages", .list [.map [("lines", .list [.text "a", .text "b"])],
  .map [("lines", .text "c")], .map [("lines", .list [.text "d"])]])]

theorem parse_walks_torn : parse "/books b, b.pages p, p.lines l".toList = .ok linesOfPages ∧
    linesOfPages.forEach (ε := EvaluationFault) (fun u seen => (none, seen ++ [u.length])) id tornBook [] =
      (some (.notIterable "text"), [3, 3]) ∧
    (namesOf linesOfPages.iterators).Nodup ∧
    (∃ positions, (linesOfPages.tuples tornBook).Enumerates (Leads linesOfPages.iterators.tail [tornBook]) positions) ∧
    ∀ fault, (linesOfPages.tuples tornBook).fault = some fault → fault.ofScope = false := by
  have hread : parse "/books b, b.pages p, p.lines l".toList = .ok linesOfPages := rfl
  obtain ⟨-, -, hnames, -, hwalks⟩ := parse_walks hread
  obtain ⟨hvisit, -, hfaults, -⟩ := hwalks tornBook
  exact ⟨hread, rfl, hnames, hvisit, hfaults⟩

end Scope

end IndexedStore
