import IndexedStore.Proofs.Text.Occurrences
import IndexedStore.Query.Basic
import Mathlib.Tactic.MkIffOfInductiveProp

/-!
# The clauses of a query

The clauses of a query begin where their keywords are first found, and have to come in order
(`Query.clauses_eq_ok_iff`). `WHERE` and `ORDER BY` both begin and end with a space, and may share one: the second
then begins at the last character of the first, and otherwise not before its end (`Query.orderAt_of_whereAt`).
-/

namespace IndexedStore

namespace Query

def fromWord : List Char := ['F', 'R', 'O', 'M', ' ']

def whereWord : List Char := [' ', 'W', 'H', 'E', 'R', 'E', ' ']

def orderWord : List Char := [' ', 'O', 'R', 'D', 'E', 'R', ' ', 'B', 'Y', ' ']

namespace Clauses

/-- Where the scope of a text ends. -/
def scopeEnd (c : Clauses) (text : List Char) : Nat := (c.whereAt.or c.orderAt).getD text.length

/-- The clauses found in a text. -/
@[mk_iff foundIn_iff]
structure FoundIn (c : Clauses) (text : List Char) : Prop where
  fromAt : Text.find? fromWord (Text.upper text) = some c.fromAt
  whereAt : Text.find? whereWord (Text.upper text) = c.whereAt
  orderAt : Text.find? orderWord (Text.upper text) = c.orderAt

/-- The scope begins after `FROM` and ends before the other clauses, which come in order. -/
@[mk_iff inOrder_iff]
structure InOrder (c : Clauses) (text : List Char) : Prop where
  scope : c.fromAt + 5 ≤ c.scopeEnd text
  order : ∀ w o, c.whereAt = some w → c.orderAt = some o → w ≤ o

end Clauses

variable {text : List Char}

theorem clauses_eq_ok_iff {c : Clauses} : clauses text = .ok c ↔ c.FoundIn text ∧ c.InOrder text := by
  obtain ⟨fromAt, whereAt, orderAt⟩ := c
  rw [Clauses.foundIn_iff, Clauses.inOrder_iff]
  unfold clauses fromWord whereWord orderWord
  simp only [Clauses.scopeEnd]
  generalize Text.find? ['F', 'R', 'O', 'M', ' '] (Text.upper text) = f
  generalize Text.find? [' ', 'W', 'H', 'E', 'R', 'E', ' '] (Text.upper text) = w
  generalize Text.find? [' ', 'O', 'R', 'D', 'E', 'R', ' ', 'B', 'Y', ' '] (Text.upper text) = o
  cases f with
  | none => simp
  | some f =>
    cases w <;> cases o <;> grind

theorem clauses_of_missing (h : Text.find? fromWord (Text.upper text) = none) :
    clauses text = .error (.missingFrom (String.ofList text)) := by
  unfold fromWord at h
  simp only [clauses, h]

theorem clauses_of_disorder {c : Clauses} (h : c.FoundIn text) (hout : ¬ c.InOrder text) :
    clauses text = .error (.clauseOrder (String.ofList text)) := by
  obtain ⟨fromAt, whereAt, orderAt⟩ := c
  obtain ⟨hfrom, hwhere, horder⟩ := h
  rw [Clauses.inOrder_iff] at hout
  unfold fromWord at hfrom
  unfold whereWord at hwhere
  unfold orderWord at horder
  simp only [clauses, hfrom, hwhere, horder, Clauses.scopeEnd] at hout ⊢
  cases whereAt <;> cases orderAt <;> grind

/-- After `WHERE`, `ORDER BY` begins at its last character or behind it. -/
theorem orderAt_of_whereAt {w o : Nat} (hw : Text.find? whereWord (Text.upper text) = some w)
    (ho : Text.find? orderWord (Text.upper text) = some o) (h : w ≤ o) : o = w + 6 ∨ w + 7 ≤ o := by
  obtain ⟨d, rfl⟩ := Nat.exists_eq_add_of_le h
  obtain ⟨more, hmore⟩ := Text.prefix_of_find? hw
  have horder := Text.prefix_of_find? ho
  rw [← List.drop_drop, ← hmore] at horder
  -- in `WHERE` a space stands at the first and the last place only, and at the first no `O` comes next
  have hcases : d = 0 ∨ d = 1 ∨ d = 2 ∨ d = 3 ∨ d = 4 ∨ d = 5 ∨ d = 6 ∨ 7 ≤ d := by omega
  rcases hcases with rfl | rfl | rfl | rfl | rfl | rfl | rfl | hle
  all_goals first
    | exact .inl rfl
    | exact .inr (by omega)
    | simp [whereWord, orderWord] at horder

/-! ## What a query takes -/

/-- The part of the text that is read as the scope. -/
def Clauses.scopeText (c : Clauses) (text : List Char) : List Char := (text.take (c.scopeEnd text)).drop (c.fromAt + 5)

/-- The predicate of a query is read from the part between `WHERE` and the order, unless the two share a space. -/
def Clauses.ReadsPredicate (c : Clauses) (text : List Char) (predicate : Option Predicate) : Prop :=
  match c.whereAt with
  | none => predicate = none
  | some w => w + 7 ≤ c.orderAt.getD text.length ∧ ∃ p, predicate = some p ∧
      Predicate.parse ((text.take (c.orderAt.getD text.length)).drop (w + 7)) = .ok p

/-- The order of a query is read from all that follows `ORDER BY`. -/
def Clauses.ReadsOrder (c : Clauses) (text : List Char) (order : Option Path) : Prop :=
  match c.orderAt with
  | none => order = none
  | some o => ∃ path, order = some path ∧ Path.parse (text.drop (o + 10)) = .ok path

theorem bind_eq_ok_iff {α β : Type} {x : Except Error α} {f : α → Except Error β} {b : β} :
    x >>= f = .ok b ↔ ∃ a, x = .ok a ∧ f a = .ok b := by
  cases x <;> simp [bind, Except.bind]

theorem ofFault_eq_ok_iff {α : Type} {x : Except ParseFault α} {a : α} : ofFault x = .ok a ↔ x = .ok a := by
  cases x <;> simp [ofFault]

theorem part_eq_ok_iff {start stop : Nat} {s : List Char} :
    part text start stop = .ok s ↔ start ≤ stop ∧ s = (text.take stop).drop start := by
  unfold part
  split
  · rename_i h
    simp [Nat.not_le.2 h]
  · rename_i h
    simp [Nat.not_lt.1 h, eq_comm]

theorem select_eq_ok_iff {s : List Char} {q : Query} :
    select s = .ok q ↔ ∃ scope, Scope.parse s = .ok scope ∧ q = ⟨scope, none, none, none⟩ := by
  unfold select
  cases Scope.parse s <;> simp [Except.map, eq_comm]

theorem orderBy_eq_ok_iff {q q' : Query} {s : List Char} :
    q.orderBy s = .ok q' ↔ ∃ path, Path.parse s = .ok path ∧ q' = { q with order := some path } := by
  unfold orderBy
  cases Path.parse s <;> simp [Except.map, eq_comm]

/-- The last step of reading a query. -/
theorem readOrder_eq_ok_iff {c : Clauses} {q q' : Query} (hq : q.order = none)
    (hend : ∀ o, c.orderAt = some o → o + 10 ≤ text.length) :
    (match c.orderAt with
      | none => pure q
      | some o => do
        let order ← part text (o + 10) text.length
        ofFault (q.orderBy order) : Except Error Query) = .ok q' ↔
      c.ReadsOrder text q'.order ∧ q' = { q with order := q'.order } := by
  obtain ⟨scope, predicate, order, hint⟩ := q
  obtain ⟨scope', predicate', order', hint'⟩ := q'
  cases hq
  unfold Clauses.ReadsOrder
  cases ho : c.orderAt with
  | none =>
    constructor
    · intro h
      cases h
      exact ⟨rfl, rfl⟩
    · rintro ⟨rfl, h⟩
      exact congrArg Except.ok h.symm
  | some o =>
    simp only [bind_eq_ok_iff, part_eq_ok_iff, ofFault_eq_ok_iff, orderBy_eq_ok_iff, List.take_length]
    constructor
    · rintro ⟨_, ⟨hle, rfl⟩, path, hpath, h⟩
      cases h
      exact ⟨⟨path, rfl, hpath⟩, rfl⟩
    · rintro ⟨⟨path, rfl, hpath⟩, h⟩
      exact ⟨_, ⟨hend o ho, rfl⟩, path, hpath, h⟩

/-- A text is a query if its clauses come in order and each part of it reads. -/
theorem parse_eq_ok_iff {q : Query} : parse text = .ok q ↔ ∃ c, clauses text = .ok c ∧
    Scope.parse (c.scopeText text) = .ok q.scope ∧ c.ReadsPredicate text q.predicate ∧ c.ReadsOrder text q.order ∧
      q.hint = none := by
  obtain ⟨scope, predicate, order, hint⟩ := q
  unfold parse
  rw [bind_eq_ok_iff]
  simp only [ofFault_eq_ok_iff]
  refine exists_congr fun c => and_congr_right fun hc => ?_
  obtain ⟨hfound, hin⟩ := clauses_eq_ok_iff.1 hc
  have hend : ∀ o, c.orderAt = some o → o + 10 ≤ text.length := fun o ho => by
    simpa [Text.upper, orderWord] using Text.find?_add_le (hfound.orderAt.trans ho) (by decide)
  simp only [bind_eq_ok_iff, part_eq_ok_iff, ofFault_eq_ok_iff, select_eq_ok_iff]
  constructor
  · rintro ⟨_, ⟨-, rfl⟩, _, ⟨scope, hscope, rfl⟩, h⟩
    unfold Clauses.ReadsPredicate
    cases hw : c.whereAt with
    | none =>
      rw [hw] at h
      obtain ⟨_, hpure, h⟩ := bind_eq_ok_iff.1 h
      cases hpure
      obtain ⟨horder, hq⟩ := (readOrder_eq_ok_iff rfl hend).1 h
      cases hq
      exact ⟨hscope, rfl, horder, rfl⟩
    | some w =>
      rw [hw] at h
      simp only [bind_eq_ok_iff, part_eq_ok_iff, ofFault_eq_ok_iff] at h
      obtain ⟨_, ⟨hle, rfl⟩, p, hp, _, hpure, h⟩ := h
      cases hpure
      obtain ⟨horder, hq⟩ := (readOrder_eq_ok_iff rfl hend).1 h
      cases hq
      exact ⟨hscope, ⟨hle, p, rfl, hp⟩, horder, rfl⟩
  · rintro ⟨hscope, hpredicate, horder, rfl⟩
    refine ⟨_, ⟨hin.scope, rfl⟩, _, ⟨scope, hscope, rfl⟩, ?_⟩
    unfold Clauses.ReadsPredicate at hpredicate
    cases hw : c.whereAt with
    | none =>
      rw [hw] at hpredicate
      cases hpredicate
      exact bind_eq_ok_iff.2 ⟨_, rfl, (readOrder_eq_ok_iff rfl hend).2 ⟨horder, rfl⟩⟩
    | some w =>
      rw [hw] at hpredicate
      obtain ⟨hle, p, rfl, hp⟩ := hpredicate
      simp only [bind_eq_ok_iff, part_eq_ok_iff, ofFault_eq_ok_iff]
      exact ⟨_, ⟨hle, rfl⟩, p, hp, _, rfl, (readOrder_eq_ok_iff rfl hend).2 ⟨horder, rfl⟩⟩

end Query

end IndexedStore
