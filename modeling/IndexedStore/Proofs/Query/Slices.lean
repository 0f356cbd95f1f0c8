import IndexedStore.Proofs.Query.Clauses
import IndexedStore.Proofs.Text.Offsets
import Mathlib.Data.List.TakeWhile

/-!
# Reading queries by bytes

`Predicate::parse` and `Query::parse` slice their text at byte offsets. Here both are read again in this way, every
part taken between two places in bytes: a reading breaks off where a part is not there. The places come from searches
for characters and keywords and from adding the lengths of keywords, so they have to be shown not to lie inside a
character. For predicates a part is always there (`Predicate.sliced_eq`); for queries it is missing only where `WHERE`
and `ORDER BY` share their space (`Query.sliced_eq_none_iff`).
-/

namespace IndexedStore

/-- A reading that breaks off, giving none, where a part of the text is not there. -/
abbrev Sliced (α : Type) := ExceptT ParseFault Option α

namespace Sliced

variable {α β : Type}

/-- A part of a text between two places. -/
def part (text : List Char) (start stop : Nat) : Sliced (List Char) := ExceptT.lift (Text.slice? text start stop)

/-- A reading that takes no part. -/
def whole (x : Except ParseFault α) : Sliced α := ExceptT.mk (some x)

@[simp] theorem whole_ok_bind (a : α) (f : α → Sliced β) : whole (.ok a) >>= f = f a := rfl

theorem part_bind {text s : List Char} {start stop : Nat} (h : Text.slice? text start stop = some s)
    (f : List Char → Sliced α) : part text start stop >>= f = f s := by
  unfold part
  rw [h]
  rfl

end Sliced

namespace Predicate

/-- The place of the first symbol character. -/
def symbolByte? (text : List Char) : Option Nat :=
  if text.any isSymbolChar then some (Text.byteCount (text.takeWhile fun c => !isSymbolChar c)) else none

/-- `Predicate.parseLiteral` by bytes, as `query::parse_literal` slices. -/
def slicedLiteral (text : List Char) : Sliced Value :=
  if 2 ≤ Text.byteCount text ∧ text.head? = some '\'' ∧ text.getLast? = some '\'' then do
    let inner ← Sliced.part text 1 (Text.byteCount text - 1)
    return .text (String.ofList (Text.undoubleQuotes inner))
  else Sliced.whole (parseLiteral text)

/-- `Predicate.parseComparison` by bytes: the part of `Predicate::parse` behind the `IS` forms. -/
def slicedComparison (text : List Char) : Sliced Predicate :=
  match symbolByte? text with
  | none => throw (.noOperator (String.ofList text))
  | some start => do
    let rest ← Sliced.part text start (Text.byteCount text)
    let stop := start + (rest.takeWhile isSymbolChar).length
    let symbol ← Sliced.part text start stop
    match Comparison.ofSymbol? (String.ofList symbol) with
    | none => throw (.unknownOperator (String.ofList symbol))
    | some comparison => do
      let path ← Sliced.part text 0 start
      let literal ← Sliced.part text stop (Text.byteCount text)
      let value ← slicedLiteral (Text.trim literal)
      Sliced.whole (make path comparison value)

/-- `Predicate.parse` by bytes. -/
def sliced (s : List Char) : Sliced Predicate :=
  let text := Text.trim s
  match Text.words text with
  | path :: word :: next :: rest =>
    if Text.sameIgnoringCase word ['i', 's'] then Sliced.whole (parseIs text path (next :: rest))
    else slicedComparison text
  | _ => slicedComparison text

/-! ## Predicates -/

theorem slicedLiteral_eq (text : List Char) : slicedLiteral text = Sliced.whole (parseLiteral text) := by
  unfold slicedLiteral
  split
  · rename_i h
    obtain ⟨hcount, hhead, hlast⟩ := h
    obtain ⟨rest, rfl⟩ := List.head?_eq_some_iff.1 hhead
    have hrest : rest.getLast? = some '\'' := by
      cases rest with
      | nil => simp [Char.utf8Size] at hcount
      | cons c rest => simpa using hlast
    obtain ⟨inner, rfl⟩ := List.getLast?_eq_some_iff.1 hrest
    have hslice : Text.slice? ('\'' :: (inner ++ ['\''])) 1
        (Text.byteCount ('\'' :: (inner ++ ['\''])) - 1) = some inner :=
      Text.slice?_eq_some_iff.2 ⟨['\''], ['\''], rfl, rfl, by simp [Char.utf8Size, Nat.add_comm]⟩
    have hquoted : quotedLiteral? ('\'' :: (inner ++ ['\''])) = some (Text.undoubleQuotes inner) := by
      simp [quotedLiteral?]
    rw [Sliced.part_bind hslice, parseLiteral, hquoted]
    rfl
  · rfl

/-- Symbol characters take one byte each. -/
theorem utf8Size_of_isSymbolChar {c : Char} (h : isSymbolChar c = true) : c.utf8Size = 1 := by
  simp only [isSymbolChar, Bool.or_eq_true, beq_iff_eq] at h
  rcases h with ((rfl | rfl) | rfl) | rfl <;> rfl

theorem slicedComparison_eq (text : List Char) : slicedComparison text = Sliced.whole (parseComparison text) := by
  unfold slicedComparison parseComparison symbolByte?
  cases hany : text.any isSymbolChar with
  | false =>
    have hrest : text.dropWhile (fun c => !isSymbolChar c) = [] := by
      rw [List.dropWhile_eq_nil_iff]
      simpa using hany
    simp only [hrest]
    rfl
  | true =>
    have hrest : (text.dropWhile fun c => !isSymbolChar c).isEmpty = false := by
      rw [List.isEmpty_eq_false_iff, Ne, List.dropWhile_eq_nil_iff]
      simpa using hany
    simp only [if_pos, hrest, Bool.false_eq_true, if_false]
    have hparts : text = text.takeWhile (fun c => !isSymbolChar c) ++ text.dropWhile fun c => !isSymbolChar c :=
      List.takeWhile_append_dropWhile.symm
    generalize text.takeWhile (fun c => !isSymbolChar c) = path at hparts ⊢
    generalize text.dropWhile (fun c => !isSymbolChar c) = rest at hparts ⊢
    have hsymbols : rest = rest.takeWhile isSymbolChar ++ rest.dropWhile isSymbolChar :=
      List.takeWhile_append_dropWhile.symm
    have hcount : Text.byteCount (rest.takeWhile isSymbolChar) = (rest.takeWhile isSymbolChar).length :=
      Text.byteCount_of_ascii fun c hc => utf8Size_of_isSymbolChar (List.mem_takeWhile_imp hc)
    have hafter : Text.slice? text (Text.byteCount path) (Text.byteCount text) = some rest :=
      Text.slice?_eq_some_iff.2 ⟨path, [], by simp [hparts], rfl, by rw [← hparts]⟩
    rw [Sliced.part_bind hafter]
    generalize rest.takeWhile isSymbolChar = symbol at hsymbols hcount ⊢
    generalize rest.dropWhile isSymbolChar = literal at hsymbols ⊢
    have hsymbol : Text.slice? text (Text.byteCount path) (Text.byteCount path + symbol.length) = some symbol :=
      Text.slice?_eq_some_iff.2 ⟨path, literal, by simp [hparts, hsymbols], rfl, by simp [hcount]⟩
    have hpath : Text.slice? text 0 (Text.byteCount path) = some path :=
      Text.slice?_eq_some_iff.2 ⟨[], rest, by simp [hparts], rfl, rfl⟩
    have hliteral : Text.slice? text (Text.byteCount path + symbol.length) (Text.byteCount text) = some literal :=
      Text.slice?_eq_some_iff.2 ⟨path ++ symbol, [], by simp [hparts, hsymbols], by simp [hcount],
        by simp [hparts, hsymbols]⟩
    rw [Sliced.part_bind hsymbol]
    cases Comparison.ofSymbol? (String.ofList symbol) with
    | none => rfl
    | some comparison =>
      simp only
      rw [Sliced.part_bind hpath, Sliced.part_bind hliteral, slicedLiteral_eq]
      cases parseLiteral (Text.trim literal) <;> rfl

/-- **No part of a predicate is missing.** -/
theorem sliced_eq (s : List Char) : sliced s = Sliced.whole (parse s) := by
  unfold sliced parse
  simp only [slicedComparison_eq]
  generalize Text.words (Text.trim s) = words
  rcases words with _ | ⟨path, _ | ⟨word, _ | ⟨next, rest⟩⟩⟩
  · rfl
  · rfl
  · rfl
  · simp only
    split <;> rfl

end Predicate

namespace Query

/-- `Query.clauses` by bytes: the part of `Query::parse` before it takes the clauses out. -/
def slicedClauses (text : List Char) : Sliced Clauses :=
  let upper := Text.upper text
  match Text.findByte? fromWord upper with
  | none => throw (.missingFrom (String.ofList text))
  | some fromAt =>
    let whereAt := Text.findByte? whereWord upper
    let orderAt := Text.findByte? orderWord upper
    let scopeEnd := (whereAt.or orderAt).getD (Text.byteCount text)
    let swapped := whereAt.any fun w => orderAt.any fun o => o < w
    if scopeEnd < fromAt + 5 ∨ swapped then throw (.clauseOrder (String.ofList text))
    else pure ⟨fromAt, whereAt, orderAt⟩

/-- `Query.parse` by bytes, as `Query::parse` slices. -/
def sliced (text : List Char) : Sliced Query := do
  let c ← slicedClauses text
  let scope ← Sliced.part text (c.fromAt + 5) ((c.whereAt.or c.orderAt).getD (Text.byteCount text))
  let q ← Sliced.whole (select scope)
  let q ← match c.whereAt with
    | none => pure q
    | some w => do
      let stop := (c.orderAt.filter fun o => w < o).getD (Text.byteCount text)
      let predicate ← Sliced.part text (w + 7) stop
      let p ← Predicate.sliced predicate
      pure (q.filter p)
  match c.orderAt with
  | none => pure q
  | some o => do
    let order ← Sliced.part text (o + 10) (Text.byteCount text)
    Sliced.whole (q.orderBy order)

/-! ## Queries -/

/-- A reading in which overlapping clauses, and they alone, leave a part missing. -/
def seen {α : Type} : Except Error α → Sliced α
  | .ok a => Sliced.whole (.ok a)
  | .error (.parse fault) => Sliced.whole (.error fault)
  | .error _ => ExceptT.mk none

variable {α β : Type} {text : List Char}

theorem seen_bind (x : Except Error α) (f : α → Except Error β) : seen (x >>= f) = seen x >>= fun a => seen (f a) := by
  cases x with
  | ok a => rfl
  | error e => cases e <;> rfl

theorem seen_pure (a : α) : seen (pure a) = pure a := rfl

theorem seen_ofFault (x : Except ParseFault α) : seen (ofFault x) = Sliced.whole x := by
  cases x <;> rfl

theorem seen_eq_ok_iff {x : Except Error α} {a : α} : (seen x).run = some (.ok a) ↔ x = .ok a := by
  cases x with
  | ok a => simp [seen, Sliced.whole]
  | error e => cases e <;> simp [seen, Sliced.whole]

theorem seen_eq_error_iff {x : Except Error α} {fault : ParseFault} :
    (seen x).run = some (.error fault) ↔ x = .error (.parse fault) := by
  cases x with
  | ok a => simp [seen, Sliced.whole]
  | error e => cases e <;> simp [seen, Sliced.whole]

theorem seen_part {start : Nat} (h : start ≤ text.length) (stop : Nat) :
    seen (part text start stop) = Sliced.part text (Text.byteAt text start) (Text.byteAt text stop) := by
  unfold part Sliced.part
  rw [Text.slice?_byteAt h]
  split <;> rfl

/-- The place after a keyword of ASCII characters is as many bytes on as it has characters. -/
theorem byteAt_after {keyword : List Char} {i : Nat} (h : Text.find? keyword (Text.upper text) = some i)
    (hascii : keyword.all (fun c => c.utf8Size == 1) = true) (hne : keyword ≠ []) :
    Text.byteAt text (i + keyword.length) = Text.byteAt text i + keyword.length ∧
      i + keyword.length ≤ text.length := by
  obtain ⟨more, hmore⟩ := Text.prefix_of_find? h
  have hascii : ∀ c ∈ keyword, c.utf8Size = 1 := by simpa using hascii
  constructor
  · rw [← Text.byteAt_upper, Text.byteAt_add, ← hmore, List.take_left, Text.byteCount_of_ascii hascii,
      Text.byteAt_upper]
  · simpa [Text.upper] using Text.find?_add_le h hne

theorem byteAt_fromWord {f : Nat} (h : Text.find? fromWord (Text.upper text) = some f) :
    Text.byteAt text (f + 5) = Text.byteAt text f + 5 ∧ f + 5 ≤ text.length :=
  byteAt_after h (by decide) (by decide)

theorem byteAt_whereWord {w : Nat} (h : Text.find? whereWord (Text.upper text) = some w) :
    Text.byteAt text (w + 7) = Text.byteAt text w + 7 ∧ w + 7 ≤ text.length :=
  byteAt_after h (by decide) (by decide)

theorem byteAt_orderWord {o : Nat} (h : Text.find? orderWord (Text.upper text) = some o) :
    Text.byteAt text (o + 10) = Text.byteAt text o + 10 ∧ o + 10 ≤ text.length :=
  byteAt_after h (by decide) (by decide)

/-- The places of the clauses in bytes. -/
def Clauses.inBytes (c : Clauses) (text : List Char) : Clauses :=
  ⟨Text.byteAt text c.fromAt, c.whereAt.map (Text.byteAt text), c.orderAt.map (Text.byteAt text)⟩

theorem Clauses.scopeEnd_inBytes (c : Clauses) (text : List Char) :
    ((c.inBytes text).whereAt.or (c.inBytes text).orderAt).getD (Text.byteCount text) =
      Text.byteAt text (c.scopeEnd text) := by
  obtain ⟨_, whereAt, orderAt⟩ := c
  unfold inBytes scopeEnd
  cases whereAt <;> cases orderAt <;> simp

/-- The clauses are in order by bytes if they are by characters. -/
theorem Clauses.FoundIn.inOrder_iff {c : Clauses} (h : c.FoundIn text) : c.InOrder text ↔
    Text.byteAt text c.fromAt + 5 ≤ Text.byteAt text (c.scopeEnd text) ∧
      ∀ w o, c.whereAt = some w → c.orderAt = some o → Text.byteAt text w ≤ Text.byteAt text o := by
  have hw : ∀ w, c.whereAt = some w → w ≤ text.length := fun w hw => by
    have := (byteAt_whereWord (h.whereAt.trans hw)).2
    omega
  have ho : ∀ o, c.orderAt = some o → o ≤ text.length := fun o ho => by
    have := (byteAt_orderWord (h.orderAt.trans ho)).2
    omega
  have hend : c.scopeEnd text ≤ text.length := by
    unfold Clauses.scopeEnd
    cases hwa : c.whereAt with
    | some w => exact hw w hwa
    | none =>
      cases hoa : c.orderAt with
      | some o => exact ho o hoa
      | none => exact Nat.le_refl _
  obtain ⟨hbytes, hf⟩ := byteAt_fromWord h.fromAt
  rw [Clauses.inOrder_iff, ← hbytes, Text.byteAt_le_iff hf hend]
  refine and_congr_right fun _ => forall₂_congr fun w o => forall₂_congr fun hwa hoa => ?_
  exact (Text.byteAt_le_iff (hw w hwa) (ho o hoa)).symm

theorem slicedClauses_eq (text : List Char) :
    slicedClauses text = Sliced.whole ((clauses text).map (·.inBytes text)) := by
  have hfind : ∀ keyword, Text.findByte? keyword (Text.upper text) =
      (Text.find? keyword (Text.upper text)).map (Text.byteAt text) := by
    intro keyword
    rw [Text.findByte?_eq]
    congr 1
    funext i
    exact Text.byteAt_upper text i
  unfold slicedClauses
  simp only [hfind]
  cases hfrom : Text.find? fromWord (Text.upper text) with
  | none =>
    rw [clauses_of_missing hfrom]
    rfl
  | some f =>
    obtain ⟨w, hw⟩ : ∃ w, Text.find? whereWord (Text.upper text) = w := ⟨_, rfl⟩
    obtain ⟨o, ho⟩ : ∃ o, Text.find? orderWord (Text.upper text) = o := ⟨_, rfl⟩
    have hfound : Clauses.FoundIn ⟨f, w, o⟩ text := ⟨hfrom, hw, ho⟩
    have hguard : (((w.map (Text.byteAt text)).or (o.map (Text.byteAt text))).getD (Text.byteCount text) <
        Text.byteAt text f + 5 ∨ ((w.map (Text.byteAt text)).any fun w =>
          (o.map (Text.byteAt text)).any fun o => o < w) = true) ↔ ¬ Clauses.InOrder ⟨f, w, o⟩ text := by
      rw [hfound.inOrder_iff, ← Clauses.scopeEnd_inBytes]
      cases w <;> cases o <;> simp [Clauses.inBytes]
      omega
    simp only [hw, ho, Option.map_some]
    by_cases hin : Clauses.InOrder ⟨f, w, o⟩ text
    · rw [if_neg fun h => hguard.1 h hin, clauses_eq_ok_iff.2 ⟨hfound, hin⟩]
      rfl
    · rw [if_pos (hguard.2 hin), clauses_of_disorder hfound hin]
      rfl

/-- **The readings by bytes and by characters agree.** -/
theorem sliced_eq (text : List Char) : sliced text = seen (parse text) := by
  unfold sliced parse
  rw [slicedClauses_eq]
  cases hclauses : clauses text with
  | error fault => rfl
  | ok c =>
    obtain ⟨hfound, hin⟩ := clauses_eq_ok_iff.1 hclauses
    obtain ⟨f, whereAt, orderAt⟩ := c
    have hscope : ∀ stop, seen (part text (f + 5) stop) =
        Sliced.part text (Text.byteAt text f + 5) (Text.byteAt text stop) := by
      intro stop
      obtain ⟨hbytes, hle⟩ := byteAt_fromWord hfound.fromAt
      rw [seen_part hle, hbytes]
    have hpredicate : ∀ w, whereAt = some w → ∀ stop, seen (part text (w + 7) stop) =
        Sliced.part text (Text.byteAt text w + 7) (Text.byteAt text stop) := by
      intro w hw stop
      obtain ⟨hbytes, hle⟩ := byteAt_whereWord (hfound.whereAt.trans hw)
      rw [seen_part hle, hbytes]
    have horder : ∀ o, orderAt = some o → ∀ stop, seen (part text (o + 10) stop) =
        Sliced.part text (Text.byteAt text o + 10) (Text.byteAt text stop) := by
      intro o ho stop
      obtain ⟨hbytes, hle⟩ := byteAt_orderWord (hfound.orderAt.trans ho)
      rw [seen_part hle, hbytes]
    have hapart : ∀ w o, whereAt = some w → orderAt = some o → Text.byteAt text w < Text.byteAt text o := by
      intro w o hw ho
      have hcases := orderAt_of_whereAt (hfound.whereAt.trans hw) (hfound.orderAt.trans ho) (hin.order w o hw ho)
      have hle := (byteAt_orderWord (hfound.orderAt.trans ho)).2
      exact Text.byteAt_lt (by omega) (by omega)
    cases whereAt <;> cases orderAt <;>
      simp only [Except.map, Clauses.inBytes, Option.map_some, Option.map_none, Option.or, Option.getD_some,
        Option.getD_none, Option.filter_none, Option.filter_some, hapart, decide_true, if_true,
        Sliced.whole_ok_bind, seen_bind, seen_ofFault, seen_pure, hscope, hpredicate, horder,
        Text.byteAt_length, Predicate.sliced_eq]

/-- `WHERE` and `ORDER BY` share their space, behind a scope that reads. -/
def Tangled (text : List Char) : Prop :=
  ∃ f w, Text.find? fromWord (Text.upper text) = some f ∧ Text.find? whereWord (Text.upper text) = some w ∧
    Text.find? orderWord (Text.upper text) = some (w + 6) ∧ f + 5 ≤ w ∧
      ∃ scope, Scope.parse ((text.take w).drop (f + 5)) = .ok scope

theorem seen_bind_eq_none_iff {x : Except Error α} {f : α → Except Error β} : (seen (x >>= f)).run = none ↔
    (seen x).run = none ∨ ∃ a, x = .ok a ∧ (seen (f a)).run = none := by
  cases x with
  | ok a => simp [seen, Sliced.whole, bind, Except.bind]
  | error e => cases e <;> simp [seen, Sliced.whole, bind, Except.bind]

theorem seen_ofFault_ne_none (x : Except ParseFault α) : (seen (ofFault x)).run ≠ none := by
  rw [seen_ofFault]
  exact Option.some_ne_none x

theorem seen_pure_ne_none (a : α) : (seen (pure a)).run ≠ none := Option.some_ne_none _

theorem seen_part_eq_none_iff {start stop : Nat} : (seen (part text start stop)).run = none ↔ stop < start := by
  unfold part
  split <;> simp_all [seen, Sliced.whole]

/-- **A reading by bytes breaks off exactly at tangled clauses.** -/
theorem sliced_eq_none_iff (text : List Char) : (sliced text).run = none ↔ Tangled text := by
  rw [sliced_eq, parse]
  simp only [seen_bind_eq_none_iff, seen_ofFault_ne_none, false_or, ofFault_eq_ok_iff, seen_part_eq_none_iff,
    part_eq_ok_iff, select_eq_ok_iff]
  constructor
  · rintro ⟨c, hc, h⟩
    obtain ⟨hfound, hin⟩ := clauses_eq_ok_iff.1 hc
    have hinScope := hin.scope
    obtain ⟨f, whereAt, orderAt⟩ := c
    rcases h with hlt | ⟨_, ⟨-, rfl⟩, _, ⟨scope, hscope, rfl⟩, h⟩
    · exact absurd hlt (Nat.not_lt.2 hinScope)
    -- the part that is missing does not end with the text
    have hwhere : ∀ w, whereAt = some w → ¬ text.length < w + 7 := fun w hw =>
      Nat.not_lt.2 (byteAt_whereWord (hfound.whereAt.trans hw)).2
    have horder : ∀ o, orderAt = some o → ¬ text.length < o + 10 := fun o ho =>
      Nat.not_lt.2 (byteAt_orderWord (hfound.orderAt.trans ho)).2
    cases whereAt <;> cases orderAt <;>
      simp only [seen_bind_eq_none_iff, seen_ofFault_ne_none, seen_pure_ne_none, seen_part_eq_none_iff,
        Option.getD_some, Option.getD_none, hwhere, horder, or_false, and_false, exists_false] at h
    rename_i w o
    have ho := orderAt_of_whereAt hfound.whereAt hfound.orderAt (hin.order w o rfl rfl)
    obtain rfl : o = w + 6 := by omega
    exact ⟨f, w, hfound.fromAt, hfound.whereAt, hfound.orderAt, hinScope, scope, hscope⟩
  · rintro ⟨f, w, hf, hw, ho, hle, scope, hscope⟩
    refine ⟨⟨f, some w, some (w + 6)⟩, clauses_eq_ok_iff.2 ⟨⟨hf, hw, ho⟩, ⟨hle, ?_⟩⟩, .inr ?_⟩
    · simp
    · refine ⟨_, ⟨hle, rfl⟩, _, ⟨scope, hscope, rfl⟩, ?_⟩
      simp only [seen_bind_eq_none_iff, seen_part_eq_none_iff]
      exact .inl (by simp)

/-- **What reading by bytes gives of any text.** For a predicate every part that is taken is there, and the reading
is `Predicate.parse`. For a query it is `Query.parse`, with the query or the fault that this gives; a part is
missing, and the reading gives neither, exactly where the first `WHERE` and the first `ORDER BY` share a space behind
a scope that reads. -/
theorem parse_by_bytes (text : List Char) :
    (Predicate.sliced text).run = some (Predicate.parse text) ∧
      (∀ q, (sliced text).run = some (.ok q) ↔ parse text = .ok q) ∧
      (∀ fault, (sliced text).run = some (.error fault) ↔ parse text = .error (.parse fault)) ∧
      ((sliced text).run = none ↔ Tangled text) := by
  refine ⟨congrArg _ (Predicate.sliced_eq text), ?_, ?_, sliced_eq_none_iff text⟩
  · intro q
    rw [sliced_eq, seen_eq_ok_iff]
  · intro fault
    rw [sliced_eq, seen_eq_error_iff]

example : (sliced "SELECT * FROM /r WHERE ORDER BY x".toList).run.isNone = true := by decide +kernel

end Query

end IndexedStore
