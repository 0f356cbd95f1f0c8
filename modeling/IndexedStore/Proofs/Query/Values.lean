import IndexedStore.Proofs.Binary64.Shortest
import IndexedStore.Proofs.Key.Magnitude
import IndexedStore.Proofs.Query.Literals

/-!
# Printed values

The text of a value is always a literal (`Value.parseLiteral_display`), but not always of the same key: quotes inside a
text are not doubled, and a float that is printed without a point is read as an integer.
-/

namespace IndexedStore

/-! ## Integers -/

theorem toList_toString_int (n : Int) : (toString n).toList =
    Binary64.signOf (decide (n < 0)) ++ Binary64.digitChars n.natAbs := by
  cases n with
  | ofNat m =>
    have : ¬ ((m : Int) < 0) := by omega
    show (Nat.repr m).toList = _
    simp [Binary64.signOf, Binary64.digitChars]
  | negSucc m =>
    show ("-" ++ Nat.repr (m + 1)).toList = _
    simp [Binary64.signOf, Binary64.digitChars]

namespace Predicate

/-- An integer literal is a sign and what is behind it. -/
theorem integerLiteral?_signOf {negative : Bool} {ds : List Char}
    (hds : ∀ c, ds.head? = some c → c ≠ '-' ∧ c ≠ '+') : integerLiteral? (Binary64.signOf negative ++ ds) =
      if ds.isEmpty ∨ !ds.all Char.isDigit then none
      else word? (if negative then -(Binary64.digitsValue ds : Int) else Binary64.digitsValue ds) := by
  cases negative with
  | true => rfl
  | false =>
    show integerLiteral? ds = _
    unfold integerLiteral?
    split
    rename_i hsign
    split at hsign
    · exact absurd rfl (hds _ rfl).1
    · exact absurd rfl (hds _ rfl).2
    · cases hsign
      rfl

/-- The first characters of numbers. -/
def startsNumber (c : Char) : Bool := c == '-' || c.isDigit || c == 'i'

theorem toLower_of_startsNumber {c : Char} (h : startsNumber c = true) : c.toLower = c := by
  simp only [startsNumber, Bool.or_eq_true, beq_iff_eq] at h
  rcases h with (rfl | h) | rfl
  · rfl
  · exact Text.toLower_of_isDigit h
  · rfl

theorem startsNumber_of_signOf {negative : Bool} {body : List Char}
    (hbody : ∀ c, body.head? = some c → c.isDigit = true ∨ c = 'i') {c : Char}
    (h : (Binary64.signOf negative ++ body).head? = some c) : startsNumber c = true := by
  cases negative with
  | true =>
    cases h
    rfl
  | false => rcases hbody c h with h | rfl <;> simp [startsNumber, *]

/-- A text that begins like a number is none of the words and no text in quotes. -/
theorem parseLiteral_of_startsNumber {s : List Char} (h : ∀ c, s.head? = some c → startsNumber c = true) :
    (∀ i, integerLiteral? s = some i → parseLiteral s = .ok (.integer i)) ∧
      ∀ x, integerLiteral? s = none → Binary64.ofLiteral? s = some x → parseLiteral s = .ok (.float x) := by
  have hquoted : quotedLiteral? s = none := by
    unfold quotedLiteral?
    split
    · cases h _ rfl
    · rfl
  have hword : ∀ word : String, word.toList.head?.any (fun c => !startsNumber c) = true →
      String.ofList (Text.lower s) ≠ word := by
    rintro _ hfirst rfl
    cases s with
    | nil => cases hfirst
    | cons c s =>
      have hc := h c rfl
      simp [Text.lower, toLower_of_startsNumber hc, hc] at hfirst
  unfold parseLiteral
  simp only [hquoted]
  rw [if_neg (hword _ (by decide)), if_neg (hword _ (by decide)), if_neg (hword _ (by decide)),
    if_neg (hword _ (by decide))]
  constructor
  · intro i hi
    rw [hi]
  · intro x hi hx
    rw [hi, hx]

end Predicate

namespace Value

/-- The values that literals write. -/
def isLiteral : Value → Bool
  | .list _ | .map _ => false
  | _ => true

/-- The text of a value is a literal of the same key. In a text no two quotes stand side by side, and a float that is
printed without a point is the integer of its digits. -/
def Reprints : Value → Prop
  | .text s => ¬ ['\'', '\''] <:+: s.toList
  | .float x => ∀ i, Predicate.integerLiteral? x.shortest.toList = some i → x.toInt? = some i.toInt
  | _ => True

theorem parseLiteral_display_integer (i : Int64) :
    Predicate.parseLiteral (display (.integer i)).toList = .ok (.integer i) := by
  have hdigits : ∀ c ∈ Binary64.digitChars i.toInt.natAbs, c.isDigit = true := fun c hc =>
    Binary64.isDigit_digitChars hc
  have hhead : ∀ c, (Binary64.digitChars i.toInt.natAbs).head? = some c → c.isDigit = true := fun c hc =>
    hdigits c (List.mem_of_mem_head? hc)
  rw [display, toList_toString_int]
  refine (Predicate.parseLiteral_of_startsNumber fun c hc =>
    Predicate.startsNumber_of_signOf (fun c hc => .inl (hhead c hc)) hc).1 i ?_
  rw [Predicate.integerLiteral?_signOf fun c hc => Binary64.isDigit_ne_sign (hhead c hc),
    Binary64.digitsValue_digitChars, if_neg, word?_eq_some_iff]
  · simp only [decide_eq_true_eq]
    split <;> omega
  · simpa [Nat.toDigits_ne_nil, Binary64.digitChars] using hdigits

theorem exists_display_float (x : Binary64) : ∃ v', Predicate.parseLiteral (display (.float x)).toList = .ok v' ∧
    (Key.ofValue v' = Key.ofValue (.float x) ↔ Reprints (.float x)) := by
  cases hx : x.isNaN with
  | true =>
    have hshortest := Binary64.shortest_of_isNaN hx
    rw [display, Reprints, hshortest]
    refine ⟨.float .nan, rfl, iff_of_true ?_ ?_⟩
    · simp [Key.ofValue, Key.ofFloat, hx, show Binary64.nan.isNaN = true by decide]
    · intro i hi
      cases hi
  | false =>
    obtain ⟨hinteger, hfloat⟩ := Predicate.parseLiteral_of_startsNumber (s := x.shortest.toList) (by
      rw [Binary64.shortest_eq hx]
      exact fun c hc => Predicate.startsNumber_of_signOf (fun c hc => x.head?_unsignedText hc) hc)
    rw [display, Reprints]
    cases hi : Predicate.integerLiteral? x.shortest.toList with
    | none =>
      refine ⟨.float x, hfloat x hi (Binary64.ofLiteral?_shortest hx), iff_of_true rfl fun i hsome => ?_⟩
      cases hsome
    | some i =>
      refine ⟨.integer i, hinteger i hi, ?_⟩
      have hkey : Key.ofValue (.integer i) = Key.ofValue (.float x) ↔ Key.ofFloat x = .int i := by
        simp [Key.ofValue, eq_comm]
      rw [hkey, Key.ofFloat_eq_int_iff, ← Binary64.toInt?_eq_some_iff]
      simp

/-- **The text of a value is a literal.** -/
theorem parseLiteral_display {v : Value} (h : v.isLiteral = true) :
    ∃ v', Predicate.parseLiteral v.display.toList = .ok v' ∧ (Key.ofValue v' = Key.ofValue v ↔ v.Reprints) := by
  cases v with
  | null => exact ⟨.null, rfl, by simp [Reprints]⟩
  | undefined => exact ⟨.undefined, rfl, by simp [Reprints]⟩
  | bool b => exact ⟨.bool b, by cases b <;> rfl, by simp [Reprints]⟩
  | integer i => exact ⟨.integer i, parseLiteral_display_integer i, by simp [Reprints]⟩
  | float x => exact exists_display_float x
  | text s =>
    have hquoted : Predicate.quotedLiteral? (display (.text s)).toList = some (Text.undoubleQuotes s.toList) := by
      simp [display, Predicate.quotedLiteral?]
    refine ⟨.text (String.ofList (Text.undoubleQuotes s.toList)), ?_, ?_⟩
    · rw [Predicate.parseLiteral, hquoted]
    · simp only [Key.ofValue, Reprints, Except.ok.injEq, Option.some.injEq, Key.text.injEq]
      rw [← Text.undoubleQuotes_eq_self_iff, ← String.toList_inj, String.toList_ofList]
  | list items => cases h
  | map fields => cases h

/-- The shortest digits of a large float may be those of another integer. -/
example : ¬ Reprints (.float (.ofInt (2 ^ 60))) := fun h =>
  absurd (h 1152921504606847000 (by decide +kernel)) (by decide +kernel)

/-! ## Characters of their texts -/

/-- The characters, but for digits, that texts of values are written with. -/
def scalarLetters : List Char := "-.NULLUNDEFINEDtruefalseinfNaN".toList

/-- The text of a value is written with digits and a few other characters, unless the value is a text. -/
theorem mem_display {v : Value} (h : v.isLiteral = true) (htext : ∀ t, v ≠ .text t) {c : Char}
    (hc : c ∈ v.display.toList) : c.isDigit = true ∨ c ∈ scalarLetters := by
  have hword : ∀ word : String, (word.toList.all fun c => scalarLetters.contains c) = true → c ∈ word.toList →
      c ∈ scalarLetters := by
    intro word hall hc
    simpa using List.all_eq_true.1 hall c hc
  have hnumber : ∀ {negative : Bool} {body : List Char},
      (∀ c ∈ body, c.isDigit = true ∨ c ∈ ['.', 'i', 'n', 'f']) → c ∈ Binary64.signOf negative ++ body →
        c.isDigit = true ∨ c ∈ scalarLetters := by
    intro negative body hbody hc
    rcases List.mem_append.1 hc with hc | hc
    · have hsign : Binary64.signOf negative ⊆ scalarLetters := by cases negative <;> decide
      exact .inr (hsign hc)
    · exact (hbody c hc).imp_right fun hletter => (show ['.', 'i', 'n', 'f'] ⊆ scalarLetters by decide) hletter
  cases v with
  | null => exact .inr (hword "NULL" (by decide) hc)
  | undefined => exact .inr (hword "UNDEFINED" (by decide) hc)
  | bool b => cases b <;> exact .inr (hword _ (by decide) hc)
  | integer i =>
    rw [display, toList_toString_int] at hc
    exact hnumber (fun c hc => .inl (Binary64.isDigit_digitChars hc)) hc
  | float x =>
    cases hx : x.isNaN with
    | true =>
      have hshortest := Binary64.shortest_of_isNaN hx
      rw [display, hshortest] at hc
      exact .inr (hword _ (by decide) hc)
    | false =>
      rw [display, Binary64.shortest_eq hx] at hc
      exact hnumber (fun c hc => x.mem_unsignedText hc) hc
  | text t => exact absurd rfl (htext t)
  | list items => cases h
  | map fields => cases h

theorem display_ne_nil {v : Value} (h : v.isLiteral = true) : v.display.toList ≠ [] := by
  cases v with
  | null | undefined => decide
  | bool b => cases b <;> decide
  | integer i =>
    rw [display, toList_toString_int]
    exact fun hnil => Nat.toDigits_ne_nil (List.append_eq_nil_iff.1 hnil).2
  | float x =>
    cases hx : x.isNaN with
    | true =>
      have hshortest := Binary64.shortest_of_isNaN hx
      rw [display, hshortest]
      decide
    | false =>
      rw [display, Binary64.shortest_eq hx]
      exact fun hnil => x.unsignedText_ne_nil (List.append_eq_nil_iff.1 hnil).2
  | text t => simp [display]
  | list items => cases h
  | map fields => cases h

/-- The text of a value begins and ends with characters that are not blank, and with no symbol. -/
theorem solid_display {v : Value} (h : v.isLiteral = true) : Text.Solid v.display.toList ∧
    ∀ c, v.display.toList.head? = some c → Predicate.isSymbolChar c = false := by
  by_cases hv : ∃ t, v = .text t
  · obtain ⟨t, rfl⟩ := hv
    have htext : (display (.text t)).toList = '\'' :: (t.toList ++ ['\'']) := by simp [display]
    rw [htext]
    exact ⟨⟨⟨'\'', rfl, rfl⟩, '\'', by simp [List.getLast?_cons], rfl⟩, by rintro _ ⟨⟩; rfl⟩
  · have hmem : ∀ c ∈ v.display.toList, c.isDigit = true ∨ c ∈ scalarLetters := fun c =>
      mem_display h fun t ht => hv ⟨t, ht⟩
    refine ⟨Text.solid_of_unblank (display_ne_nil h) fun c hc => ?_, fun c hc => ?_⟩
    · refine (hmem c hc).elim Text.isBlank_of_isDigit fun hletter => ?_
      have hall : (scalarLetters.all fun c => !Text.isBlank c) = true := by decide
      simpa using List.all_eq_true.1 hall c hletter
    · cases hsymbol : Predicate.isSymbolChar c with
      | false => rfl
      | true =>
        have hmem := hmem c (List.mem_of_mem_head? hc)
        rcases Predicate.mark_cases (.inl hsymbol) with rfl | rfl | rfl | rfl | rfl <;> exact absurd hmem (by decide)

/-- The text of a value has no `ORDER BY` unless the value is a text that has it. -/
theorem orderWord_not_infix_display {v : Value} (h : v.isLiteral = true)
    (htext : ∀ t, v = .text t → ¬ Query.orderWord <:+: Text.upper t.toList) :
    ¬ Query.orderWord <:+: Text.upper ([' '] ++ (v.display.toList ++ [' '])) := by
  by_cases hv : ∃ t, v = .text t
  · obtain ⟨t, rfl⟩ := hv
    have hspace : ¬ Query.orderWord <:+: [' '] := fun hin => absurd hin.length_le (by decide)
    have hsplit : Text.upper ([' '] ++ ((display (.text t)).toList ++ [' '])) =
        [' '] ++ '\'' :: (Text.upper t.toList ++ '\'' :: [' ']) := by
      simp [display]
    rw [hsplit, Text.infix_append_cons_iff (by decide), Text.infix_append_cons_iff (by decide), not_or, not_or]
    exact ⟨hspace, htext t rfl, hspace⟩
  · intro hin
    obtain ⟨c, hc, hupper⟩ := List.mem_map.1 (hin.subset (show 'Y' ∈ Query.orderWord by decide))
    rw [List.mem_append, List.mem_append] at hc
    rcases hc with hc | hc | hc
    · rw [List.mem_singleton.1 hc] at hupper
      exact absurd hupper (by decide)
    · rcases mem_display h (fun t ht => hv ⟨t, ht⟩) hc with hdigit | hletter
      · rw [Text.toUpper_of_isDigit hdigit] at hupper
        subst hupper
        cases hdigit
      · have hall : (scalarLetters.all fun c => c.toUpper != 'Y') = true := by decide
        simpa [hupper] using List.all_eq_true.1 hall c hletter
    · rw [List.mem_singleton.1 hc] at hupper
      exact absurd hupper (by decide)

end Value

end IndexedStore
