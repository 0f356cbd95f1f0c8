import IndexedStore.Proofs.Query.Values

/-!
# Printed predicates

A predicate is printed as the text of its path, its symbol and the text of its value with a space between. Reading that
gives the path and the comparison back unless the second word of the path is `IS` (`Predicate.parse_display_iff`).
-/

namespace IndexedStore

namespace Predicate

/-! ## Predicates that are read -/

theorem make_eq_ok_iff {path : List Char} {op : Comparison} {v : Value} {p : Predicate} :
    make path op v = .ok p ↔ Path.parse path = .ok p.path ∧ p.comparison = op ∧ p.value = v := by
  obtain ⟨path', op', v'⟩ := p
  unfold make
  cases Path.parse path <;> simp [Except.map, eq_comm]

/-- What follows `IS` makes a comparison with null. -/
theorem parseIs_eq_ok {text path : List Char} {rest : List (List Char)} {p : Predicate}
    (h : parseIs text path rest = .ok p) : Path.parse path = .ok p.path ∧ p.value = .null := by
  unfold parseIs undefinedAt at h
  simp only at h
  split at h
  · exact ⟨(make_eq_ok_iff.1 h).1, (make_eq_ok_iff.1 h).2.2⟩
  · split at h
    · exact ⟨(make_eq_ok_iff.1 h).1, (make_eq_ok_iff.1 h).2.2⟩
    · cases h

theorem ofSymbol?_ne_isUndefined {s : String} : Comparison.ofSymbol? s ≠ some .isUndefined := by
  unfold Comparison.ofSymbol?
  grind

/-- A comparison is read from a path and a literal. -/
theorem parseComparison_eq_ok {text : List Char} {p : Predicate} (h : parseComparison text = .ok p) :
    ∃ literal, Path.parse (text.takeWhile fun c => !isSymbolChar c) = .ok p.path ∧ parseLiteral literal = .ok p.value ∧
      literal <:+: text ∧ p.comparison ≠ .isUndefined := by
  unfold parseComparison at h
  simp only at h
  split at h
  · cases h
  · split at h
    · cases h
    · rename_i op hop
      split at h
      · cases h
      · rename_i v hv
        obtain ⟨hpath, rfl, rfl⟩ := make_eq_ok_iff.1 h
        refine ⟨_, hpath, hv, ?_, fun hundefined => ofSymbol?_ne_isUndefined (hundefined ▸ hop)⟩
        exact (Text.trim_infix _).trans ((List.dropWhile_suffix _).trans (List.dropWhile_suffix _)).isInfix

/-- A predicate is read from a word and `IS`, or from a path and a literal. -/
theorem parse_cases {s : List Char} {p : Predicate} (h : parse s = .ok p) :
    (∃ word ∈ Text.words s, Path.parse word = .ok p.path ∧ p.value = .null) ∨
      ∃ path literal, Path.parse path = .ok p.path ∧ parseLiteral literal = .ok p.value ∧ literal <:+: s ∧
        p.comparison ≠ .isUndefined := by
  have hcomparison : parseComparison (Text.trim s) = .ok p → ∃ path literal, Path.parse path = .ok p.path ∧
      parseLiteral literal = .ok p.value ∧ literal <:+: s ∧ p.comparison ≠ .isUndefined := by
    intro h
    obtain ⟨literal, hpath, hvalue, hin, hop⟩ := parseComparison_eq_ok h
    exact ⟨_, literal, hpath, hvalue, hin.trans (Text.trim_infix s), hop⟩
  unfold parse at h
  simp only [Text.words_trim] at h
  split at h
  · rename_i word _ next rest hwords
    split at h
    · exact .inl ⟨word, by simp [hwords], parseIs_eq_ok h⟩
    · exact .inr (hcomparison h)
  · exact .inr (hcomparison h)

/-- The text that a literal writes is in the literal, but for doubled quotes. -/
theorem parseLiteral_eq_ok {s : List Char} {v : Value} (h : parseLiteral s = .ok v) : v.isLiteral = true ∧
    ∀ t, v = .text t → ∃ inner, t.toList = Text.undoubleQuotes inner ∧ inner <:+: s := by
  unfold parseLiteral at h
  split at h
  · rename_i inner hquoted
    cases h
    refine ⟨rfl, ?_⟩
    rintro _ ⟨⟩
    unfold quotedLiteral? at hquoted
    split at hquoted
    · rename_i rest
      split at hquoted
      · cases hquoted
        refine ⟨rest.dropLast, String.toList_ofList, ?_⟩
        exact (List.dropLast_prefix rest).isInfix.trans (List.suffix_cons _ _).isInfix
      · cases hquoted
    · cases hquoted
  · simp only at h
    grind [Value.isLiteral]

/-- What a predicate that is read is made of. -/
structure WellFormed (p : Predicate) : Prop where
  path : Path.parse p.path.text.toList = .ok p.path
  value : p.value.isLiteral = true
  undefined : p.comparison = .isUndefined → p.value = .null ∧ ∀ c ∈ p.path.text.toList, Text.isBlank c = false

theorem wellFormed_of_parse {s : List Char} {p : Predicate} (h : parse s = .ok p) : p.WellFormed := by
  rcases parse_cases h with ⟨word, hword, hpath, hvalue⟩ | ⟨path, literal, hpath, hvalue, -, hop⟩
  · obtain ⟨htext, hparse⟩ := Path.text_of_parse hpath
    refine ⟨hparse, by rw [hvalue]; rfl, fun _ => ⟨hvalue, fun c hc => ?_⟩⟩
    rw [htext] at hc
    exact Text.unblank_of_mem_words hword c ((Text.trim_infix word).subset hc)
  · exact ⟨(Path.text_of_parse hpath).2, (parseLiteral_eq_ok hvalue).1, fun h => absurd h hop⟩

/-! ## Their texts -/

/-- The text of a comparison. -/
theorem toList_display {p : Predicate} (h : p.comparison ≠ .isUndefined) : p.display.toList =
    p.path.text.toList ++ ([' '] ++ (p.comparison.symbol.toList ++ ([' '] ++ p.value.display.toList))) := by
  obtain ⟨path, op, v⟩ := p
  cases op <;> first | exact absurd rfl h | simp [display]

theorem ofSymbol?_symbol {op : Comparison} (h : op ≠ .isUndefined) : Comparison.ofSymbol? op.symbol = some op := by
  cases op <;> first | rfl | exact absurd rfl h

/-- A symbol is made of symbol characters. -/
theorem symbol_spec {op : Comparison} (h : op ≠ .isUndefined) :
    Comparison.ofSymbol? (String.ofList op.symbol.toList) = some op ∧ op.symbol.toList ≠ [] ∧
      ∀ c ∈ op.symbol.toList, isSymbolChar c = true := by
  have hsymbol : Comparison.ofSymbol? (String.ofList op.symbol.toList) = some op := by
    rw [String.ofList_toList]
    exact ofSymbol?_symbol h
  exact ⟨hsymbol, isSymbolChar_of_ofSymbol? hsymbol⟩

theorem exists_mark {op : Comparison} (h : op ≠ .isUndefined) : ∃ c ∈ op.symbol.toList, isSymbolChar c = true := by
  obtain ⟨-, hne, hall⟩ := symbol_spec h
  obtain ⟨c, hc⟩ := List.exists_mem_of_ne_nil _ hne
  exact ⟨c, hc, hall c hc⟩

/-- The symbol of a comparison is a word of its text. -/
theorem words_display {p : Predicate} (h : p.comparison ≠ .isUndefined) : Text.words p.display.toList =
    Text.words p.path.text.toList ++ p.comparison.symbol.toList :: Text.words p.value.display.toList := by
  have hspace : Text.isBlank ' ' = true := rfl
  obtain ⟨-, hne, hsymbol⟩ := symbol_spec h
  rw [toList_display h, List.singleton_append, List.singleton_append, Text.words_append_cons hspace,
    Text.words_append_cons hspace, Text.words_eq_singleton hne fun c hc => isBlank_of_mark (.inl (hsymbol c hc)),
    List.singleton_append]

theorem not_isForm_of_singleton {s first : List Char} (h : Text.words s = [first]) : ¬ IsForm s := by
  rintro ⟨w, hw, -⟩
  rw [h] at hw
  cases hw

/-- **A printed comparison is read as it was, but for its value, unless the second word of its path is `IS`.** -/
theorem parse_display_comparison {p p' : Predicate} (h : p.WellFormed) (hop : p.comparison ≠ .isUndefined) {v : Value}
    (hv : parseLiteral p.value.display.toList = .ok v) :
    parse p.display.toList = .ok p' ↔ ¬ IsForm p.path.text.toList ∧ p' = { p with value := v } := by
  have hspace : ∀ c ∈ [' '], Text.isBlank c = true := List.forall_mem_singleton.2 rfl
  have hread : ¬ IsForm p.display.toList → parse p.display.toList = .ok { p with value := v } := by
    intro his
    obtain ⟨hsolid, hhead⟩ := Value.solid_display h.value
    rw [parse_of_not_isForm his, toList_display hop]
    exact parseComparison_literal h.path (symbol_spec hop).1 hspace hspace hsolid hhead hv
  obtain ⟨mark, hmark, hsymbol⟩ := exists_mark hop
  have hwords := words_display hop
  obtain ⟨first, rest, hpath⟩ := List.exists_cons_of_ne_nil (Text.words_ne_nil (Path.ne_nil_of_parse h.path))
  rw [hpath] at hwords
  cases rest with
  | nil =>
    have hnot := not_isForm_of_words hwords (not_is_of_mem hmark (.inl hsymbol))
    rw [hread hnot, and_iff_right (not_isForm_of_singleton hpath)]
    simp [eq_comm]
  | cons second rest =>
    cases hsecond : Text.sameIgnoringCase second ['i', 's'] with
    | false =>
      rw [hread (not_isForm_of_words hwords hsecond), and_iff_right (not_isForm_of_words hpath hsecond)]
      simp [eq_comm]
    | true =>
      -- the symbol is then among what follows `IS`
      refine iff_of_false ?_ fun hp => hp.1 ⟨second, by rw [hpath]; rfl, hsecond⟩
      exact parse_ne_ok_of_mark hwords hsecond (w := p.comparison.symbol.toList) (by simp) hmark
        (.inl hsymbol) p'

/-- The words of a printed `IS UNDEFINED`. -/
theorem words_display_undefined {p : Predicate} (h : p.WellFormed) (hop : p.comparison = .isUndefined) :
    Text.words p.path.text.toList = [p.path.text.toList] ∧
      Text.words p.display.toList = [p.path.text.toList, "IS".toList, "UNDEFINED".toList] := by
  obtain ⟨path, op, v⟩ := p
  cases hop
  have hne : path.text.toList ≠ [] := fun hnil => Path.ne_nil_of_parse h.path (by rw [hnil]; rfl)
  have hpath := Text.words_eq_singleton hne (h.undefined rfl).2
  have hdisplay : (display ⟨path, .isUndefined, v⟩).toList = path.text.toList ++ ' ' :: "IS UNDEFINED".toList := by
    simp [display]
  refine ⟨hpath, ?_⟩
  rw [hdisplay, Text.words_append_cons rfl, hpath]
  rfl

theorem parse_display_undefined {p : Predicate} (h : p.WellFormed) (hop : p.comparison = .isUndefined) :
    parse p.display.toList = .ok p := by
  rw [parse_of_isForm (words_display_undefined h hop).2 rfl]
  exact make_eq_ok_iff.2 ⟨h.path, hop, (h.undefined hop).1⟩

/-- **A printed predicate is read as it was, but for its value, unless the second word of its path is `IS`.** -/
theorem parse_display_iff {p p' : Predicate} (h : p.WellFormed) {v : Value}
    (hv : parseLiteral p.value.display.toList = .ok v) :
    parse p.display.toList = .ok p' ↔ ¬ IsForm p.path.text.toList ∧ p' = { p with value := v } := by
  by_cases hop : p.comparison = .isUndefined
  · have hnull := (h.undefined hop).1
    rw [hnull] at hv
    cases hv
    rw [parse_display_undefined h hop, ← hnull, Except.ok.injEq,
      and_iff_right (not_isForm_of_singleton (words_display_undefined h hop).1)]
    exact eq_comm
  · exact parse_display_comparison h hop hv

/-! ## Keywords in them -/

/-- A printed predicate begins with its path. -/
theorem solid_display_predicate {p : Predicate} (h : p.WellFormed) : Text.Solid p.display.toList ∧
    ∃ rest, p.display.toList = p.path.text.toList ++ ' ' :: rest := by
  by_cases hop : p.comparison = .isUndefined
  · have hdisplay : p.display.toList = p.path.text.toList ++ ([' '] ++ "IS UNDEFINED".toList) := by
      obtain ⟨path, op, v⟩ := p
      cases hop
      simp [display]
    rw [hdisplay]
    exact ⟨(Path.solid_text h.path).append ⟨⟨'I', rfl, rfl⟩, 'D', rfl, rfl⟩ _, _, rfl⟩
  · have hsolid := (Path.solid_text h.path).append (Value.solid_display h.value).1
      ([' '] ++ (p.comparison.symbol.toList ++ [' ']))
    rw [toList_display hop]
    exact ⟨by simpa using hsolid, _, rfl⟩

/-- A word in front of a path does not belong to it. -/
theorem not_path_of_word {p : Predicate} (h : p.WellFormed) {path : Path} (rest : List Char) :
    Path.parse (['W', 'H', 'E', 'R', 'E', ' '] ++ (p.path.text.toList ++ rest)) ≠ .ok path := by
  intro hpath
  obtain ⟨c, more, htext, hc⟩ := Path.exists_text_cons h.path
  refine Path.not_gap hpath (a := 'E') (b := ' ') (c := c) (by decide) (by decide) hc ?_
  exact ⟨['W', 'H', 'E', 'R'], more ++ rest, by simp [htext]⟩

/-- A printed predicate with another word in front is not read. -/
theorem parse_word_display_ne_ok {p : Predicate} (h : p.WellFormed) (p' : Predicate) :
    parse (['W', 'H', 'E', 'R', 'E', ' '] ++ p.display.toList) ≠ .ok p' := by
  intro hp
  obtain ⟨hsolid, rest, hdisplay⟩ := solid_display_predicate h
  by_cases his : IsForm (['W', 'H', 'E', 'R', 'E', ' '] ++ p.display.toList)
  · -- the first word of the path is `IS`, and what follows it is more than may
    have hwords : Text.words (['W', 'H', 'E', 'R', 'E', ' '] ++ p.display.toList) =
        ['W', 'H', 'E', 'R', 'E'] :: Text.words p.display.toList :=
      Text.words_append_cons (s := ['W', 'H', 'E', 'R', 'E']) (c := ' ') rfl _
    obtain ⟨is, hget, hsame⟩ := his
    rw [hwords] at hget
    by_cases hop : p.comparison = .isUndefined
    · rw [(words_display_undefined h hop).2] at hwords hget
      cases hget
      rw [parse_of_isForm hwords hsame] at hp
      cases hp
    · obtain ⟨mark, hmark, hsymbol⟩ := exists_mark hop
      obtain ⟨first, more, hpath⟩ := List.exists_cons_of_ne_nil (Text.words_ne_nil (Path.ne_nil_of_parse h.path))
      rw [words_display hop, hpath] at hwords hget
      cases hget
      exact parse_ne_ok_of_mark hwords hsame (w := p.comparison.symbol.toList) (by simp) hmark (.inl hsymbol) p' hp
  · -- the word becomes a part of the path
    have htrim : Text.trim (['W', 'H', 'E', 'R', 'E', ' '] ++ p.display.toList) =
        ['W', 'H', 'E', 'R', 'E', ' '] ++ (p.path.text.toList ++ ' ' :: rest) := by
      rw [← hdisplay]
      exact (Text.Solid.append (s := ['W', 'H', 'E', 'R', 'E']) ⟨⟨'W', rfl, rfl⟩, 'E', rfl, rfl⟩ hsolid [' ']).trim_eq
    rw [parse_of_not_isForm his, htrim] at hp
    obtain ⟨_, hpath, -⟩ := parseComparison_eq_ok hp
    have hplain : ∀ c ∈ ['W', 'H', 'E', 'R', 'E', ' '] ++ p.path.text.toList, (!isSymbolChar c) = true := by
      intro c hc
      rcases List.mem_append.1 hc with hc | hc
      · have hall : (['W', 'H', 'E', 'R', 'E', ' '].all fun c => !isSymbolChar c) = true := by decide
        exact List.all_eq_true.1 hall c hc
      · simpa using fun hsymbol => not_mark_of_path h.path hc (.inl hsymbol)
    rw [← List.append_assoc, List.takeWhile_append_of_pos hplain, List.append_assoc] at hpath
    exact not_path_of_word h _ hpath

/-- Nor has that of a predicate. -/
theorem orderWord_not_infix_display {p : Predicate} (h : p.WellFormed)
    (htext : ∀ t, p.value = .text t → ¬ Query.orderWord <:+: Text.upper t.toList) :
    ¬ Query.orderWord <:+: Text.upper (' ' :: (p.display.toList ++ [' '])) := by
  by_cases hop : p.comparison = .isUndefined
  · have hfront : Path.parse (p.path.text.toList ++ [' ']) = .ok p.path := by
      rw [← h.path]
      exact Path.parse_congr (Text.trim_append_blank _ (List.forall_mem_singleton.2 rfl))
    have hsplit : Text.upper (' ' :: (p.display.toList ++ [' '])) =
        Text.upper (' ' :: (p.path.text.toList ++ [' '])) ++ 'I' :: "S UNDEFINED ".toList := by
      obtain ⟨path, op, v⟩ := p
      cases hop
      simp [display]
    rw [hsplit, Text.infix_append_cons_iff (by decide), not_or]
    refine ⟨Query.orderWord_not_infix_path hfront, fun hin => ?_⟩
    exact absurd (hin.subset (show 'Y' ∈ Query.orderWord by decide)) (by decide)
  · rw [toList_display hop, List.append_assoc, List.append_assoc, List.append_assoc, List.append_assoc,
      Query.orderWord_infix_comparison_iff h.path (List.forall_mem_singleton.2 rfl) (symbol_spec hop).1]
    exact Value.orderWord_not_infix_display h.value htext

end Predicate

end IndexedStore
