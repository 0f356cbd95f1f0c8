import IndexedStore.Proofs.Query.Layout
import IndexedStore.Proofs.Scope.Paths

/-!
# Text literals in queries

A text in single quotes, with every quote in it doubled, is the literal of that text. In a query it is read back
whatever stands in it, but for two things that are looked for in the text of the query before literals are:
`ORDER BY` between spaces, and, where no blank comes before the literal, `IS` as its second word
(`Query.Written.Reads.parse_text`). Then the query is refused, and never read as another one.
-/

namespace IndexedStore

/-- The literal of a text. -/
def quoted (s : List Char) : List Char := '\'' :: (Text.doubleQuotes s ++ ['\''])

theorem solid_quoted (s : List Char) : Text.Solid (quoted s) :=
  ⟨⟨'\'', rfl, by decide⟩, '\'', by simp [quoted, List.getLast?_cons], by decide⟩

namespace Predicate

theorem parseLiteral_quoted (s : List Char) : parseLiteral (quoted s) = .ok (.text (String.ofList s)) := by
  have hquoted : quotedLiteral? (quoted s) = some s := by
    simp [quoted, quotedLiteral?, Text.undoubleQuotes_doubleQuotes]
  rw [parseLiteral, hquoted]

/-- The second word of a text is `IS`, in any case. -/
def IsForm (text : List Char) : Prop :=
  ∃ w, (Text.words text)[1]? = some w ∧ Text.sameIgnoringCase w ['i', 's'] = true

theorem not_isForm_of_words {s first second : List Char} {rest : List (List Char)}
    (h : Text.words s = first :: second :: rest) (hsecond : Text.sameIgnoringCase second ['i', 's'] = false) :
    ¬ IsForm s := by
  rintro ⟨w, hw, hsame⟩
  rw [h] at hw
  cases hw
  rw [hsecond] at hsame
  cases hsame

/-- Only what comes after the first word matters. -/
theorem isForm_congr {s t first first' : List Char} {rest : List (List Char)} (hs : Text.words s = first :: rest)
    (ht : Text.words t = first' :: rest) : IsForm s ↔ IsForm t := by
  rw [IsForm, IsForm, hs, ht, List.getElem?_cons_succ, List.getElem?_cons_succ]

/-- A text whose second word is not `IS` is read as a comparison. -/
theorem parse_of_not_isForm {s : List Char} (h : ¬ IsForm s) : parse s = parseComparison (Text.trim s) := by
  unfold parse
  simp only [Text.words_trim]
  split
  · rename_i path word next rest hwords
    rw [if_neg fun his => h ⟨word, by simp [hwords], his⟩]
  · rfl

/-- A text whose second word is `IS`, and not the last, is read as a predicate with `IS`. -/
theorem parse_of_isForm {s first second next : List Char} {rest : List (List Char)}
    (hwords : Text.words s = first :: second :: next :: rest) (his : Text.sameIgnoringCase second ['i', 's'] = true) :
    parse s = parseIs (Text.trim s) first (next :: rest) := by
  unfold parse
  simp only [Text.words_trim, hwords]
  rw [if_pos his]

/-! ## Symbols and quotes -/

theorem mark_cases {c : Char} (h : isSymbolChar c = true ∨ c = '\'') :
    c = '<' ∨ c = '>' ∨ c = '=' ∨ c = '!' ∨ c = '\'' := by
  simpa [isSymbolChar, or_assoc] using h

/-- Neither symbols nor quotes follow `IS`. -/
theorem parseIs_ne_ok {text path w : List Char} {rest : List (List Char)} {c : Char} (hw : w ∈ rest) (hc : c ∈ w)
    (hmark : isSymbolChar c = true ∨ c = '\'') (p : Predicate) : parseIs text path rest ≠ .ok p := by
  have hupper : c.toUpper = c := by rcases mark_cases hmark with rfl | rfl | rfl | rfl | rfl <;> rfl
  have hne : ∀ allowed : List String,
      (allowed.all fun word => word.toList.all fun d => !isSymbolChar d && d != '\'') = true →
        rest.map (fun word => String.ofList (Text.upper word)) ≠ allowed := by
    rintro _ hallowed rfl
    have hword := List.all_eq_true.1 hallowed _ (List.mem_map_of_mem hw)
    have hchar := List.all_eq_true.1 hword c (by
      rw [String.toList_ofList, ← hupper]
      exact List.mem_map_of_mem hc)
    rcases mark_cases hmark with rfl | rfl | rfl | rfl | rfl <;> exact absurd hchar (by decide)
  unfold parseIs
  simp only
  rw [if_neg (not_or.2 ⟨hne _ (by decide), hne _ (by decide)⟩),
    if_neg (not_or.2 ⟨hne _ (by decide), not_or.2 ⟨hne _ (by decide), hne _ (by decide)⟩⟩)]
  simp

/-- A text whose second word is `IS` is not read if a later word has a symbol or a quote. -/
theorem parse_ne_ok_of_mark {s first second w : List Char} {rest : List (List Char)} {c : Char}
    (hwords : Text.words s = first :: second :: rest) (his : Text.sameIgnoringCase second ['i', 's'] = true)
    (hw : w ∈ rest) (hc : c ∈ w) (hmark : isSymbolChar c = true ∨ c = '\'') (p : Predicate) : parse s ≠ .ok p := by
  obtain ⟨next, rest, rfl⟩ := List.exists_cons_of_ne_nil (List.ne_nil_of_mem hw)
  rw [parse_of_isForm hwords his]
  exact parseIs_ne_ok hw hc hmark p

/-- A text that ends with a quote is not read if its second word is `IS`. -/
theorem parse_ne_ok_of_isForm {s : List Char} (h : IsForm (s ++ ['\''])) (p : Predicate) :
    parse (s ++ ['\'']) ≠ .ok p := by
  obtain ⟨is, his, hsame⟩ := h
  obtain ⟨w, hlast⟩ := Text.getLast?_words s (c := '\'') (by decide)
  match hwords : Text.words (s ++ ['\'']), his with
  | [_, _], his =>
    -- a last word that ends with a quote is not `IS`
    cases his
    rw [hwords] at hlast
    cases hlast
    have hends := congrArg List.getLast? (beq_iff_eq.1 hsame)
    simp [Text.lower] at hends
  | first :: _ :: next :: rest, his =>
    cases his
    rw [hwords, List.getLast?_cons_cons, List.getLast?_cons_cons] at hlast
    exact parse_ne_ok_of_mark hwords hsame (List.mem_of_getLast? hlast)
      (List.mem_append_right w (List.mem_singleton_self _)) (.inr rfl) p

/-- A symbol that writes a comparison is made of symbol characters. -/
theorem isSymbolChar_of_ofSymbol? {symbol : List Char} {op : Comparison}
    (h : Comparison.ofSymbol? (String.ofList symbol) = some op) :
    symbol ≠ [] ∧ ∀ c ∈ symbol, isSymbolChar c = true := by
  have hsymbols : ∀ s, Comparison.ofSymbol? s = some op →
      s ∈ ["=", "==", "!=", "<>", "<", "<=", ">", ">="] := by
    intro s hs
    unfold Comparison.ofSymbol? at hs
    simp only [List.mem_cons, List.not_mem_nil, or_false]
    grind
  have hall : ∀ s ∈ ["=", "==", "!=", "<>", "<", "<=", ">", ">="],
      s.toList ≠ [] ∧ s.toList.all isSymbolChar = true := by decide
  simpa using hall _ (hsymbols _ h)

theorem isBlank_of_mark {c : Char} (h : isSymbolChar c = true ∨ c = '\'') : Text.isBlank c = false := by
  rcases mark_cases h with rfl | rfl | rfl | rfl | rfl <;> rfl

/-- Neither symbols nor quotes stand in a path. -/
theorem not_mark_of_path {path : List Char} {p : Path} (hpath : Path.parse path = .ok p) {c : Char} (hc : c ∈ path) :
    ¬ (isSymbolChar c = true ∨ c = '\'') := by
  intro hmark
  rcases Path.mem_of_parse hpath hc with h | h | ⟨name, hid, h⟩
  · rw [isBlank_of_mark hmark] at h
    cases h
  · subst h
    revert hmark
    decide
  · have hname := toNat_of_isIdentifier hid h
    rcases mark_cases hmark with rfl | rfl | rfl | rfl | rfl <;> exact absurd hname (by decide)

/-- A word with a symbol character or a quote is not `IS`. -/
theorem not_is_of_mem {w : List Char} {c : Char} (hc : c ∈ w) (hmark : isSymbolChar c = true ∨ c = '\'') :
    Text.sameIgnoringCase w ['i', 's'] = false := by
  rw [Text.sameIgnoringCase, beq_eq_false_iff_ne]
  intro h
  have hin : c.toLower ∈ Text.lower w := List.mem_map_of_mem hc
  rw [h] at hin
  rcases mark_cases hmark with rfl | rfl | rfl | rfl | rfl <;> exact absurd hin (by decide)

/-! ## Comparisons with a literal -/

section

variable {path before symbol after : List Char} {p : Path} {op : Comparison} (literal : List Char)

/-- A comparison is read from the parts around its first symbol. -/
theorem parseComparison_of_parts {front rest : List Char} {value : Value}
    (hfront : ∀ c ∈ front, isSymbolChar c = false) (hop : Comparison.ofSymbol? (String.ofList symbol) = some op)
    (hrest : ∀ c, rest.head? = some c → isSymbolChar c = false) (hvalue : parseLiteral (Text.trim rest) = .ok value) :
    parseComparison (front ++ (symbol ++ rest)) = make front op value := by
  obtain ⟨hne, hsymbol⟩ := isSymbolChar_of_ofSymbol? hop
  obtain ⟨first, more, rfl⟩ := List.exists_cons_of_ne_nil hne
  have hfirst : ∀ c, (first :: more ++ rest).head? = some c → (!isSymbolChar c) = false := by
    rintro c ⟨⟩
    rw [hsymbol first List.mem_cons_self]
    rfl
  obtain ⟨htake, hdrop⟩ := Text.span_append (p := fun c => !isSymbolChar c) (by simpa using hfront) hfirst
  obtain ⟨hsymbolEq, hrestEq⟩ := Text.span_append hsymbol hrest
  unfold parseComparison
  simp only [htake, hdrop, hsymbolEq, hrestEq, hop, hvalue]
  rfl

/-- A comparison with a literal. -/
theorem parseComparison_literal {written : List Char} {value : Value} (hpath : Path.parse path = .ok p)
    (hop : Comparison.ofSymbol? (String.ofList symbol) = some op) (hbefore : ∀ c ∈ before, Text.isBlank c = true)
    (hafter : ∀ c ∈ after, Text.isBlank c = true) (hwritten : Text.Solid written)
    (hhead : ∀ c, written.head? = some c → isSymbolChar c = false) (hvalue : parseLiteral written = .ok value) :
    parseComparison (Text.trim (path ++ (before ++ (symbol ++ (after ++ written))))) = .ok ⟨p, op, value⟩ := by
  obtain ⟨lead, c, rest, rfl, hlead, hc⟩ := Text.exists_start (Path.ne_nil_of_parse hpath)
  have hsolid : Text.Solid ((c :: rest ++ before) ++ (symbol ++ (after ++ written))) := by
    obtain ⟨-, last, hlast, hunblank⟩ := hwritten
    refine ⟨⟨c, rfl, hc⟩, last, ?_, hunblank⟩
    rw [List.getLast?_append, List.getLast?_append, List.getLast?_append, hlast]
    rfl
  have hfront : Path.parse (c :: rest ++ before) = .ok p := by
    rw [← hpath]
    apply Path.parse_congr
    rw [Text.trim_append_blank _ hbefore, Text.trim_blank_append hlead]
  have hplain : ∀ d ∈ c :: rest ++ before, isSymbolChar d = false := fun d hd => by
    simpa using fun hsymbol => not_mark_of_path hfront hd (.inl hsymbol)
  have hstart : ∀ d, (after ++ written).head? = some d → isSymbolChar d = false := by
    intro d hd
    cases after with
    | nil => exact hhead d hd
    | cons first after =>
      cases hd
      cases hsymbol : isSymbolChar d with
      | false => rfl
      | true => exact absurd (hafter d List.mem_cons_self) (by simp [isBlank_of_mark (.inl hsymbol)])
  have htrim : parseLiteral (Text.trim (after ++ written)) = .ok value := by
    rw [Text.trim_blank_append hafter, hwritten.trim_eq, hvalue]
  rw [List.append_assoc, Text.trim_blank_append hlead, ← List.append_assoc (c :: rest), hsolid.trim_eq,
    parseComparison_of_parts hplain hop hstart htrim, make, hfront]
  rfl

/-- **A comparison with the literal of a text is read unless its second word is `IS`.** -/
theorem parse_quoted_iff (hpath : Path.parse path = .ok p)
    (hop : Comparison.ofSymbol? (String.ofList symbol) = some op) (hbefore : ∀ c ∈ before, Text.isBlank c = true)
    (hafter : ∀ c ∈ after, Text.isBlank c = true) (q : Predicate) :
    parse (path ++ (before ++ (symbol ++ (after ++ quoted literal)))) = .ok q ↔
      q = ⟨p, op, .text (String.ofList literal)⟩ ∧
        ¬ IsForm (path ++ (before ++ (symbol ++ (after ++ quoted literal)))) := by
  by_cases his : IsForm (path ++ (before ++ (symbol ++ (after ++ quoted literal))))
  · have hquote : path ++ (before ++ (symbol ++ (after ++ quoted literal))) =
        (path ++ (before ++ (symbol ++ (after ++ '\'' :: Text.doubleQuotes literal)))) ++ ['\''] := by
      simp [quoted]
    rw [hquote] at his ⊢
    exact iff_of_false (parse_ne_ok_of_isForm his q) fun h => h.2 his
  · have hhead : ∀ c, (quoted literal).head? = some c → isSymbolChar c = false := by
      rintro _ ⟨⟩
      rfl
    rw [parse_of_not_isForm his, parseComparison_literal hpath hop hbefore hafter (solid_quoted literal) hhead
      (parseLiteral_quoted literal)]
    simp [his, eq_comm]

/-! ## The second word -/

/-- The word that the symbol begins in stands behind words of the path, whatever comes next. -/
theorem exists_symbol_word (path : List Char) (hop : Comparison.ofSymbol? (String.ofList symbol) = some op)
    (hbefore : ∀ c ∈ before, Text.isBlank c = true) : ∃ earlier word, (∀ w ∈ earlier, w ∈ Text.words path) ∧
      (∃ c ∈ word, isSymbolChar c = true) ∧ (∀ c ∈ word, Text.isBlank c = false) ∧
        ∀ t, Text.words (path ++ (before ++ (symbol ++ t))) = earlier ++ Text.words (word ++ t) := by
  obtain ⟨hne, hsymbol⟩ := isSymbolChar_of_ofSymbol? hop
  obtain ⟨first, more, rfl⟩ := List.exists_cons_of_ne_nil hne
  have hunblank : ∀ c ∈ first :: more, Text.isBlank c = false := fun c hc => isBlank_of_mark (.inl (hsymbol c hc))
  obtain ⟨earlier, front, hearlier, hfront, hwords⟩ :=
    Text.exists_words_cons (path ++ before) (hunblank first List.mem_cons_self)
  rw [Text.words_append_blank path hbefore] at hearlier
  refine ⟨earlier, front ++ first :: more, hearlier, ⟨first, by simp, hsymbol first List.mem_cons_self⟩, ?_, ?_⟩
  · intro c hc
    exact (List.mem_append.1 hc).elim (hfront c) (hunblank c)
  · intro t
    rw [← List.append_assoc path, List.cons_append, hwords]
    simp

/-- Behind one word the second word is `IS` only if no blank comes before the literal. -/
theorem isForm_word_iff {word : List Char} (hne : word ≠ []) (hword : ∀ c ∈ word, Text.isBlank c = false)
    (hafter : ∀ c ∈ after, Text.isBlank c = true) :
    IsForm (word ++ (after ++ quoted literal)) ↔
      (Text.words (word ++ (after ++ ['\'']))).length = 1 ∧ IsForm (quoted literal) := by
  obtain ⟨m, rest, hextended⟩ := Text.exists_words_append (Text.doubleQuotes literal ++ ['\''])
  have hone : ∀ c ∈ ['\''], Text.isBlank c = false := List.forall_mem_singleton.2 rfl
  have hquoted : Text.words (quoted literal) = ('\'' :: m) :: rest := hextended ['\''] (by simp) hone
  cases after with
  | cons b after =>
    obtain ⟨hb, hafter⟩ := List.forall_mem_cons.1 hafter
    have hapart : ∀ t, Text.words (word ++ (b :: after ++ t)) = word :: Text.words t := by
      intro t
      rw [List.cons_append, Text.words_append_cons hb, Text.words_eq_singleton hne hword,
        Text.words_blank_append hafter]
      rfl
    refine iff_of_false ?_ ?_
    · exact not_isForm_of_words ((hapart _).trans (congrArg _ hquoted)) (not_is_of_mem (c := '\'') (by simp) (.inr rfl))
    · rw [hapart, Text.words_eq_singleton (by simp) hone]
      simp
  | nil =>
    have hglued := Text.unblank_concat hword (c := '\'') (by decide)
    have hsingle : (Text.words (word ++ ([] ++ ['\'']))).length = 1 := by
      rw [List.nil_append, Text.words_eq_singleton (by simp) hglued]
      rfl
    rw [and_iff_right hsingle]
    exact isForm_congr (by simpa [quoted] using hextended _ (by simp) hglued) hquoted

/-- **Where the second word is `IS`.** If no word of the path is, it is so only where the text is one word up to the
literal, and the second word of the literal is `IS`. -/
theorem isForm_quoted_iff (hop : Comparison.ofSymbol? (String.ofList symbol) = some op)
    (hbefore : ∀ c ∈ before, Text.isBlank c = true) (hafter : ∀ c ∈ after, Text.isBlank c = true)
    (his : ∀ w ∈ Text.words path, Text.sameIgnoringCase w ['i', 's'] = false) :
    IsForm (path ++ (before ++ (symbol ++ (after ++ quoted literal)))) ↔
      (Text.words (path ++ (before ++ (symbol ++ (after ++ ['\'']))))).length = 1 ∧ IsForm (quoted literal) := by
  obtain ⟨earlier, word, hearlier, ⟨c, hc, hsymbol⟩, hword, hwords⟩ := exists_symbol_word path hop hbefore
  have hne : word ≠ [] := List.ne_nil_of_mem hc
  cases earlier with
  | nil =>
    rw [IsForm, hwords, hwords]
    exact isForm_word_iff literal hne hword hafter
  | cons w earlier =>
    refine iff_of_false ?_ ?_
    · -- the second word is one of the path's, or has the symbol in it
      obtain ⟨m, rest, hextended⟩ := Text.exists_words_append (after ++ quoted literal)
      have hall := hwords (after ++ quoted literal)
      rw [hextended _ hne hword] at hall
      cases earlier with
      | nil => exact not_isForm_of_words hall (not_is_of_mem (List.mem_append_left _ hc) (.inl hsymbol))
      | cons w' earlier => exact not_isForm_of_words hall (his _ (hearlier _ (by simp)))
    · obtain ⟨m, rest, hextended⟩ := Text.exists_words_append (after ++ ['\''])
      rw [hwords, hextended _ hne hword]
      simp

end

end Predicate

namespace Query

/-- The two words of `ORDER BY` do not stand in a path. -/
theorem orderWord_not_infix_path {s : List Char} {path : Path} (h : Path.parse s = .ok path) :
    ¬ orderWord <:+: Text.upper (' ' :: s) := by
  intro hin
  have hgap : ['R', ' ', 'B'] <:+: ' ' :: Text.upper s :=
    List.IsInfix.trans ⟨[' ', 'O', 'R', 'D', 'E'], ['Y', ' '], rfl⟩ hin
  have hin : ['R', ' ', 'B'] <:+: Text.upper s := by
    simpa [List.infix_cons_iff, List.cons_prefix_cons] using hgap
  obtain ⟨gap, hsub, hgap⟩ := List.infix_map_iff.1 hin
  obtain ⟨a, b, c, rfl⟩ := List.length_eq_three.1 (show gap.length = 3 by simpa using (congrArg List.length hgap).symm)
  simp only [List.map_cons, List.map_nil, List.cons.injEq, and_true] at hgap
  obtain ⟨ha, hb, hc⟩ := hgap
  have hplain : ∀ {c d : Char}, d = c.toUpper → d ≠ '.' → Text.isBlank c = Text.isBlank d ∧ c ≠ '.' := by
    rintro c _ rfl hd
    exact ⟨(Text.isBlank_toUpper c).symm, fun hc => hd ((Text.toUpper_eq_iff (by decide)).2 hc)⟩
  exact Path.not_gap h (hplain ha (by decide)) (hplain hb (by decide)) (hplain hc (by decide)) hsub

/-- Nor does `ORDER BY` stand in blanks. -/
theorem orderWord_not_infix_blank {s : List Char} (h : ∀ c ∈ s, Text.isBlank c = true) :
    ¬ orderWord <:+: Text.upper s := by
  intro hin
  obtain ⟨c, hc, hupper⟩ := List.mem_map.1 (hin.subset (show 'Y' ∈ orderWord by decide))
  have hblank := h c hc
  rw [← Text.isBlank_toUpper, hupper] at hblank
  cases hblank

/-- Up to the symbol of a comparison `ORDER BY` does not stand. -/
theorem orderWord_infix_comparison_iff {path before symbol : List Char} {p : Path} {op : Comparison}
    (hpath : Path.parse path = .ok p) (hbefore : ∀ c ∈ before, Text.isBlank c = true)
    (hop : Comparison.ofSymbol? (String.ofList symbol) = some op) (rest : List Char) :
    orderWord <:+: Text.upper (' ' :: (path ++ (before ++ (symbol ++ rest)))) ↔ orderWord <:+: Text.upper rest := by
  have hnil : ¬ orderWord <:+: [] := by simp [orderWord]
  have hmark : ∀ c, Predicate.isSymbolChar c = true → c.toUpper ∉ orderWord := by
    intro c hc
    rcases Predicate.mark_cases (.inl hc) with rfl | rfl | rfl | rfl | rfl <;> decide
  have hmore : ∀ more : List Char, (∀ c ∈ more, Predicate.isSymbolChar c = true) →
      (orderWord <:+: Text.upper (more ++ rest) ↔ orderWord <:+: Text.upper rest) := by
    intro more hall
    induction more with
    | nil => rfl
    | cons c more ih =>
      obtain ⟨hc, hall⟩ := List.forall_mem_cons.1 hall
      rw [List.cons_append, Text.upper_cons, ← List.nil_append (c.toUpper :: _),
        Text.infix_append_cons_iff (hmark c hc), or_iff_right hnil, ih hall]
  obtain ⟨hne, hsymbol⟩ := Predicate.isSymbolChar_of_ofSymbol? hop
  obtain ⟨first, more, rfl⟩ := List.exists_cons_of_ne_nil hne
  obtain ⟨hfirst, hall⟩ := List.forall_mem_cons.1 hsymbol
  have hfront : Path.parse (path ++ before) = .ok p := by
    rw [← hpath]
    exact Path.parse_congr (Text.trim_append_blank _ hbefore)
  have hsplit : Text.upper (' ' :: (path ++ (before ++ (first :: more ++ rest)))) =
      Text.upper (' ' :: (path ++ before)) ++ first.toUpper :: Text.upper (more ++ rest) := by
    simp
  rw [hsplit, Text.infix_append_cons_iff (hmark first hfirst), or_iff_right (orderWord_not_infix_path hfront),
    hmore more hall]

/-! ## Written queries -/

/-- A query that compares a path with a text, as it is written. -/
structure Written where
  scope : List Char
  path : List Char
  /-- What stands between the path and the symbol. -/
  before : List Char
  symbol : List Char
  /-- What stands between the symbol and the literal. -/
  after : List Char
  /-- The text that the literal is of. -/
  literal : List Char
  order : Option (List Char)

namespace Written

def predicate (w : Written) : List Char := w.path ++ (w.before ++ (w.symbol ++ (w.after ++ quoted w.literal)))

def orderClause (w : Written) : List Char :=
  match w.order with
  | none => []
  | some order => orderWord ++ order

def text (w : Written) : List Char := selectWords ++ (w.scope ++ (whereWord ++ (w.predicate ++ w.orderClause)))

/-- The text up to the closing quote of the literal. -/
def upToQuote (w : Written) : List Char :=
  selectWords ++ (w.scope ++ (whereWord ++
    (w.path ++ (w.before ++ (w.symbol ++ (w.after ++ '\'' :: Text.doubleQuotes w.literal))))))

theorem text_eq (w : Written) : w.text = w.upToQuote ++ '\'' :: w.orderClause := by
  simp [text, upToQuote, predicate, quoted]

def layout (w : Written) : Layout := ⟨w.scope, some w.predicate, w.order⟩

theorem text_layout (w : Written) : w.layout.text = w.text := by
  rw [text, orderClause, Layout.text, layout, Layout.clause, List.append_assoc]
  cases w.order <;> rfl

/-- What stands in the text of the literal, without quotes, stands before the closing quote. -/
theorem infix_upToQuote {w : Written} {keyword : List Char} (hquote : '\'' ∉ keyword) (hne : keyword ≠ [])
    (h : keyword <:+: Text.upper w.literal) : keyword <:+: Text.upper w.upToQuote := by
  rw [← Text.infix_doubleQuotes_iff hquote hne, ← Text.upper_doubleQuotes] at h
  refine h.trans (List.IsInfix.map _ (List.IsSuffix.isInfix ?_))
  exact ⟨selectWords ++ (w.scope ++ (whereWord ++ (w.path ++ (w.before ++ (w.symbol ++ (w.after ++ ['\''])))))), by
    simp [upToQuote]⟩

/-- What the parts of a written query read as by themselves. There are blanks at most around the symbol, and the scope
has no keyword of a later clause. -/
structure Reads (w : Written) (scope : Scope) (path : Path) (op : Comparison) (order : Option Path) : Prop where
  scope : Scope.parse w.scope = .ok scope
  noWhere : ¬ whereWord <:+: Text.upper (' ' :: (w.scope ++ [' ']))
  noOrder : ¬ orderWord <:+: Text.upper (' ' :: (w.scope ++ [' ']))
  path : Path.parse w.path = .ok path
  before : ∀ c ∈ w.before, Text.isBlank c = true
  symbol : Comparison.ofSymbol? (String.ofList w.symbol) = some op
  after : ∀ c ∈ w.after, Text.isBlank c = true
  order : w.order.map Path.parse = order.map .ok

variable {w : Written} {scope : Scope} {path : Path} {op : Comparison} {order : Option Path}

/-- `ORDER BY` stands in the predicate where it stands in the text of the literal. -/
theorem Reads.orderWord_infix_iff (h : w.Reads scope path op order) :
    orderWord <:+: Text.upper (' ' :: (w.predicate ++ [' '])) ↔ orderWord <:+: Text.upper w.literal := by
  have hsplit : Text.upper (w.after ++ (quoted w.literal ++ [' '])) =
      Text.upper w.after ++ '\'' :: (Text.doubleQuotes (Text.upper w.literal) ++ '\'' :: [' ']) := by
    simp [quoted, Text.upper_doubleQuotes]
  have hspace : ¬ orderWord <:+: [' '] := fun hin => absurd hin.length_le (by decide)
  rw [predicate, List.append_assoc, List.append_assoc, List.append_assoc, List.append_assoc,
    orderWord_infix_comparison_iff h.path h.before h.symbol, hsplit, Text.infix_append_cons_iff (by decide),
    or_iff_right (orderWord_not_infix_blank h.after), Text.infix_append_cons_iff (by decide), or_iff_left hspace,
    Text.infix_doubleQuotes_iff (by decide) (by decide)]

/-- Without `ORDER BY` in the literal no keyword interferes. -/
theorem Reads.clear (h : w.Reads scope path op order) (hin : ¬ orderWord <:+: Text.upper w.literal) :
    w.layout.Clear where
  scopeWhere := h.noWhere
  scopeOrder := h.noOrder
  predicate := by
    rintro _ ⟨⟩
    exact fun hpredicate => hin (h.orderWord_infix_iff.1 hpredicate)
  order := nofun

/-- With `ORDER BY` in the literal, what would be the order has the closing quote in it. -/
theorem not_readsOrder (hin : orderWord <:+: Text.upper w.literal) {c : Clauses} (hc : c.FoundIn w.text)
    (order' : Option Path) : ¬ c.ReadsOrder w.text order' := by
  obtain ⟨o, ho⟩ := Text.exists_find?_of_infix (infix_upToQuote (by decide) (by decide) hin)
  have hle := Text.find?_add_le ho (by decide)
  have hfound : c.orderAt = some o := by
    rw [← hc.orderAt, text_eq, Text.upper_append]
    exact Text.find?_append_of_eq_some ho
  rw [Clauses.ReadsOrder, hfound]
  rintro ⟨path', -, hpath'⟩
  have hquote : '\'' ∈ w.text.drop (o + 10) := by
    rw [text_eq, List.drop_append_of_le_length (by simpa [orderWord] using hle)]
    simp
  exact Predicate.not_mark_of_path hpath' hquote (.inr rfl)

/-- **A written query reads as what its parts read as**, except where the text of the literal has `ORDER BY` between
spaces or `IS` is the second word of the predicate. Unless a word of the path is `IS`, the second can only be where
no blank comes before the literal and `IS` is its second word. -/
theorem Reads.parse_text (h : w.Reads scope path op order) :
    (∀ q, parse w.text = .ok q ↔
      q = ⟨scope, some ⟨path, op, .text (String.ofList w.literal)⟩, order, none⟩ ∧
        ¬ orderWord <:+: Text.upper w.literal ∧ ¬ Predicate.IsForm w.predicate) ∧
    ((∀ word ∈ Text.words w.path, Text.sameIgnoringCase word ['i', 's'] = false) →
      (Predicate.IsForm w.predicate ↔
        (Text.words (w.path ++ (w.before ++ (w.symbol ++ (w.after ++ ['\'']))))).length = 1 ∧
          Predicate.IsForm (quoted w.literal))) := by
  refine ⟨fun q => ?_, Predicate.isForm_quoted_iff w.literal h.symbol h.before h.after⟩
  by_cases hin : orderWord <:+: Text.upper w.literal
  · refine iff_of_false ?_ fun hq => hq.2.1 hin
    rw [parse_eq_ok_iff]
    rintro ⟨c, hc, -, -, horder, -⟩
    exact not_readsOrder hin (clauses_eq_ok_iff.1 hc).1 _ horder
  · have hpredicate : ∀ p, Predicate.parse w.predicate = .ok p ↔
        p = ⟨path, op, .text (String.ofList w.literal)⟩ ∧ ¬ Predicate.IsForm w.predicate :=
      Predicate.parse_quoted_iff w.literal h.path h.symbol h.before h.after
    rw [← text_layout, (h.clear hin).parse_eq_ok_iff]
    obtain ⟨scope', predicate', order', hint'⟩ := q
    show Scope.parse w.scope = .ok scope' ∧ some (Predicate.parse w.predicate) = predicate'.map .ok ∧
      w.order.map Path.parse = order'.map .ok ∧ hint' = none ↔ _
    rw [h.scope, h.order]
    simp only [Query.mk.injEq, Except.ok.injEq, hin, not_false_eq_true, true_and]
    constructor
    · rintro ⟨rfl, hp, horder, rfl⟩
      obtain ⟨p, rfl, hparse⟩ := Option.map_eq_some_iff.1 hp.symm
      obtain ⟨rfl, his⟩ := (hpredicate p).1 hparse.symm
      exact ⟨⟨rfl, rfl, (Option.map_injective (fun _ _ => Except.ok.inj) horder).symm, rfl⟩, his⟩
    · rintro ⟨⟨rfl, rfl, rfl, rfl⟩, his⟩
      exact ⟨rfl, congrArg some ((hpredicate _).2 ⟨rfl, his⟩), rfl, rfl⟩

/-- A literal with quotes, symbols and keywords in it, right behind the symbol. -/
theorem Reads.parse_text_busy :
    parse "SELECT * FROM /r r WHERE r.x<>'it''s where is < order by' ORDER BY r.y".toList =
      .ok ⟨⟨"/r r", "/r", [⟨some "r", none⟩]⟩, some ⟨⟨"r.x", ["r", "x"]⟩, .ne, .text "it's where is < order by"⟩,
        some ⟨"r.y", ["r", "y"]⟩, none⟩ := by
  let w : Written := ⟨"/r r".toList, "r.x".toList, [], "<>".toList, [], "it's where is < order by".toList,
    some "r.y".toList⟩
  have h : w.Reads ⟨"/r r", "/r", [⟨some "r", none⟩]⟩ ⟨"r.x", ["r", "x"]⟩ .ne (some ⟨"r.y", ["r", "y"]⟩) :=
    ⟨rfl, by decide +kernel, by decide +kernel, rfl, by simp [w], rfl, by simp [w], rfl⟩
  have his : ¬ Predicate.IsForm (quoted w.literal) := Predicate.not_isForm_of_words rfl (by decide)
  exact (h.parse_text.1 _).2 ⟨rfl, by decide +kernel, fun hform => his ((h.parse_text.2 (by decide)).1 hform).2⟩

end Written

end Query

end IndexedStore
