/-!
# Finding and cutting text

Small functions on lists of characters: cutting at a separator, finding a keyword, folding the case of
ASCII letters, and writing and reading doubled single quotes. `PathExpr::parse`, `FromClause::parse`,
`Query::parse` and `Predicate::parse` do these with the methods of strings that the docstrings name.
-/

namespace IndexedStore

namespace Text

/-- The pieces of a text between occurrences of a separator, always at least one (`split`). -/
def cutAt (separator : Char) : List Char → List (List Char)
  | [] => [[]]
  | c :: rest =>
    if c = separator then [] :: cutAt separator rest
    else match cutAt separator rest with
      | [] => [[c]]
      | piece :: pieces => (c :: piece) :: pieces

/-- The position of the first occurrence of `keyword` (`find`). -/
def find? (keyword : List Char) : List Char → Option Nat
  | [] => if keyword.isEmpty then some 0 else none
  | c :: rest =>
    if keyword.isPrefixOf (c :: rest) then some 0 else (find? keyword rest).map (· + 1)

/-- A text with its ASCII letters in upper case (`to_ascii_uppercase`). -/
def upper (s : List Char) : List Char := s.map Char.toUpper

/-- A text with its ASCII letters in lower case. -/
def lower (s : List Char) : List Char := s.map Char.toLower

/-- Whether two texts differ at most in the case of ASCII letters (`eq_ignore_ascii_case`). -/
def sameIgnoringCase (a b : List Char) : Bool := lower a == lower b

/-- A text with every single quote written twice. -/
def doubleQuotes : List Char → List Char
  | [] => []
  | c :: rest => if c = '\'' then '\'' :: '\'' :: doubleQuotes rest else c :: doubleQuotes rest

/-- A text with each pair of adjacent single quotes read as one, from the left; a quote that stands
alone stays: the `replace` of `parse_literal`. -/
def undoubleQuotes : List Char → List Char
  | [] => []
  | [c] => [c]
  | c :: d :: rest =>
    if c = '\'' ∧ d = '\'' then '\'' :: undoubleQuotes rest else c :: undoubleQuotes (d :: rest)

theorem undoubleQuotes_doubleQuotes (s : List Char) : undoubleQuotes (doubleQuotes s) = s := by
  induction s with
  | nil => rfl
  | cons c rest ih =>
    by_cases h : c = '\''
    · simp [doubleQuotes, undoubleQuotes, h, ih]
    · simp only [doubleQuotes, h, if_false]
      cases hd : doubleQuotes rest with
      | nil => rw [hd] at ih; simp [undoubleQuotes, ← ih]
      | cons d more => rw [hd] at ih; simp [undoubleQuotes, h, ih]

/-- A text without the given character at its two ends (`trim_start_matches`, `trim_end_matches`). -/
def stripEnds (c : Char) (s : List Char) : List Char :=
  ((s.dropWhile (· == c)).reverse.dropWhile (· == c)).reverse

/-- The texts written one after another, with a separator between neighbours. -/
def joinWith (separator : String) : List String → String
  | [] => ""
  | [s] => s
  | s :: rest => s ++ separator ++ joinWith separator rest

end Text

end IndexedStore
