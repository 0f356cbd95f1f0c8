/-!
# Blank characters

The characters with the Unicode property `White_Space`: what texts are trimmed of and what separates
words. Zero-width spaces and the byte order mark are not among them.
-/

namespace IndexedStore

namespace Text

/-- The Unicode property `White_Space`. -/
def isBlank (c : Char) : Bool :=
  let n := c.toNat
  (9 ≤ n ∧ n ≤ 13) || n == 0x20 || n == 0x85 || n == 0xA0 || n == 0x1680 ||
    (0x2000 ≤ n ∧ n ≤ 0x200A) || n == 0x2028 || n == 0x2029 || n == 0x202F || n == 0x205F || n == 0x3000

/-- A text without the blanks at its two ends (`trim`). -/
def trim (s : List Char) : List Char :=
  ((s.dropWhile isBlank).reverse.dropWhile isBlank).reverse

/-- The maximal runs of characters that are not blank; `word` is the run read so far, reversed. -/
def wordsFrom (word : List Char) : List Char → List (List Char)
  | [] => if word.isEmpty then [] else [word.reverse]
  | c :: rest =>
    if isBlank c then
      if word.isEmpty then wordsFrom [] rest else word.reverse :: wordsFrom [] rest
    else wordsFrom (c :: word) rest

/-- The words of a text: its maximal runs of characters that are not blank (`split_whitespace`). -/
def words (s : List Char) : List (List Char) := wordsFrom [] s

end Text

end IndexedStore
