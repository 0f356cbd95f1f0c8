/-!
# JSON tokens

A JSON text as a list of tokens. A string literal may hold escapes for the two halves of a character
outside the basic plane; a half that stands alone makes a literal that denotes no text, which is
allowed only where nobody reads it.
-/

namespace IndexedStore

inductive JsonToken where
  | openBrace
  | closeBrace
  | openBracket
  | closeBracket
  | colon
  | comma
  | null
  | bool (b : Bool)
  /-- A number, with its value when it is written as a natural number. -/
  | number (natural : Option Nat)
  /-- A string literal and the text it denotes, if it denotes one. -/
  | string (text : Option String)
deriving Repr, DecidableEq

namespace JsonToken

/-- Text between quotes: characters, and halves of characters given by number. -/
inductive Piece where
  | char (c : Char)
  | half (n : Nat)
deriving Repr, DecidableEq

def isHighHalf (n : Nat) : Bool := 0xD800 ≤ n && n ≤ 0xDBFF

def isLowHalf (n : Nat) : Bool := 0xDC00 ≤ n && n ≤ 0xDFFF

/-- The characters that pieces denote, a high half with the low half after it making one. -/
def denoted? : List Piece → Option (List Char)
  | [] => some []
  | .char c :: rest => (denoted? rest).map (c :: ·)
  | .half high :: .half low :: rest =>
    if isHighHalf high ∧ isLowHalf low then
      (denoted? rest).map (Char.ofNat (0x10000 + (high - 0xD800) * 0x400 + (low - 0xDC00)) :: ·)
    else none
  | .half _ :: _ => none

def hexDigit? (c : Char) : Option Nat :=
  if c.isDigit then some (c.toNat - 48)
  else if 'a' ≤ c ∧ c ≤ 'f' then some (c.toNat - 87)
  else if 'A' ≤ c ∧ c ≤ 'F' then some (c.toNat - 55)
  else none

/-- The character that a one-letter escape stands for. -/
def escaped? (c : Char) : Option Char :=
  if c = '"' ∨ c = '\\' ∨ c = '/' then some c
  else if c = 'b' then some '\x08'
  else if c = 'f' then some '\x0c'
  else if c = 'n' then some '\n'
  else if c = 'r' then some '\r'
  else if c = 't' then some '\t'
  else none

/-- The digits of a natural number: no leading zero unless it is the only digit. -/
def naturalPart? (s : List Char) : Option (List Char × List Char) :=
  match s with
  | '0' :: rest => some (['0'], rest)
  | _ =>
    let ds := s.takeWhile Char.isDigit
    if ds.isEmpty then none else some (ds, s.dropWhile Char.isDigit)

/-- Whether a text is empty or an exponent part. -/
def isExponentOrNothing : List Char → Bool
  | [] => true
  | e :: rest =>
    (e == 'e' || e == 'E') &&
      let ds := match rest with
        | '+' :: ds => ds
        | '-' :: ds => ds
        | ds => ds
      !ds.isEmpty && ds.all Char.isDigit

/-- The token of a run of characters outside of strings: a name or a number. -/
def ofWord? (word : List Char) : Option JsonToken :=
  if word = ['n', 'u', 'l', 'l'] then some .null
  else if word = ['t', 'r', 'u', 'e'] then some (.bool true)
  else if word = ['f', 'a', 'l', 's', 'e'] then some (.bool false)
  else
    let (negative, body) := match word with
      | '-' :: rest => (true, rest)
      | rest => (false, rest)
    match naturalPart? body with
    | none => none
    | some (ds, []) =>
      some (.number (if negative then none
        else some (ds.foldl (fun n c => 10 * n + (c.toNat - 48)) 0)))
    | some (_, '.' :: rest) =>
      let places := rest.takeWhile Char.isDigit
      if places.isEmpty ∨ !isExponentOrNothing (rest.dropWhile Char.isDigit) then none
      else some (.number none)
    | some (_, rest) => if isExponentOrNothing rest then some (.number none) else none

/-- Where reading stands. What has been read of a string or word is kept reversed. -/
inductive Mode where
  | between
  | word (read : List Char)
  | string (read : List Piece)
  | escape (read : List Piece)
  | hex (read : List Piece) (digits value : Nat)

/-- The token that a character is by itself. -/
def ofMark? (c : Char) : Option JsonToken :=
  if c = '\x7b' then some .openBrace
  else if c = '\x7d' then some .closeBrace
  else if c = '[' then some .openBracket
  else if c = ']' then some .closeBracket
  else if c = ':' then some .colon
  else if c = ',' then some .comma
  else none

def isSpace (c : Char) : Bool := c == ' ' || c == '\n' || c == '\t' || c == '\r'

/-- The tokens of a text from a mode on. -/
def read (mode : Mode) : List Char → Option (List JsonToken)
  | [] =>
    match mode with
    | .between => some []
    | .word w => (ofWord? w.reverse).map ([·])
    | .string _ | .escape _ | .hex _ _ _ => none
  | c :: rest =>
    match mode with
    | .between =>
      if isSpace c then read .between rest
      else if c = '"' then read (.string []) rest
      else match ofMark? c with
        | some token => (read .between rest).map (token :: ·)
        | none => read (.word [c]) rest
    | .word w =>
      if isSpace c then
        match ofWord? w.reverse with
        | some token => (read .between rest).map (token :: ·)
        | none => none
      else if c = '"' then
        match ofWord? w.reverse with
        | some token => (read (.string []) rest).map (token :: ·)
        | none => none
      else match ofMark? c with
        | some mark =>
          match ofWord? w.reverse with
          | some token => (read .between rest).map (token :: mark :: ·)
          | none => none
        | none => read (.word (c :: w)) rest
    | .string s =>
      if c = '"' then
        (read .between rest).map (.string ((denoted? s.reverse).map String.ofList) :: ·)
      else if c = '\\' then read (.escape s) rest
      else if c.toNat < 0x20 then none
      else read (.string (.char c :: s)) rest
    | .escape s =>
      if c = 'u' then read (.hex s 0 0) rest
      else match escaped? c with
        | some d => read (.string (.char d :: s)) rest
        | none => none
    | .hex s digits value =>
      match hexDigit? c with
      | none => none
      | some d =>
        let value := 16 * value + d
        if digits < 3 then read (.hex s (digits + 1) value) rest
        else
          let piece := if 0xD800 ≤ value ∧ value ≤ 0xDFFF then .half value else .char (Char.ofNat value)
          read (.string (piece :: s)) rest

/-- The tokens of a text. -/
def ofText? (text : String) : Option (List JsonToken) := read .between text.toList

end JsonToken

end IndexedStore
