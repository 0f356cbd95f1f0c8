import IndexedStore.Proofs.Text.Letters
import IndexedStore.Proofs.Text.Occurrences

/-!
# Places in a text by bytes

A place in a text is given by the number of bytes that its characters before the place take in UTF-8. A part between
two places is there only if they are not reversed, neither is past the end of the text, and neither lies inside a
character (`Text.slice?_eq_some_iff`). `Text.byteAt` is the place before the character of a given position.
-/

namespace IndexedStore

namespace Text

/-- The number of bytes of a text. -/
def byteCount : List Char → Nat
  | [] => 0
  | c :: rest => c.utf8Size + byteCount rest

@[simp] theorem byteCount_nil : byteCount [] = 0 := rfl

@[simp] theorem byteCount_cons (c : Char) (s : List Char) : byteCount (c :: s) = c.utf8Size + byteCount s := rfl

@[simp] theorem byteCount_append (s t : List Char) : byteCount (s ++ t) = byteCount s + byteCount t := by
  induction s with
  | nil => simp
  | cons c s ih => simp [ih, Nat.add_assoc]

theorem byteCount_of_ascii {s : List Char} (h : ∀ c ∈ s, c.utf8Size = 1) : byteCount s = s.length := by
  induction s with
  | nil => rfl
  | cons c s ih =>
    obtain ⟨hc, hs⟩ := List.forall_mem_cons.1 h
    rw [byteCount_cons, ih hs, hc, List.length_cons, Nat.add_comm]

/-- A text before and after a place. -/
def splitAtByte? : List Char → Nat → Option (List Char × List Char)
  | s, 0 => some ([], s)
  | [], _ + 1 => none
  | c :: rest, n + 1 =>
    if n + 1 < c.utf8Size then none
    else (splitAtByte? rest (n + 1 - c.utf8Size)).map fun (front, back) => (c :: front, back)

/-- The part of a text between two places. -/
def slice? (s : List Char) (start stop : Nat) : Option (List Char) :=
  if stop < start then none
  else do
    let (front, _) ← splitAtByte? s stop
    let (_, part) ← splitAtByte? front start
    return part

/-- The place of the first occurrence of a keyword. -/
def findByte? (keyword : List Char) : List Char → Option Nat
  | [] => if keyword.isEmpty then some 0 else none
  | c :: rest =>
    if keyword.isPrefixOf (c :: rest) then some 0 else (findByte? keyword rest).map (· + c.utf8Size)

theorem splitAtByte?_eq_some_iff {s front back : List Char} {n : Nat} :
    splitAtByte? s n = some (front, back) ↔ s = front ++ back ∧ byteCount front = n := by
  induction s generalizing n front with
  | nil => cases n <;> cases front <;> simp [splitAtByte?, eq_comm]
  | cons c rest ih =>
    have hsize := c.utf8Size_pos
    cases n with
    | zero =>
      cases front with
      | nil => simp [splitAtByte?]
      | cons d front => simp [splitAtByte?, Nat.pos_iff_ne_zero.1 d.utf8Size_pos]
    | succ n =>
      rw [splitAtByte?]
      cases front with
      | nil => split <;> simp
      | cons d front =>
        have hcount : byteCount front = n + 1 - c.utf8Size ∧ ¬ n + 1 < c.utf8Size ↔
            c.utf8Size + byteCount front = n + 1 := by omega
        simp only [List.cons_append, List.cons.injEq, byteCount_cons]
        split
        · rename_i hlt
          simp only [reduceCtorEq, false_iff, not_and]
          rintro ⟨rfl, -⟩
          omega
        · rename_i hle
          constructor
          · intro h
            obtain ⟨⟨f, b⟩, hfb, hpair⟩ := Option.map_eq_some_iff.1 h
            cases hpair
            obtain ⟨hrest, hf⟩ := ih.1 hfb
            exact ⟨⟨rfl, hrest⟩, hcount.1 ⟨hf, hle⟩⟩
          · rintro ⟨⟨rfl, hrest⟩, hf⟩
            rw [ih.2 ⟨hrest, (hcount.2 hf).1⟩]
            rfl

/-- **A part is there between two places exactly if they are the places before and after it.** -/
theorem slice?_eq_some_iff {s part : List Char} {start stop : Nat} :
    slice? s start stop = some part ↔
      ∃ front back, s = front ++ part ++ back ∧ byteCount front = start ∧ byteCount (front ++ part) = stop := by
  have hdo : slice? s start stop = some part ↔ ¬ stop < start ∧
      ∃ upTo back, splitAtByte? s stop = some (upTo, back) ∧
        ∃ front, splitAtByte? upTo start = some (front, part) := by
    unfold slice?
    split <;> rename_i h <;> simp [h, Option.bind_eq_some_iff]
  rw [hdo]
  constructor
  · rintro ⟨-, upTo, back, hstop, front, hstart⟩
    obtain ⟨rfl, hback⟩ := splitAtByte?_eq_some_iff.1 hstop
    obtain ⟨rfl, hfront⟩ := splitAtByte?_eq_some_iff.1 hstart
    exact ⟨front, back, rfl, hfront, hback⟩
  · rintro ⟨front, back, hs, hstart, hstop⟩
    refine ⟨?_, _, _, splitAtByte?_eq_some_iff.2 ⟨hs, hstop⟩, _, splitAtByte?_eq_some_iff.2 ⟨rfl, hstart⟩⟩
    rw [byteCount_append] at hstop
    omega

/-! ## Positions -/

/-- The place before the character of a position. -/
def byteAt (s : List Char) (i : Nat) : Nat := byteCount (s.take i)

@[simp] theorem byteAt_length (s : List Char) : byteAt s s.length = byteCount s := by
  rw [byteAt, List.take_length]

theorem byteAt_add (s : List Char) (i n : Nat) : byteAt s (i + n) = byteAt s i + byteCount ((s.drop i).take n) := by
  rw [byteAt, List.take_add, byteCount_append, byteAt]

theorem byteAt_lt {s : List Char} {i j : Nat} (h : i < j) (hj : j ≤ s.length) : byteAt s i < byteAt s j := by
  obtain ⟨n, rfl⟩ := Nat.exists_eq_add_of_lt h
  obtain ⟨c, rest, hdrop⟩ := List.exists_cons_of_ne_nil (l := s.drop i) (by simp; omega)
  rw [Nat.add_assoc, byteAt_add, hdrop, List.take_succ_cons, byteCount_cons]
  have := c.utf8Size_pos
  omega

theorem byteAt_le_iff {s : List Char} {i j : Nat} (hi : i ≤ s.length) (hj : j ≤ s.length) :
    byteAt s i ≤ byteAt s j ↔ i ≤ j := by
  rcases Nat.lt_trichotomy i j with hlt | rfl | hgt
  · have := byteAt_lt hlt hj
    omega
  · simp
  · have := byteAt_lt hgt hi
    omega

/-- The part between the places of two positions. -/
theorem slice?_byteAt {s : List Char} {i : Nat} (hi : i ≤ s.length) (j : Nat) :
    slice? s (byteAt s i) (byteAt s j) = if j < i then none else some ((s.take j).drop i) := by
  split
  · rename_i hlt
    rw [slice?, if_pos (byteAt_lt hlt hi)]
  · rename_i hle
    have htake : s.take i = (s.take j).take i := by rw [List.take_take, Nat.min_eq_left (by omega)]
    refine slice?_eq_some_iff.2 ⟨s.take i, s.drop j, ?_, rfl, ?_⟩
    · rw [htake, List.take_append_drop, List.take_append_drop]
    · rw [htake, List.take_append_drop, byteAt]

theorem findByte?_eq (keyword s : List Char) : findByte? keyword s = (find? keyword s).map (byteAt s) := by
  induction s with
  | nil =>
    unfold findByte? find?
    split <;> rfl
  | cons c rest ih =>
    rw [findByte?, find?]
    split
    · rfl
    · rw [ih, Option.map_map, Option.map_map]
      congr 1
      funext i
      simp [byteAt, Nat.add_comm]

theorem byteCount_upper (s : List Char) : byteCount (upper s) = byteCount s := by
  induction s with
  | nil => rfl
  | cons c s ih => rw [upper_cons, byteCount_cons, byteCount_cons, utf8Size_toUpper, ih]

theorem byteAt_upper (s : List Char) (i : Nat) : byteAt (upper s) i = byteAt s i := by
  have htake : (upper s).take i = upper (s.take i) := List.map_take.symm
  rw [byteAt, byteAt, htake, byteCount_upper]

end Text

end IndexedStore
