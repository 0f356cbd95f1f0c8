import IndexedStore.Text.Search

/-!
# Where a keyword occurs

`Text.find?` gives the first place at which a keyword stands, if it stands anywhere. In a text with a character that
the keyword has at most at its ends, an occurrence lies before that character or after it (`find?_append`).
-/

namespace IndexedStore

namespace Text

variable {keyword s : List Char} {c : Char}

theorem find?_eq_none_iff : find? keyword s = none ↔ ¬ keyword <:+: s := by
  induction s with
  | nil =>
    unfold find?
    split <;> simp_all
  | cons c rest ih =>
    rw [find?, List.infix_cons_iff, not_or, ← ih]
    split
    · rename_i hprefix
      simpa using fun h => absurd (List.isPrefixOf_iff_prefix.1 hprefix) h
    · rename_i hprefix
      simpa using fun _ h => hprefix (List.isPrefixOf_iff_prefix.2 h)

theorem exists_find?_of_infix (h : keyword <:+: s) : ∃ i, find? keyword s = some i :=
  Option.ne_none_iff_exists'.1 fun hnone => find?_eq_none_iff.1 hnone h

/-- The keyword stands at the place found. -/
theorem prefix_of_find? {i : Nat} (h : find? keyword s = some i) : keyword <+: s.drop i := by
  induction s generalizing i with
  | nil =>
    unfold find? at h
    split at h
    · simp_all
    · cases h
  | cons c rest ih =>
    unfold find? at h
    split at h
    · rename_i hprefix
      cases h
      exact List.isPrefixOf_iff_prefix.1 hprefix
    · obtain ⟨j, hj, rfl⟩ := Option.map_eq_some_iff.1 h
      exact ih hj

theorem find?_of_prefix (h : keyword <+: s) : find? keyword s = some 0 := by
  cases s with
  | nil => simp_all [find?]
  | cons c rest => rw [find?, if_pos (List.isPrefixOf_iff_prefix.2 h)]

/-- The whole keyword stands in the text after the place found. -/
theorem find?_add_le {i : Nat} (h : find? keyword s = some i) (hne : keyword ≠ []) :
    i + keyword.length ≤ s.length := by
  have hlen := (prefix_of_find? h).length_le
  have hpos := List.length_pos_iff.2 hne
  rw [List.length_drop] at hlen
  omega

/-- A character that the keyword has at most at its ends parts a text: a keyword that is not found up to it is
found from it on. -/
theorem find?_append {x y : List Char} (hc : c ∉ keyword.tail.dropLast) (h : ¬ keyword <:+: x ++ [c]) :
    find? keyword (x ++ c :: y) = (find? keyword (c :: y)).map (x.length + ·) := by
  induction x with
  | nil => simp
  | cons d x ih =>
    rw [List.cons_append, List.infix_cons_iff, not_or] at h
    have hprefix : ¬ keyword <+: d :: (x ++ c :: y) := by
      intro hk
      have hto : d :: (x ++ [c]) <+: d :: (x ++ c :: y) := ⟨y, by simp⟩
      rcases List.prefix_or_prefix_of_prefix hk hto with hshort | hlong
      · exact h.1 hshort
      · -- the keyword goes on after the character, which therefore stands inside it
        obtain ⟨more, hmore⟩ := hlong
        cases more with
        | nil => exact h.1 ⟨[], by simpa using hmore.symm⟩
        | cons e more =>
          apply hc
          rw [← hmore, List.cons_append, List.tail_cons, List.dropLast_append_of_ne_nil (by simp)]
          simp
    rw [List.cons_append, find?, if_neg (by rwa [List.isPrefixOf_iff_prefix]), ih h.2, Option.map_map,
      List.length_cons]
    congr 1
    funext n
    simp only [Function.comp_apply]
    omega

/-- A keyword found in the beginning of a text is found there in the whole. -/
theorem find?_append_of_eq_some {x y : List Char} {i : Nat} (h : find? keyword x = some i) :
    find? keyword (x ++ y) = some i := by
  induction x generalizing i with
  | nil =>
    unfold find? at h
    split at h
    · cases h
      exact find?_of_prefix (by simp_all)
    · cases h
  | cons c x ih =>
    have hto : c :: x <+: c :: (x ++ y) := List.prefix_append (c :: x) y
    rw [List.cons_append, find?]
    unfold find? at h
    split at h
    · rename_i hprefix
      rw [if_pos (List.isPrefixOf_iff_prefix.2 ((List.isPrefixOf_iff_prefix.1 hprefix).trans hto)), ← h]
    · rename_i hprefix
      obtain ⟨j, hj, rfl⟩ := Option.map_eq_some_iff.1 h
      -- the keyword is no longer than the beginning, in which it was found
      have hlong : ¬ keyword <+: c :: (x ++ y) := by
        intro hk
        have hlen := (prefix_of_find? hj).length_le
        rw [List.length_drop] at hlen
        have hshort := List.prefix_of_prefix_length_le hk hto (by rw [List.length_cons]; omega)
        exact hprefix (List.isPrefixOf_iff_prefix.2 hshort)
      rw [if_neg (by rwa [List.isPrefixOf_iff_prefix]), ih hj, Option.map_some]

/-- A keyword that is not found before its last character is found where it is written. -/
theorem find?_append_keyword {x y : List Char} (hne : keyword ≠ []) (h : ¬ keyword <:+: (x ++ keyword).dropLast) :
    find? keyword (x ++ (keyword ++ y)) = some x.length := by
  induction x with
  | nil => exact find?_of_prefix (List.prefix_append _ _)
  | cons d x ih =>
    rw [List.cons_append, List.dropLast_cons_of_ne_nil (by simp [hne]), List.infix_cons_iff, not_or] at h
    have hprefix : ¬ keyword <+: d :: (x ++ (keyword ++ y)) := by
      intro hk
      refine h.1 (List.prefix_of_prefix_length_le hk ?_ ?_)
      · exact List.prefix_cons_inj d |>.2 (((List.dropLast_prefix _).trans (by simp)))
      · have := List.length_pos_iff.2 hne
        simp
        omega
    rw [List.cons_append, find?, if_neg (by rwa [List.isPrefixOf_iff_prefix]), ih h.2]
    rfl

/-- What begins at the place found, and not before, is in no shorter beginning of the text. -/
theorem not_infix_take {i n : Nat} (hne : keyword ≠ []) (h : find? keyword s = some i) (hn : n < i + keyword.length) :
    ¬ keyword <:+: s.take n := by
  intro hin
  obtain ⟨j, hj⟩ := exists_find?_of_infix hin
  have hle := find?_add_le hj hne
  have hwhole : find? keyword (s.take n ++ s.drop n) = some j := find?_append_of_eq_some hj
  rw [List.take_append_drop, h] at hwhole
  cases hwhole
  rw [List.length_take] at hle
  omega

/-- A keyword found between two places is in what stands there. -/
theorem infix_of_find?_append {x y z : List Char} {i : Nat} (h : find? keyword (x ++ (y ++ z)) = some i)
    (hlow : x.length ≤ i) (hhigh : i + keyword.length ≤ x.length + y.length) : keyword <:+: y := by
  obtain ⟨j, rfl⟩ := Nat.exists_eq_add_of_le hlow
  have hprefix := prefix_of_find? h
  rw [List.drop_append, List.drop_of_length_le (by omega), List.nil_append, Nat.add_sub_cancel_left,
    List.drop_append_of_le_length (by omega)] at hprefix
  have hshort := List.prefix_of_prefix_length_le hprefix (List.prefix_append (y.drop j) z) (by
    rw [List.length_drop]
    omega)
  exact hshort.isInfix.trans (List.drop_suffix j y).isInfix

/-- A character that a keyword does not have parts a text. -/
theorem infix_append_cons_iff {x y : List Char} (hc : c ∉ keyword) :
    keyword <:+: x ++ c :: y ↔ keyword <:+: x ∨ keyword <:+: y := by
  constructor
  · have hhead : ∀ k : List Char, c ∉ k → k <+: c :: y → k = [] := by
      rintro k hk ⟨more, hmore⟩
      cases k with
      | nil => rfl
      | cons d k => exact absurd (List.mem_cons.2 (.inl (List.cons.inj hmore).1.symm)) hk
    rw [List.infix_append_iff]
    rintro (h | h | ⟨front, back, rfl, hfront, hback⟩)
    · exact .inl h
    · rcases List.infix_cons_iff.1 h with h | h
      · exact .inl (hhead _ hc h ▸ List.nil_infix)
      · exact .inr h
    · rw [hhead back (fun h => hc (List.mem_append_right _ h)) hback, List.append_nil]
      exact .inl hfront.isInfix
  · rintro (h | h)
    · exact h.trans (List.prefix_append _ _).isInfix
    · exact h.trans ((List.suffix_cons c y).trans (List.suffix_append _ _)).isInfix

/-! ## Doubled quotes -/

/-- Doubling quotes neither adds nor removes a keyword without quotes. -/
theorem infix_doubleQuotes_iff (hquote : '\'' ∉ keyword) (hne : keyword ≠ []) :
    keyword <:+: doubleQuotes s ↔ keyword <:+: s := by
  have hnil : ¬ keyword <:+: [] := by simpa using hne
  -- behind any beginning, since a keyword can begin before a quote
  suffices h : ∀ start, keyword <:+: start ++ doubleQuotes s ↔ keyword <:+: start ++ s by simpa using h []
  induction s with
  | nil => simp [doubleQuotes]
  | cons c s ih =>
    intro start
    rw [doubleQuotes]
    split
    · rename_i h
      subst h
      rw [infix_append_cons_iff hquote, infix_append_cons_iff hquote, ← List.nil_append ('\'' :: _),
        infix_append_cons_iff hquote, or_iff_right hnil]
      exact or_congr_right (by simpa using ih [])
    · simpa using ih (start ++ [c])

/-- Undoubling quotes adds no keyword without quotes. -/
theorem infix_of_undoubleQuotes (hquote : '\'' ∉ keyword) (hne : keyword ≠ []) (h : keyword <:+: undoubleQuotes s) :
    keyword <:+: s := by
  have hnil : ¬ keyword <:+: [] := by simpa using hne
  -- behind any beginning, since a keyword can begin before a quote
  suffices hall : ∀ start, keyword <:+: start ++ undoubleQuotes s → keyword <:+: start ++ s from hall [] h
  clear h
  fun_induction undoubleQuotes s with
  | case1 => exact fun _ h => h
  | case2 c => exact fun _ h => h
  | case3 c d rest hpair ih =>
    obtain ⟨rfl, rfl⟩ := hpair
    intro start
    rw [infix_append_cons_iff hquote, infix_append_cons_iff hquote, ← List.nil_append ('\'' :: _),
      infix_append_cons_iff hquote, or_iff_right hnil]
    exact Or.imp_right (ih [])
  | case4 c d rest hpair ih =>
    intro start hin
    simpa using ih (start ++ [c]) (by simpa using hin)

theorem length_undoubleQuotes_le (s : List Char) : (undoubleQuotes s).length ≤ s.length := by
  fun_induction undoubleQuotes s with
  | case1 => exact Nat.le_refl _
  | case2 c => exact Nat.le_refl _
  | case3 c d rest hpair ih =>
    simp only [List.length_cons]
    omega
  | case4 c d rest hpair ih => exact Nat.succ_le_succ ih

/-- Undoubling quotes changes a text exactly if two of them stand side by side. -/
theorem undoubleQuotes_eq_self_iff : undoubleQuotes s = s ↔ ¬ ['\'', '\''] <:+: s := by
  fun_induction undoubleQuotes s with
  | case1 => simp
  | case2 c => simpa using fun h => absurd h.length_le (by simp)
  | case3 c d rest hpair ih =>
    obtain ⟨rfl, rfl⟩ := hpair
    refine iff_of_false (fun h => ?_) (not_not_intro ⟨[], rest, rfl⟩)
    have hle := length_undoubleQuotes_le rest
    have := congrArg List.length h
    simp only [List.length_cons] at this
    omega
  | case4 c d rest hpair ih =>
    rw [List.infix_cons_iff, not_or, ← ih, List.cons.injEq, and_iff_right rfl, and_iff_right]
    simpa [List.cons_prefix_cons, eq_comm] using hpair

end Text

end IndexedStore
