import IndexedStore.Proofs.Scope.Parsed
import IndexedStore.Proofs.Text.Words
import Mathlib.Data.List.DropRight

/-!
# Region paths read again

The path of a scope that was read is a slash before each of some identifiers. It has no blanks and no commas, so it
reads as a scope by itself, and its path is the same again (`Scope.parse_regionPath`).
-/

namespace IndexedStore

namespace Text

variable {s : List Char} {c : Char}

/-- Nothing is trimmed of a text without blanks. -/
theorem trim_eq_self (h : ∀ c ∈ s, isBlank c = false) : trim s = s := by
  have hdrop : ∀ t : List Char, (∀ c ∈ t, isBlank c = false) → t.dropWhile isBlank = t := by
    intro t ht
    cases t with
    | nil => rfl
    | cons c rest => rw [List.dropWhile_cons_of_neg (by simp [ht c])]
  unfold trim
  rw [hdrop s h, hdrop s.reverse fun c hc => h c (List.mem_reverse.1 hc), List.reverse_reverse]

/-- A text without the separator is one piece. -/
theorem cutAt_eq_singleton (h : c ∉ s) : cutAt c s = [s] := by
  induction s with
  | nil => rfl
  | cons d rest ih =>
    rw [List.mem_cons, not_or] at h
    rw [cutAt, if_neg (Ne.symm h.1), ih h.2]

/-- A character is the separator or stands in a piece. -/
theorem mem_cutAt {d : Char} (h : d ∈ s) : d = c ∨ ∃ piece ∈ cutAt c s, d ∈ piece := by
  induction s with
  | nil => cases h
  | cons first rest ih =>
    unfold cutAt
    split
    · rename_i hfirst
      rcases List.mem_cons.1 h with rfl | h
      · exact .inl hfirst
      · exact (ih h).imp_right fun ⟨piece, hp, hd⟩ => ⟨piece, List.mem_cons_of_mem _ hp, hd⟩
    · split
      · rename_i hcut
        rcases List.mem_cons.1 h with rfl | h
        · exact .inr ⟨[d], by simp, by simp⟩
        · exact (ih h).imp_right fun ⟨piece, hp, _⟩ => by rw [hcut] at hp; cases hp
      · rename_i piece pieces hcut
        rcases List.mem_cons.1 h with rfl | h
        · exact .inr ⟨d :: piece, by simp, by simp⟩
        · refine (ih h).imp_right fun ⟨p, hp, hd⟩ => ?_
          rw [hcut] at hp
          rcases List.mem_cons.1 hp with rfl | hp
          · exact ⟨first :: p, by simp, List.mem_cons_of_mem _ hd⟩
          · exact ⟨p, List.mem_cons_of_mem _ hp, hd⟩

/-- What stripping leaves begins with another character. -/
theorem dropWhile_stripEnds (c : Char) (s : List Char) : (stripEnds c s).dropWhile (· == c) = stripEnds c s := by
  have hstart : stripEnds c s <+: s.dropWhile (· == c) := List.rdropWhile_prefix (· == c) _
  rw [List.dropWhile_eq_self_iff]
  intro hpos
  have hfirst := List.dropWhile_eq_self_iff.1 (List.dropWhile_idempotent (· == c) s)
  rw [hstart.getElem hpos]
  exact hfirst (hpos.trans_le hstart.length_le)

/-- What was stripped can be stripped again, with the character back before it. -/
theorem stripEnds_cons_stripEnds (c : Char) (s : List Char) : stripEnds c (c :: stripEnds c s) = stripEnds c s := by
  have hstripped : stripEnds c (c :: stripEnds c s) = ((stripEnds c s).dropWhile (· == c)).rdropWhile (· == c) := by
    unfold stripEnds
    rw [List.dropWhile_cons_of_pos (by simp)]
    rfl
  rw [hstripped, dropWhile_stripEnds]
  exact List.rdropWhile_idempotent _ _

end Text

/-- The characters of identifiers by number. -/
theorem toNat_of_isIdentifier {name : List Char} (h : isIdentifier name = true) {c : Char} (hc : c ∈ name) :
    (65 ≤ c.toNat ∧ c.toNat ≤ 90 ∨ 97 ≤ c.toNat ∧ c.toNat ≤ 122) ∨ c.toNat = 95 ∨
      48 ≤ c.toNat ∧ c.toNat ≤ 57 := by
  have hchar : (isIdentifierStart c || c.isDigit) = true := by
    cases name with
    | nil => cases hc
    | cons first rest =>
      simp only [isIdentifier, Bool.and_eq_true, List.all_eq_true] at h
      rcases List.mem_cons.1 hc with rfl | hc
      · rw [h.1, Bool.true_or]
      · exact h.2 c hc
  change (((decide (65 ≤ c.val ∧ c.val ≤ 90) || decide (97 ≤ c.val) && decide (c.val ≤ 122)) || c == '_') ||
    decide (48 ≤ c.val) && decide (c.val ≤ 57)) = true at hchar
  simp only [Bool.or_eq_true, Bool.and_eq_true, decide_eq_true_eq, beq_iff_eq, UInt32.le_iff_toNat_le] at hchar
  rcases hchar with (h | rfl) | h
  · exact .inl h
  · exact .inr (.inl rfl)
  · exact .inr (.inr h)

/-- The characters of identifiers are neither blanks nor commas. -/
theorem not_blank_of_isIdentifier {name : List Char} (h : isIdentifier name = true) {c : Char} (hc : c ∈ name) :
    Text.isBlank c = false ∧ c ≠ ',' := by
  have hrange := toNat_of_isIdentifier h hc
  constructor
  · simp only [Text.isBlank, Bool.or_eq_false_iff, decide_eq_false_iff_not, beq_eq_false_iff_ne]
    omega
  · rintro rfl
    simp at hrange

/-- No dot stands in an identifier. -/
theorem dot_notMem_of_isIdentifier {name : List Char} (h : isIdentifier name = true) : '.' ∉ name := by
  intro hc
  have hrange := toNat_of_isIdentifier h hc
  simp at hrange

namespace Scope

theorem regionPathOf_spec {text : List Char} {path : String} (h : regionPathOf text = .ok path) :
    path.toList = '/' :: Text.stripEnds '/' text ∧ Text.stripEnds '/' text ≠ [] ∧
      (Text.cutAt '/' (Text.stripEnds '/' text)).all isIdentifier = true := by
  unfold regionPathOf at h
  simp only at h
  split at h
  · cases h
  · rename_i hname
    rw [not_or] at hname
    rw [← Except.ok.inj h, String.toList_ofList]
    exact ⟨rfl, by simpa using hname.1, by simpa using hname.2⟩

/-- A region path has neither blanks nor commas. -/
theorem not_blank_of_regionPathOf {text : List Char} {path : String} (h : regionPathOf text = .ok path) :
    ∀ c ∈ path.toList, Text.isBlank c = false ∧ c ≠ ',' := by
  obtain ⟨hpath, -, hnames⟩ := regionPathOf_spec h
  have hslash : Text.isBlank '/' = false ∧ '/' ≠ ',' := by decide
  intro c hc
  rw [hpath] at hc
  rcases List.mem_cons.1 hc with rfl | hc
  · exact hslash
  · rcases Text.mem_cutAt (c := '/') hc with rfl | ⟨name, hname, hc⟩
    · exact hslash
    · exact not_blank_of_isIdentifier (List.all_eq_true.1 hnames name hname) hc

/-- A region path is its own. -/
theorem regionPathOf_regionPathOf {text : List Char} {path : String} (h : regionPathOf text = .ok path) :
    regionPathOf path.toList = .ok path := by
  obtain ⟨hpath, hne, hnames⟩ := regionPathOf_spec h
  have hname : Text.stripEnds '/' path.toList = Text.stripEnds '/' text := by
    rw [hpath, Text.stripEnds_cons_stripEnds]
  unfold regionPathOf
  simp only [hname]
  rw [if_neg (by simp [hne, hnames]), ← hpath, String.ofList_toList]

/-- The path of a scope that was read is a region path. -/
theorem regionPath_of_parse {text : List Char} {s : Scope} (h : parse text = .ok s) :
    ∃ region, regionPathOf region = .ok s.regionPath := by
  obtain ⟨_, _, region, _, -, -, hpath, -, -⟩ := parse_eq_ok_iff.1 h
  exact ⟨region, hpath⟩

/-- **The path of a scope reads as a scope by itself, with that path.** -/
theorem parse_regionPath {text : List Char} {s : Scope} (h : parse text = .ok s) :
    parse s.regionPath.toList = .ok ⟨s.regionPath, s.regionPath, [⟨none, none⟩]⟩ := by
  obtain ⟨region, hregion⟩ := regionPath_of_parse h
  obtain ⟨hpath, -, -⟩ := regionPathOf_spec hregion
  have hchars := not_blank_of_regionPathOf hregion
  have hblank : ∀ c ∈ s.regionPath.toList, Text.isBlank c = false := fun c hc => (hchars c hc).1
  have hne : s.regionPath.toList ≠ [] := by simp [hpath]
  have hcomma : ',' ∉ s.regionPath.toList := fun hc => (hchars ',' hc).2 rfl
  have halias : splitAlias s.regionPath.toList = .ok (s.regionPath.toList, none) := by
    unfold splitAlias
    rw [Text.words_eq_singleton hne hblank]
  have hempty : s.regionPath.toList.isEmpty = false := by simpa using hne
  unfold parse
  simp only [Text.trim_eq_self hblank, Text.cutAt_eq_singleton hcomma, hempty, halias, bind, Except.bind,
    regionPathOf_regionPathOf hregion, parseIterators, String.ofList_toList]
  rfl

end Scope

end IndexedStore
