import IndexedStore.Proofs.Scope.Spelling
import IndexedStore.Proofs.Text.Occurrences

/-!
# Texts of paths

A text that reads as a path has no characters but those of identifiers, dots and blanks, and no blank stands between
two characters of identifiers (`Path.not_gap`). Blanks at its ends do not matter, so the text that is kept of a path
reads as that path, and so for scopes.
-/

namespace IndexedStore

namespace Text

variable {l s : List Char} {c : Char}

/-- What begins with a character that is not blank goes on behind the leading blanks. -/
theorem infix_dropWhile (hl : ∃ c, l.head? = some c ∧ isBlank c = false) (h : l <:+: s) :
    l <:+: s.dropWhile isBlank := by
  induction s with
  | nil => exact h
  | cons d s ih =>
    rw [List.dropWhile_cons]
    split
    · rename_i hd
      refine ih ((List.infix_cons_iff.1 h).resolve_left ?_)
      rintro ⟨more, hmore⟩
      obtain ⟨c, hc, hblank⟩ := hl
      obtain ⟨rest, rfl⟩ := List.head?_eq_some_iff.1 hc
      rw [(List.cons.inj hmore).1, hd] at hblank
      cases hblank
    · exact h

/-- A solid part of a text is left by trimming. -/
theorem Solid.infix_trim (hl : Solid l) (h : l <:+: s) : l <:+: trim s := by
  rw [trim, ← List.reverse_infix, List.reverse_reverse]
  exact infix_dropWhile (by simpa using hl.2) (List.reverse_infix.2 (infix_dropWhile hl.1 h))

/-- What is left of a text by trimming begins and ends with characters that are not blank. -/
theorem solid_trim (h : trim s ≠ []) : Solid (trim s) := by
  have hends : ∀ t : List Char, ∀ d, (t.dropWhile isBlank).head? = some d → isBlank d = false := by
    intro t d hd
    have := List.head?_dropWhile_not isBlank t
    rw [hd] at this
    simpa using this
  constructor
  · obtain ⟨c, hc⟩ := Option.ne_none_iff_exists'.1 fun hnone => h (List.head?_eq_none_iff.1 hnone)
    have hprefix : trim s <+: s.dropWhile isBlank := by
      rw [← List.reverse_suffix, trim, List.reverse_reverse]
      exact List.dropWhile_suffix _
    obtain ⟨more, hmore⟩ := hprefix
    refine ⟨c, hc, hends s c ?_⟩
    rw [← hmore, List.head?_append, hc]
    rfl
  · obtain ⟨c, hc⟩ := Option.ne_none_iff_exists'.1 fun hnone => h (List.getLast?_eq_none_iff.1 hnone)
    refine ⟨c, hc, hends (s.dropWhile isBlank).reverse c ?_⟩
    rw [← hc, trim, List.getLast?_reverse]

theorem trim_trim (s : List Char) : trim (trim s) = trim s := by
  by_cases h : trim s = []
  · rw [h]
    rfl
  · exact (solid_trim h).trim_eq

/-- A part without the separator lies within a piece. -/
theorem infix_cutAt {c : Char} {s : List Char} (hc : c ∉ l) (h : l <:+: s) : ∃ piece ∈ cutAt c s, l <:+: piece := by
  by_cases hs : c ∈ s
  · obtain ⟨front, back, rfl, hfront⟩ := List.eq_append_cons_of_mem hs
    rw [cutAt_append hfront]
    rcases (infix_append_cons_iff hc).1 h with hin | hin
    · exact ⟨front, List.mem_cons_self, hin⟩
    · obtain ⟨piece, hpiece, hin⟩ := infix_cutAt hc hin
      exact ⟨piece, List.mem_cons_of_mem _ hpiece, hin⟩
  · rw [cutAt_eq_singleton hs]
    exact ⟨s, List.mem_singleton_self s, h⟩
termination_by s.length

end Text

namespace Path

variable {s t : List Char} {path : Path}

/-- Blanks at the ends of a text do not matter. -/
theorem parse_congr (h : Text.trim s = Text.trim t) : parse s = parse t := by
  unfold parse
  rw [h]

/-- The pieces between the dots are identifiers, apart from blanks at their ends. -/
theorem isIdentifier_of_piece (h : parse s = .ok path) {piece : List Char}
    (hpiece : piece ∈ Text.cutAt '.' (Text.trim s)) : isIdentifier (Text.trim piece) = true := by
  unfold parse at h
  simp only at h
  split at h
  · cases h
  · split at h
    · cases h
    · rename_i hfind
      rw [List.find?_eq_none] at hfind
      simpa using hfind _ (List.mem_map_of_mem hpiece)

theorem ne_nil_of_parse (h : parse s = .ok path) : Text.trim s ≠ [] := by
  intro htrim
  unfold parse at h
  rw [htrim] at h
  cases h

/-- The text of a path reads as that path. -/
theorem text_of_parse (h : parse s = .ok path) :
    path.text.toList = Text.trim s ∧ parse path.text.toList = .ok path := by
  have htext : path.text.toList = Text.trim s := by
    unfold parse at h
    simp only at h
    split at h
    · cases h
    · split at h
      · cases h
      · cases h
        exact String.toList_ofList
  refine ⟨htext, ?_⟩
  rw [htext, ← h]
  exact parse_congr (Text.trim_trim s)

theorem solid_text (h : parse s = .ok path) : Text.Solid path.text.toList := by
  rw [(text_of_parse h).1]
  exact Text.solid_trim (ne_nil_of_parse h)

/-- The text of a path begins with an identifier. -/
theorem exists_text_cons (h : parse s = .ok path) :
    ∃ c rest, path.text.toList = c :: rest ∧ Text.isBlank c = false ∧ c ≠ '.' := by
  obtain ⟨⟨c, hc, hblank⟩, -⟩ := solid_text h
  obtain ⟨rest, htext⟩ := List.head?_eq_some_iff.1 hc
  refine ⟨c, rest, htext, hblank, ?_⟩
  rintro rfl
  have hpiece : [] ∈ Text.cutAt '.' (Text.trim s) := by
    rw [← (text_of_parse h).1, htext, Text.cutAt, if_pos rfl]
    exact List.mem_cons_self
  cases isIdentifier_of_piece h hpiece

/-- A path has no other characters than identifiers, dots and blanks. -/
theorem mem_of_parse (h : parse s = .ok path) {c : Char} (hc : c ∈ s) :
    Text.isBlank c = true ∨ c = '.' ∨ ∃ name, isIdentifier name = true ∧ c ∈ name := by
  cases hblank : Text.isBlank c with
  | true => exact .inl rfl
  | false =>
    rcases Text.mem_cutAt (c := '.') (Text.mem_trim hc hblank) with hdot | ⟨piece, hpiece, hc⟩
    · exact .inr (.inl hdot)
    · exact .inr (.inr ⟨_, isIdentifier_of_piece h hpiece, Text.mem_trim hc hblank⟩)

/-- No blank stands between two characters that are neither blanks nor dots. -/
theorem not_gap (h : parse s = .ok path) {a b c : Char} (ha : Text.isBlank a = false ∧ a ≠ '.')
    (hb : Text.isBlank b = true ∧ b ≠ '.') (hc : Text.isBlank c = false ∧ c ≠ '.') : ¬ [a, b, c] <:+: s := by
  intro hgap
  have hsolid : Text.Solid [a, b, c] := ⟨⟨a, rfl, ha.1⟩, c, rfl, hc.1⟩
  obtain ⟨piece, hpiece, hin⟩ := Text.infix_cutAt (c := '.')
    (by simp [ha.2.symm, hb.2.symm, hc.2.symm]) (hsolid.infix_trim hgap)
  have hmem : b ∈ Text.trim piece := (hsolid.infix_trim hin).subset (by simp)
  have := (not_blank_of_isIdentifier (isIdentifier_of_piece h hpiece) hmem).1
  rw [hb.1] at this
  cases this

end Path

/-- The text of a scope reads as that scope. -/
theorem Scope.text_of_parse {s : List Char} {scope : Scope} (h : Scope.parse s = .ok scope) :
    scope.text.toList = Text.trim s ∧ Scope.parse scope.text.toList = .ok scope := by
  obtain ⟨head, parts, region, name, hcut, halias, hregion, hits, htext⟩ := Scope.parse_eq_ok_iff.1 h
  have htrim : scope.text.toList = Text.trim s := by rw [htext, String.toList_ofList]
  refine ⟨htrim, Scope.parse_eq_ok_iff.2 ⟨head, parts, region, name, ?_, halias, hregion, hits, ?_⟩⟩
  · rw [htrim, Text.trim_trim, hcut]
  · rw [htrim, Text.trim_trim, htext]

end IndexedStore
