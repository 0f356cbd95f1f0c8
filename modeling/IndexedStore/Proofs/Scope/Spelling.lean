import IndexedStore.Proofs.Scope.RegionPath
import IndexedStore.Proofs.Scope.Wording

/-!
# Wordings spelled out

A wording whose names are identifiers can be written down: `Wording.definition` puts dots between the segments
of a path, a space before an alias and commas between the iterators, and what it writes reads as that wording
again (`Wording.definition_reads`). The wording that a definition has is one of these (`IndexDefinition.Reads.sound`).
-/

namespace IndexedStore

/-! ## Texts with separators -/

namespace Text

theorem cutAt_append {c : Char} {piece : List Char} (h : c ∉ piece) (rest : List Char) :
    cutAt c (piece ++ c :: rest) = piece :: cutAt c rest := by
  induction piece with
  | nil => rw [List.nil_append, cutAt, if_pos rfl]
  | cons d piece ih =>
    rw [List.mem_cons, not_or] at h
    rw [List.cons_append, cutAt, if_neg (Ne.symm h.1), ih h.2]

/-- Pieces without the separator, joined by it, are cut apart again. -/
theorem cutAt_intercalate {c : Char} {piece : List Char} {pieces : List (List Char)}
    (h : ∀ p ∈ piece :: pieces, c ∉ p) : cutAt c ([c].intercalate (piece :: pieces)) = piece :: pieces := by
  induction pieces generalizing piece with
  | nil => simpa using cutAt_eq_singleton (h piece (by simp))
  | cons next pieces ih =>
    rw [List.intercalate_cons_cons, List.append_assoc, List.singleton_append, cutAt_append (h piece (by simp)),
      ih fun p hp => h p (List.mem_cons_of_mem _ hp)]

theorem cutAt_ne_nil (c : Char) (s : List Char) : cutAt c s ≠ [] := by
  cases s with
  | nil => simp [cutAt]
  | cons d rest =>
    unfold cutAt
    split
    · simp
    · split <;> simp

theorem mem_intercalate {c d : Char} {pieces : List (List Char)} (h : d ∈ [c].intercalate pieces) :
    d = c ∨ ∃ p ∈ pieces, d ∈ p := by
  induction pieces with
  | nil => simp at h
  | cons piece pieces ih =>
    cases pieces with
    | nil => exact .inr ⟨piece, by simp, by simpa using h⟩
    | cons next pieces =>
      rw [List.intercalate_cons_cons, List.append_assoc, List.singleton_append, List.mem_append,
        List.mem_cons] at h
      rcases h with h | h | h
      · exact .inr ⟨piece, by simp, h⟩
      · exact .inl h
      · exact (ih h).imp_right fun ⟨p, hp, hd⟩ => ⟨p, List.mem_cons_of_mem _ hp, hd⟩

/-- Neither the first nor the last character is blank. -/
def Solid (s : List Char) : Prop :=
  (∃ c, s.head? = some c ∧ isBlank c = false) ∧ ∃ c, s.getLast? = some c ∧ isBlank c = false

theorem solid_of_unblank {s : List Char} (hne : s ≠ []) (h : ∀ c ∈ s, isBlank c = false) : Solid s := by
  refine ⟨⟨s.head hne, List.head?_eq_some_head hne, h _ (List.head_mem hne)⟩,
    s.getLast hne, List.getLast?_eq_some_getLast hne, h _ (List.getLast_mem hne)⟩

theorem Solid.append {s t : List Char} (hs : Solid s) (ht : Solid t) (middle : List Char) :
    Solid (s ++ (middle ++ t)) := by
  obtain ⟨⟨first, hfirst, hf⟩, -⟩ := hs
  obtain ⟨-, last, hlast, hl⟩ := ht
  exact ⟨⟨first, by simp [List.head?_append, hfirst], hf⟩, last, by simp [List.getLast?_append, hlast], hl⟩

theorem solid_intercalate {c : Char} {piece : List Char} {pieces : List (List Char)}
    (h : ∀ p ∈ piece :: pieces, Solid p) : Solid ([c].intercalate (piece :: pieces)) := by
  induction pieces generalizing piece with
  | nil => simpa using h piece (by simp)
  | cons next pieces ih =>
    rw [List.intercalate_cons_cons, List.append_assoc]
    exact (h piece (by simp)).append (ih fun p hp => h p (List.mem_cons_of_mem _ hp)) [c]

theorem Solid.trim_eq {s : List Char} (h : Solid s) : trim s = s := by
  have hdrop : ∀ {t : List Char} {c : Char}, t.head? = some c → isBlank c = false → t.dropWhile isBlank = t := by
    intro t c ht hc
    obtain ⟨rest, rfl⟩ := List.head?_eq_some_iff.1 ht
    rw [List.dropWhile_cons_of_neg (by simp [hc])]
  obtain ⟨⟨first, hfirst, hf⟩, last, hlast, hl⟩ := h
  rw [trim, hdrop hfirst hf, hdrop (by rw [List.head?_reverse, hlast]) hl, List.reverse_reverse]

/-- The first word of a text, and the words after the blank that ends it. -/
theorem words_append {s : List Char} (hne : s ≠ []) (h : ∀ c ∈ s, isBlank c = false) (rest : List Char) :
    words (s ++ ' ' :: rest) = s :: words rest := by
  rw [words_append_cons (by decide), words_eq_singleton hne h, List.singleton_append]

end Text

/-! ## Paths and aliases -/

/-- The segments of a path: identifiers, at least one. -/
def IsPath (segments : List String) : Prop := segments ≠ [] ∧ ∀ s ∈ segments, isIdentifier s.toList = true

/-- An alias, if there is one, is an identifier. -/
def IsAlias (name : Option String) : Prop := ∀ a ∈ name, isIdentifier a.toList = true

theorem isIdentifier_ne_nil {s : List Char} (h : isIdentifier s = true) : s ≠ [] := by
  rintro rfl
  cases h

/-- A path with dots between its segments. -/
def dotted (segments : List String) : List Char := ['.'].intercalate (segments.map String.toList)

/-- An alias after a space. -/
def aliasText : Option String → List Char
  | none => []
  | some a => ' ' :: a.toList

theorem IsPath.dotted_unblank {segments : List String} (h : IsPath segments) :
    ∀ c ∈ dotted segments, Text.isBlank c = false ∧ c ≠ ',' := by
  intro c hc
  rcases Text.mem_intercalate hc with rfl | ⟨s, hs, hc⟩
  · decide
  · obtain ⟨segment, hsegment, rfl⟩ := List.mem_map.1 hs
    exact not_blank_of_isIdentifier (h.2 segment hsegment) hc

theorem IsPath.dotted_ne_nil {segments : List String} (h : IsPath segments) : dotted segments ≠ [] := by
  obtain ⟨hne, hids⟩ := h
  cases segments with
  | nil => exact absurd rfl hne
  | cons s rest =>
    have hs := isIdentifier_ne_nil (hids s (by simp))
    cases rest with
    | nil => simpa [dotted] using hs
    | cons next rest =>
      rw [dotted, List.map_cons, List.map_cons, List.intercalate_cons_cons]
      simp

/-- A path spelled out is read again. -/
theorem IsPath.parse_dotted {segments : List String} (h : IsPath segments) :
    Path.parse (dotted segments) = .ok ⟨String.ofList (dotted segments), segments⟩ := by
  have htrim := Text.trim_eq_self fun c hc => (h.dotted_unblank c hc).1
  have hpieces : Text.cutAt '.' (dotted segments) = segments.map String.toList := by
    obtain ⟨hne, hids⟩ := h
    cases segments with
    | nil => exact absurd rfl hne
    | cons s rest =>
      refine Text.cutAt_intercalate (List.forall_mem_map.2 ?_ : ∀ p ∈ (s :: rest).map String.toList, '.' ∉ p)
      exact fun segment hsegment => dot_notMem_of_isIdentifier (hids segment hsegment)
  have hsegments : (segments.map String.toList).map Text.trim = segments.map String.toList := by
    rw [List.map_map]
    refine List.map_congr_left fun s hs => Text.trim_eq_self fun c hc => ?_
    exact (not_blank_of_isIdentifier (h.2 s hs) hc).1
  have hfind : (segments.map String.toList).find? (fun segment => !isIdentifier segment) = none := by
    rw [List.find?_eq_none]
    intro s hs
    obtain ⟨segment, hsegment, rfl⟩ := List.mem_map.1 hs
    simp [h.2 segment hsegment]
  have hempty : (dotted segments).isEmpty = false := by simpa using h.dotted_ne_nil
  have hback : (segments.map String.toList).map String.ofList = segments := by simp [List.map_map]
  unfold Path.parse
  simp only [htrim, hempty, hpieces, hsegments, hfind, hback, Bool.false_eq_true, if_false]

/-- The path that a text reads as has segments that are identifiers. -/
theorem isPath_of_parse {text : List Char} {path : Path} (h : Path.parse text = .ok path) : IsPath path.segments := by
  unfold Path.parse at h
  simp only at h
  split at h
  · cases h
  · split at h
    · cases h
    · rename_i hfind
      rw [List.find?_eq_none] at hfind
      rw [← Except.ok.inj h]
      constructor
      · simpa using Text.cutAt_ne_nil _ _
      · intro s hs
        obtain ⟨segment, hsegment, rfl⟩ := List.mem_map.1 hs
        simpa using hfind segment hsegment

/-- The alias that a text reads as is an identifier. -/
theorem isAlias_of_splitAlias {part expr : List Char} {name : Option String}
    (h : Scope.splitAlias part = .ok (expr, name)) : IsAlias name := by
  unfold Scope.splitAlias at h
  split at h
  · cases h
    simp [IsAlias]
  · split at h
    · rename_i hid
      cases h
      simpa [IsAlias] using hid
    · cases h
  · split at h
    · rename_i hid
      cases h
      simpa [IsAlias] using hid.2
    · cases h
  · cases h

/-- An expression without blanks and an alias are told apart again. -/
theorem splitAlias_aliasText {expr : List Char} {name : Option String} (hne : expr ≠ [])
    (hexpr : ∀ c ∈ expr, Text.isBlank c = false) (hname : IsAlias name) :
    Scope.splitAlias (Text.trim (expr ++ aliasText name)) = .ok (expr, name) := by
  cases name with
  | none =>
    rw [aliasText, List.append_nil, Text.trim_eq_self hexpr]
    unfold Scope.splitAlias
    rw [Text.words_eq_singleton hne hexpr]
  | some a =>
    have ha := hname a rfl
    have hablank : ∀ c ∈ a.toList, Text.isBlank c = false := fun c hc => (not_blank_of_isIdentifier ha hc).1
    have hsolid : Text.Solid (expr ++ ' ' :: a.toList) := (Text.solid_of_unblank hne hexpr).append
      (Text.solid_of_unblank (isIdentifier_ne_nil ha) hablank) [' ']
    rw [aliasText, hsolid.trim_eq]
    unfold Scope.splitAlias
    rw [Text.words_append hne hexpr, Text.words_eq_singleton (isIdentifier_ne_nil ha) hablank]
    simp [ha]

/-! ## Wordings -/

/-- Its path is one, and its alias is an identifier. -/
def Clause.Sound (c : Clause) : Prop := IsPath c.path ∧ IsAlias c.name

/-- Its region is a region path, its other paths are paths, and its aliases are identifiers. -/
structure Wording.Sound (w : Wording) : Prop where
  region : Scope.regionPathOf w.region.toList = .ok w.region
  name : IsAlias w.name
  nested : ∀ c ∈ w.nested, c.Sound
  expression : IsPath w.expression

theorem Clause.Reads.sound {part : List Char} {c : Clause} (h : Clause.Reads part c) : c.Sound := by
  obtain ⟨expr, path, hsplit, hpath, hsegments⟩ := h
  exact ⟨hsegments ▸ isPath_of_parse hpath, isAlias_of_splitAlias hsplit⟩

/-- The wording that a definition has can be spelled out. -/
theorem IndexDefinition.Reads.sound {d : IndexDefinition} {w : Wording} (h : d.Reads w) : w.Sound := by
  obtain ⟨⟨head, parts, region, -, halias, hregion, hreads⟩, path, hpath, hsegments⟩ := h
  refine ⟨Scope.regionPathOf_regionPathOf hregion, isAlias_of_splitAlias halias, ?_,
    hsegments ▸ isPath_of_parse hpath⟩
  intro c hc
  obtain ⟨i, hi, rfl⟩ := List.mem_iff_getElem.1 hc
  exact (hreads.get (by rw [hreads.length_eq]; exact hi) hi).sound

/-- A nested iterator spelled out. -/
def Clause.text (c : Clause) : List Char := dotted c.path ++ aliasText c.name

theorem Clause.Sound.reads_text {c : Clause} (h : c.Sound) : Clause.Reads c.text c := by
  refine ⟨dotted c.path, _, splitAlias_aliasText h.1.dotted_ne_nil ?_ h.2, h.1.parse_dotted, rfl⟩
  exact fun d hd => (h.1.dotted_unblank d hd).1

/-- Without blanks at its ends and without commas. -/
theorem plain_aliasText {expr : List Char} {name : Option String} (hne : expr ≠ [])
    (hexpr : ∀ c ∈ expr, Text.isBlank c = false ∧ c ≠ ',') (hname : IsAlias name) :
    Text.Solid (expr ++ aliasText name) ∧ ',' ∉ expr ++ aliasText name := by
  have hsolid := Text.solid_of_unblank hne fun c hc => (hexpr c hc).1
  have hcomma : ',' ∉ expr := fun hc => (hexpr ',' hc).2 rfl
  cases name with
  | none =>
    rw [aliasText, List.append_nil]
    exact ⟨hsolid, hcomma⟩
  | some a =>
    have ha := hname a rfl
    have hplain : ∀ c ∈ a.toList, Text.isBlank c = false ∧ c ≠ ',' := fun c => not_blank_of_isIdentifier ha
    refine ⟨hsolid.append (Text.solid_of_unblank (isIdentifier_ne_nil ha) fun c hc => (hplain c hc).1) [' '], ?_⟩
    rw [aliasText, List.mem_append, List.mem_cons]
    rintro (hc | hc | hc)
    · exact hcomma hc
    · exact absurd hc (by decide)
    · exact (hplain ',' hc).2 rfl

namespace Wording

/-- The scope spelled out: iterators with commas between them. -/
def scopeText (w : Wording) : List Char :=
  [','].intercalate ((w.region.toList ++ aliasText w.name) :: w.nested.map Clause.text)

/-- A definition with the texts of a wording. -/
def definition (name : String) (kind : IndexKind) (w : Wording) : IndexDefinition :=
  ⟨name, kind, String.ofList (dotted w.expression), String.ofList w.scopeText⟩

/-- **What a wording spells out reads as that wording.** -/
theorem definition_reads {w : Wording} (h : w.Sound) (name : String) (kind : IndexKind) :
    (w.definition name kind).Reads w := by
  have hregion := Scope.not_blank_of_regionPathOf h.region
  have hne : w.region.toList ≠ [] := by
    obtain ⟨hpath, -, -⟩ := Scope.regionPathOf_spec h.region
    rw [hpath]
    exact List.cons_ne_nil _ _
  have hpieces : ∀ p ∈ (w.region.toList ++ aliasText w.name) :: w.nested.map Clause.text,
      Text.Solid p ∧ ',' ∉ p := by
    intro p hp
    rcases List.mem_cons.1 hp with rfl | hp
    · exact plain_aliasText hne hregion h.name
    · obtain ⟨c, hc, rfl⟩ := List.mem_map.1 hp
      obtain ⟨hpath, halias⟩ := h.nested c hc
      exact plain_aliasText hpath.dotted_ne_nil hpath.dotted_unblank halias
  constructor
  · refine ⟨_, w.nested.map Clause.text, w.region.toList, ?_,
      splitAlias_aliasText hne (fun c hc => (hregion c hc).1) h.name, h.region, ?_⟩
    · rw [definition, String.toList_ofList, scopeText,
        (Text.solid_intercalate fun p hp => (hpieces p hp).1).trim_eq,
        Text.cutAt_intercalate fun p hp => (hpieces p hp).2]
    · rw [List.forall₂_map_left_iff, List.forall₂_same]
      exact fun c hc => (h.nested c hc).reads_text
  · exact ⟨_, by rw [definition, String.toList_ofList, h.expression.parse_dotted], rfl⟩

end Wording

end IndexedStore
