import IndexedStore.Text.Blank
import Mathlib.Data.List.TakeWhile

/-!
# Words and blanks

A blank parts the words of a text (`Text.words_append_cons`), from which the rest follows: blanks at the ends of a
text do not count (`Text.words_trim`), and what is put right before a text extends its first word
(`Text.exists_words_append`).
-/

namespace IndexedStore

namespace Text

variable {s t : List Char} {c : Char}

@[simp] theorem words_nil : words [] = [] := rfl

/-- **A blank parts the words of a text.** -/
theorem words_append_cons (hc : isBlank c = true) (s t : List Char) : words (s ++ c :: t) = words s ++ words t := by
  have hfrom : ∀ word, wordsFrom word (s ++ c :: t) = wordsFrom word s ++ words t := by
    induction s with
    | nil =>
      intro word
      rw [List.nil_append, wordsFrom, wordsFrom, if_pos hc]
      split <;> rfl
    | cons d s ih =>
      intro word
      rw [List.cons_append, wordsFrom, wordsFrom]
      split
      · split <;> simp [ih]
      · exact ih _
  exact hfrom []

/-- A text without blanks is one word. -/
theorem words_eq_singleton (hne : s ≠ []) (h : ∀ c ∈ s, isBlank c = false) : words s = [s] := by
  have hfrom : ∀ t word : List Char, (∀ c ∈ t, isBlank c = false) → word ++ t ≠ [] →
      wordsFrom word t = [word.reverse ++ t] := by
    intro t
    induction t with
    | nil => intro word _ hword; simp [wordsFrom, List.append_nil word ▸ hword]
    | cons c rest ih =>
      intro word ht _
      rw [wordsFrom, if_neg (by simp [ht c]), ih (c :: word) (fun d hd => ht d (by simp [hd])) (by simp)]
      simp
  simpa [words] using hfrom s [] h (by simpa using hne)

/-- Blanks before a text do not count. -/
theorem words_blank_append (h : ∀ c ∈ s, isBlank c = true) (t : List Char) : words (s ++ t) = words t := by
  induction s with
  | nil => rfl
  | cons c s ih =>
    obtain ⟨hc, hs⟩ := List.forall_mem_cons.1 h
    rw [List.cons_append, ← List.nil_append (c :: _), words_append_cons hc, words_nil, List.nil_append, ih hs]

/-- Blanks after a text do not count. -/
theorem words_append_blank (s : List Char) (h : ∀ c ∈ t, isBlank c = true) : words (s ++ t) = words s := by
  cases t with
  | nil => rw [List.append_nil]
  | cons c t =>
    obtain ⟨hc, ht⟩ := List.forall_mem_cons.1 h
    rw [words_append_cons hc, ← List.append_nil t, words_blank_append ht, words_nil, List.append_nil]

/-- A text is its trimmed part between blanks. -/
theorem exists_trim (s : List Char) : ∃ front back, s = front ++ (trim s ++ back) ∧
    (∀ c ∈ front, isBlank c = true) ∧ ∀ c ∈ back, isBlank c = true := by
  refine ⟨s.takeWhile isBlank, ((s.dropWhile isBlank).reverse.takeWhile isBlank).reverse, ?_,
    fun c hc => List.mem_takeWhile_imp hc, fun c hc => List.mem_takeWhile_imp (List.mem_reverse.1 hc)⟩
  rw [trim, ← List.reverse_append, List.takeWhile_append_dropWhile, List.reverse_reverse,
    List.takeWhile_append_dropWhile]

theorem trim_infix (s : List Char) : trim s <:+: s := by
  obtain ⟨front, back, hs, -⟩ := exists_trim s
  exact ⟨front, back, by rw [List.append_assoc]; exact hs.symm⟩

/-- No blank stands in a word. -/
theorem unblank_of_mem_words {w : List Char} (h : w ∈ words s) : ∀ c ∈ w, isBlank c = false := by
  have hfrom : ∀ t word : List Char, (∀ c ∈ word, isBlank c = false) → ∀ w ∈ wordsFrom word t, ∀ c ∈ w,
      isBlank c = false := by
    intro t
    induction t with
    | nil =>
      intro word hword w hw
      unfold wordsFrom at hw
      split at hw
      · cases hw
      · rw [List.mem_singleton.1 hw]
        exact fun c hc => hword c (List.mem_reverse.1 hc)
    | cons d t ih =>
      intro word hword w hw
      unfold wordsFrom at hw
      split at hw
      · split at hw
        · exact ih [] (by simp) w hw
        · rcases List.mem_cons.1 hw with rfl | hw
          · exact fun c hc => hword c (List.mem_reverse.1 hc)
          · exact ih [] (by simp) w hw
      · rename_i hd
        exact ih (d :: word) (List.forall_mem_cons.2 ⟨by simpa using hd, hword⟩) w hw
  exact hfrom s [] (by simp) w h

theorem words_trim (s : List Char) : words (trim s) = words s := by
  obtain ⟨front, back, hs, hfront, hback⟩ := exists_trim s
  have hwords := congrArg words hs
  rw [words_blank_append hfront, words_append_blank _ hback] at hwords
  exact hwords.symm

theorem unblank_concat (hs : ∀ d ∈ s, isBlank d = false) (hc : isBlank c = false) :
    ∀ d ∈ s ++ [c], isBlank d = false := by
  intro d hd
  rcases List.mem_append.1 hd with hd | hd
  · exact hs d hd
  · rwa [List.mem_singleton.1 hd]

/-- What is put before a text without blanks begins the first word, and leaves what comes next. -/
theorem exists_words_append (t : List Char) : ∃ more rest, ∀ s : List Char, s ≠ [] →
    (∀ c ∈ s, isBlank c = false) → words (s ++ t) = (s ++ more) :: rest := by
  induction t with
  | nil => exact ⟨[], [], fun s hne hs => by simp [words_eq_singleton hne hs]⟩
  | cons c t ih =>
    cases hc : isBlank c with
    | true => exact ⟨[], words t, fun s hne hs => by simp [words_append_cons hc, words_eq_singleton hne hs]⟩
    | false =>
      obtain ⟨more, rest, hwords⟩ := ih
      refine ⟨c :: more, rest, fun s _ hs => ?_⟩
      simpa using hwords (s ++ [c]) (by simp) (unblank_concat hs hc)

/-- What is not blank stands in a word that begins behind the words before it, whatever comes next. -/
theorem exists_words_cons (s : List Char) (hc : isBlank c = false) : ∃ earlier front, (∀ w ∈ earlier, w ∈ words s) ∧
    (∀ d ∈ front, isBlank d = false) ∧ ∀ t, words (s ++ c :: t) = earlier ++ words (front ++ c :: t) := by
  by_cases h : ∃ d ∈ s, isBlank d = true
  · obtain ⟨d, hd, hdblank⟩ := h
    obtain ⟨start, back, rfl⟩ := List.append_of_mem hd
    obtain ⟨earlier, front, hearlier, hfront, hwords⟩ := exists_words_cons back hc
    refine ⟨words start ++ earlier, front, ?_, hfront, fun t => ?_⟩
    · rw [words_append_cons hdblank]
      exact fun w hw => List.mem_append.2 ((List.mem_append.1 hw).imp_right (hearlier w))
    · rw [List.append_assoc, List.cons_append, words_append_cons hdblank, hwords, List.append_assoc]
  · exact ⟨[], s, by simp, fun d hd => by simpa using fun hb => h ⟨d, hd, hb⟩, fun t => rfl⟩
termination_by s.length

/-- The last word ends as the text does. -/
theorem getLast?_words (s : List Char) (hc : isBlank c = false) :
    ∃ w, (words (s ++ [c])).getLast? = some (w ++ [c]) := by
  obtain ⟨earlier, front, -, hfront, hwords⟩ := exists_words_cons s hc
  refine ⟨front, ?_⟩
  rw [hwords, words_eq_singleton (by simp) (unblank_concat hfront hc), List.getLast?_concat]

/-! ## Trimming -/

theorem trim_blank_append (h : ∀ c ∈ s, isBlank c = true) (t : List Char) : trim (s ++ t) = trim t := by
  rw [trim, trim, List.dropWhile_append_of_pos h]

theorem trim_append_blank (s : List Char) (h : ∀ c ∈ t, isBlank c = true) : trim (s ++ t) = trim s := by
  have hdrop : t.dropWhile isBlank = [] := List.dropWhile_eq_nil_iff.2 h
  rw [trim, trim, List.dropWhile_append]
  split
  · rename_i hs
    rw [hdrop, List.isEmpty_iff.1 hs]
  · rw [List.reverse_append, List.dropWhile_append_of_pos fun c hc => h c (List.mem_reverse.1 hc)]

/-- What is left by trimming begins behind the leading blanks. -/
theorem exists_start (h : trim s ≠ []) :
    ∃ lead c rest, s = lead ++ c :: rest ∧ (∀ d ∈ lead, isBlank d = true) ∧ isBlank c = false := by
  induction s with
  | nil => exact absurd rfl h
  | cons d s ih =>
    cases hd : isBlank d with
    | false => exact ⟨[], d, s, rfl, by simp, hd⟩
    | true =>
      rw [← List.singleton_append, trim_blank_append (by simpa using hd)] at h
      obtain ⟨lead, c, rest, rfl, hlead, hc⟩ := ih h
      exact ⟨d :: lead, c, rest, rfl, List.forall_mem_cons.2 ⟨hd, hlead⟩, hc⟩

/-- A text of more than blanks has a word. -/
theorem words_ne_nil (h : trim s ≠ []) : words s ≠ [] := by
  obtain ⟨lead, c, rest, rfl, hlead, hc⟩ := exists_start h
  obtain ⟨more, others, hwords⟩ := exists_words_append rest
  rw [words_blank_append hlead, ← List.singleton_append, hwords [c] (by simp) (by simpa using hc)]
  simp

/-- What is not blank is not trimmed. -/
theorem mem_trim (hc : c ∈ s) (hblank : isBlank c = false) : c ∈ trim s := by
  obtain ⟨front, back, hs, hfront, hback⟩ := exists_trim s
  rw [hs] at hc
  rcases List.mem_append.1 hc with h | h
  · rw [hfront c h] at hblank
    cases hblank
  · rcases List.mem_append.1 h with h | h
    · exact h
    · rw [hback c h] at hblank
      cases hblank

/-! ## Spans -/

/-- A test that holds up to a place, and not there, parts the text at it. -/
theorem span_append {p : Char → Bool} (hs : ∀ c ∈ s, p c = true) (ht : ∀ c, t.head? = some c → p c = false) :
    (s ++ t).takeWhile p = s ∧ (s ++ t).dropWhile p = t := by
  rw [List.takeWhile_append_of_pos hs, List.dropWhile_append_of_pos hs]
  cases t with
  | nil => simp
  | cons c t => simp [ht c rfl]

end Text

end IndexedStore
