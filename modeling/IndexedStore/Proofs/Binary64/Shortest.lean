import IndexedStore.Proofs.Binary64.ReadBack
import IndexedStore.Proofs.Text.Words

/-!
# Texts of binary64 numbers read back

The text of a number is the literal of that number (`ofLiteral?_shortest`), and that of any NaN the literal of one of
them. For a finite number this is `shortestDigits_spec`: the text writes the digits that the search has found, and
reading it takes the digits and their power of ten out of it again.
-/

namespace IndexedStore.Binary64

/-! ## Digits -/

@[simp] theorem digitsValue_digitChars (n : Nat) : digitsValue (digitChars n) = n :=
  Nat.ofDigitChars_toDigits (by decide) (by decide)

/-- Zeros in front of digits do not count. -/
theorem digitsValue_zeros_append (n : Nat) (ds : List Char) :
    digitsValue (List.replicate n '0' ++ ds) = digitsValue ds := by
  induction n with
  | zero => rfl
  | succ n ih => exact ih

/-- Zeros behind digits multiply. -/
theorem digitsValue_append_zeros (ds : List Char) (n : Nat) :
    digitsValue (ds ++ List.replicate n '0') = digitsValue ds * 10 ^ n := by
  induction n with
  | zero => simp
  | succ n ih =>
    rw [List.replicate_succ', ← List.append_assoc, digitsValue, List.foldl_append]
    show 10 * digitsValue (ds ++ List.replicate n '0') + 0 = _
    rw [ih]
    ring

theorem isDigit_digitChars {n : Nat} {c : Char} (h : c ∈ digitChars n) : c.isDigit = true :=
  Nat.isDigit_of_mem_toDigits (by decide) (by decide) h

/-! ## Decimals without a sign -/

/-- Digits alone. -/
theorem unsignedDecimal?_whole (negative : Bool) {whole : List Char} (hne : whole ≠ [])
    (hdigits : ∀ c ∈ whole, c.isDigit = true) :
    unsignedDecimal? negative whole = some (ofDecimal negative (digitsValue whole) whole.length 0) := by
  obtain ⟨htake, hdrop⟩ := Text.span_append (t := []) hdigits (by simp)
  rw [List.append_nil] at htake hdrop
  unfold unsignedDecimal?
  simp only [htake, hdrop]
  simp [hne, exponentPart?]

/-- Digits around a point. -/
theorem unsignedDecimal?_places (negative : Bool) {whole places : List Char} (hne : whole ≠ [])
    (hwhole : ∀ c ∈ whole, c.isDigit = true) (hplaces : ∀ c ∈ places, c.isDigit = true) :
    unsignedDecimal? negative (whole ++ '.' :: places) = some
      (ofDecimal negative (digitsValue (whole ++ places)) (whole ++ places).length (-places.length)) := by
  obtain ⟨htake, hdrop⟩ := Text.span_append (t := '.' :: places) hwhole (by rintro _ ⟨⟩; decide)
  obtain ⟨htake', hdrop'⟩ := Text.span_append (t := []) hplaces (by simp)
  rw [List.append_nil] at htake' hdrop'
  unfold unsignedDecimal?
  simp only [htake, hdrop, htake', hdrop']
  simp [hne, exponentPart?]

/-- With a power of ten that is not negative the text is digits alone. -/
theorem positional_whole (digits : Nat) {scale : Int} (h : 0 ≤ scale) : positional digits scale ≠ [] ∧
    (∀ c ∈ positional digits scale, c.isDigit = true) ∧
      digitsValue (positional digits scale) = digits * 10 ^ scale.toNat := by
  rw [positional, if_pos h]
  refine ⟨fun hnil => Nat.toDigits_ne_nil (List.append_eq_nil_iff.1 hnil).1, fun c hc => ?_, ?_⟩
  · rcases List.mem_append.1 hc with hc | hc
    · exact isDigit_digitChars hc
    · rw [List.eq_of_mem_replicate hc]
      rfl
  · rw [digitsValue_append_zeros, digitsValue_digitChars]

/-- With a negative power of ten the text has a point, and as many digits behind it. -/
theorem exists_positional_places (digits : Nat) {scale : Int} (h : ¬ 0 ≤ scale) : ∃ whole places,
    positional digits scale = whole ++ '.' :: places ∧ whole ≠ [] ∧ (∀ c ∈ whole, c.isDigit = true) ∧
      (∀ c ∈ places, c.isDigit = true) ∧ digitsValue (whole ++ places) = digits ∧ (places.length : Int) = -scale := by
  have hdigits : ∀ c ∈ digitChars digits, c.isDigit = true := fun c hc => isDigit_digitChars hc
  rw [positional, if_neg h]
  simp only
  split
  · rename_i hshort
    refine ⟨_, _, rfl, ?_, fun c hc => hdigits c (List.mem_of_mem_take hc),
      fun c hc => hdigits c (List.mem_of_mem_drop hc), ?_, ?_⟩
    · rw [Ne, List.take_eq_nil_iff, not_or]
      exact ⟨by omega, Nat.toDigits_ne_nil⟩
    · rw [List.take_append_drop, digitsValue_digitChars]
    · rw [List.length_drop]
      omega
  · rename_i hlong
    refine ⟨['0'], _, rfl, by simp, by simp, ?_, ?_, ?_⟩
    · intro c hc
      rcases List.mem_append.1 hc with hc | hc
      · rw [List.eq_of_mem_replicate hc]
        rfl
      · exact hdigits c hc
    · show digitsValue (List.replicate 1 '0' ++ (_ ++ _)) = digits
      rw [digitsValue_zeros_append, digitsValue_zeros_append, digitsValue_digitChars]
    · rw [List.length_append, List.length_replicate]
      omega

theorem isDigit_of_head?_positional {digits : Nat} {scale : Int} {c : Char}
    (h : (positional digits scale).head? = some c) : c.isDigit = true := by
  by_cases hscale : 0 ≤ scale
  · exact (positional_whole digits hscale).2.1 c (List.mem_of_mem_head? h)
  · obtain ⟨whole, places, htext, hne, hwhole, -⟩ := exists_positional_places digits hscale
    obtain ⟨d, rest, rfl⟩ := List.exists_cons_of_ne_nil hne
    rw [htext] at h
    cases h
    exact hwhole _ List.mem_cons_self

/-- Within the range of binary64 a decimal is its quotient rounded. -/
theorem ofDecimal_eq (negative : Bool) {digits count : Nat} {scale : Int} (hdigits : digits ≠ 0)
    (hscale : -400 ≤ scale ∧ scale ≤ 400) : ofDecimal negative digits count scale =
      ofRatio negative (digits * Nat.pow 10 scale.toNat) (Nat.pow 10 (-scale).toNat) := by
  rw [ofDecimal, if_neg hdigits, if_neg (by omega), if_neg (by omega)]

/-- **A decimal written positionally reads as its quotient rounded.** -/
theorem unsignedDecimal?_positional (negative : Bool) {digits : Nat} {scale : Int} (hdigits : digits ≠ 0)
    (hscale : scale ∈ scales) : unsignedDecimal? negative (positional digits scale) =
      some (ofRatio negative (digits * Nat.pow 10 scale.toNat) (Nat.pow 10 (-scale).toNat)) := by
  rw [mem_scales] at hscale
  by_cases h : 0 ≤ scale
  · obtain ⟨hne, hall, hvalue⟩ := positional_whole digits h
    have hnonzero : digits * 10 ^ scale.toNat ≠ 0 := Nat.mul_ne_zero hdigits (Nat.pow_pos (by decide)).ne'
    rw [unsignedDecimal?_whole negative hne hall, hvalue, ofDecimal_eq negative hnonzero (by decide),
      show (-scale).toNat = 0 by omega]
    simp
  · obtain ⟨whole, places, htext, hne, hwhole, hplaces, hvalue, hlength⟩ := exists_positional_places digits h
    rw [htext, unsignedDecimal?_places negative hne hwhole hplaces, hvalue, hlength, neg_neg,
      ofDecimal_eq negative hdigits (by omega)]

/-! ## Numbers -/

theorem ofCode_magnitude (x : Binary64) : ofCode x.negative x.magnitude = x := by
  obtain ⟨bits⟩ := x
  refine congrArg mk (UInt64.toNat_inj.1 ?_)
  have hbits := bits_toNat ⟨bits⟩
  have hlt := magnitude_lt ⟨bits⟩
  refine (bits_ofCode hlt).trans ?_
  rw [hbits]
  split <;> omega

/-- What the text of a number has in front of its digits. -/
def signOf (negative : Bool) : List Char := if negative then ['-'] else []

/-- The text of a number without its sign. -/
def unsignedText (x : Binary64) : List Char :=
  if x.magnitude = infinityCode then ['i', 'n', 'f']
  else if x.magnitude = 0 then ['0']
  else positional x.shortestDigits.1 x.shortestDigits.2

theorem shortest_of_isNaN {x : Binary64} (h : x.isNaN = true) : x.shortest = "NaN" := by
  rw [shortest, h]
  rfl

theorem shortest_eq {x : Binary64} (h : x.isNaN = false) :
    x.shortest.toList = signOf x.negative ++ x.unsignedText := by
  rw [shortest, h]
  simp [signOf, unsignedText]

/-- A decimal with a sign in front. -/
theorem ofLiteral?_of_unsigned {negative : Bool} {body : List Char} {x : Binary64}
    (hbody : ∀ c, body.head? = some c → c ≠ '-' ∧ c ≠ '+') (hx : unsignedDecimal? negative body = some x) :
    ofLiteral? (signOf negative ++ body) = some x := by
  cases negative with
  | true =>
    show ofLiteral? ('-' :: body) = some x
    simp only [ofLiteral?, hx]
  | false =>
    show ofLiteral? body = some x
    unfold ofLiteral?
    split
    rename_i hsign
    split at hsign
    · exact absurd rfl (hbody _ rfl).1
    · exact absurd rfl (hbody _ rfl).2
    · cases hsign
      simp only [hx]

theorem positional_ne_nil (digits : Nat) (scale : Int) : positional digits scale ≠ [] := by
  by_cases hscale : 0 ≤ scale
  · exact (positional_whole digits hscale).1
  · obtain ⟨whole, places, htext, -⟩ := exists_positional_places digits hscale
    simp [htext]

theorem unsignedText_ne_nil (x : Binary64) : x.unsignedText ≠ [] := by
  unfold unsignedText
  split
  · simp
  · split
    · simp
    · exact positional_ne_nil _ _

theorem head?_unsignedText (x : Binary64) {c : Char} (h : x.unsignedText.head? = some c) :
    c.isDigit = true ∨ c = 'i' := by
  unfold unsignedText at h
  split at h
  · exact .inr (Option.some.inj h).symm
  · split at h
    · cases h
      exact .inl rfl
    · exact .inl (isDigit_of_head?_positional h)

theorem mem_unsignedText (x : Binary64) {c : Char} (h : c ∈ x.unsignedText) :
    c.isDigit = true ∨ c ∈ ['.', 'i', 'n', 'f'] := by
  unfold unsignedText at h
  split at h
  · exact .inr (List.mem_cons_of_mem _ h)
  · split at h
    · rw [List.mem_singleton.1 h]
      exact .inl rfl
    · by_cases hscale : 0 ≤ x.shortestDigits.2
      · exact .inl ((positional_whole _ hscale).2.1 c h)
      · obtain ⟨whole, places, htext, -, hwhole, hplaces, -⟩ := exists_positional_places x.shortestDigits.1 hscale
        rw [htext] at h
        rcases List.mem_append.1 h with h | h
        · exact .inl (hwhole c h)
        · rcases List.mem_cons.1 h with rfl | h
          · exact .inr List.mem_cons_self
          · exact .inl (hplaces c h)

theorem isDigit_ne_sign {c : Char} (h : c.isDigit = true) : c ≠ '-' ∧ c ≠ '+' := by
  constructor <;> rintro rfl <;> cases h

/-- **The text of a number is the literal of that number.** -/
theorem ofLiteral?_shortest {x : Binary64} (h : x.isNaN = false) : ofLiteral? x.shortest.toList = some x := by
  rw [shortest_eq h, unsignedText]
  split
  · rename_i hinf
    have hliteral : ∀ negative,
        ofLiteral? (signOf negative ++ ['i', 'n', 'f']) = some (ofCode negative infinityCode) := by
      decide
    rw [hliteral, ← hinf, ofCode_magnitude]
  · rename_i hinf
    split
    · rename_i hzero
      have hliteral : ∀ negative, ofLiteral? (signOf negative ++ ['0']) = some (ofCode negative 0) := by
        decide
      rw [hliteral, ← hzero, ofCode_magnitude]
    · rename_i hzero
      have hfinite : x.isFinite = true := by
        have hle := of_decide_eq_false h
        exact decide_eq_true (Nat.lt_of_le_of_ne (Nat.not_lt.1 hle) hinf)
      obtain ⟨digits, scale, hfound, hscale, hdigits, hround⟩ := shortestDigits_spec hfinite hzero
      rw [hfound]
      have hdecimal := unsignedDecimal?_positional x.negative hdigits hscale
      rw [ofRatio, hround, ofCode_magnitude] at hdecimal
      exact ofLiteral?_of_unsigned (fun c hc => isDigit_ne_sign (isDigit_of_head?_positional hc)) hdecimal

end IndexedStore.Binary64
