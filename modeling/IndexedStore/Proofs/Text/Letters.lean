import IndexedStore.Text.Blank
import IndexedStore.Text.Search

/-!
# Upper case

Putting ASCII letters in upper case changes no other character and makes no other character a letter. It keeps how
many bytes a character takes and whether it is blank. A digit has no case and is not blank.
-/

namespace IndexedStore

namespace Text

theorem toNat_toUpper (c : Char) :
    c.toUpper.toNat = if 97 ≤ c.toNat ∧ c.toNat ≤ 122 then c.toNat - 32 else c.toNat := by
  have hiff : 'a'.val ≤ c.val ∧ c.val ≤ 'z'.val ↔ 97 ≤ c.toNat ∧ c.toNat ≤ 122 := by
    rw [UInt32.le_iff_toNat_le, UInt32.le_iff_toNat_le]
    rfl
  unfold Char.toUpper
  by_cases h : 97 ≤ c.toNat ∧ c.toNat ≤ 122
  · rw [dif_pos (hiff.2 h), if_pos h]
    show (c.val + ('A'.val - 'a'.val)).toNat = c.val.toNat - 32
    have hshift : ('A'.val - 'a'.val).toNat = 4294967264 := rfl
    have hc : c.toNat = c.val.toNat := rfl
    rw [UInt32.toNat_add, hshift]
    omega
  · rw [dif_neg fun hc => h (hiff.1 hc), if_neg h]

theorem utf8Size_toUpper (c : Char) : c.toUpper.utf8Size = c.utf8Size := by
  have hupper := toNat_toUpper c
  split at hupper
  · have hone : ∀ d : Char, d.toNat ≤ 127 → d.utf8Size = 1 := fun d hd => Char.utf8Size_eq_one_iff.2 hd
    rw [hone c (by omega), hone _ (by omega)]
  · rw [Char.toNat_inj.1 hupper]

theorem isBlank_toUpper (c : Char) : isBlank c.toUpper = isBlank c := by
  have hupper := toNat_toUpper c
  split at hupper
  · have hunblank : ∀ d : Char, 33 ≤ d.toNat ∧ d.toNat ≤ 127 → isBlank d = false := by
      intro d hd
      simp only [isBlank, Bool.or_eq_false_iff, decide_eq_false_iff_not, beq_eq_false_iff_ne]
      omega
    rw [hunblank c (by omega), hunblank _ (by omega)]
  · rw [Char.toNat_inj.1 hupper]

/-- Only the character itself becomes one that is no letter. -/
theorem toUpper_eq_iff {c d : Char} (hd : ¬ (65 ≤ d.toNat ∧ d.toNat ≤ 90 ∨ 97 ≤ d.toNat ∧ d.toNat ≤ 122)) :
    c.toUpper = d ↔ c = d := by
  rw [← Char.toNat_inj, ← Char.toNat_inj, toNat_toUpper]
  split <;> omega

@[simp] theorem upper_nil : upper [] = [] := rfl

@[simp] theorem upper_cons (c : Char) (s : List Char) : upper (c :: s) = c.toUpper :: upper s := rfl

@[simp] theorem upper_append (s t : List Char) : upper (s ++ t) = upper s ++ upper t := List.map_append

@[simp] theorem length_upper (s : List Char) : (upper s).length = s.length := List.length_map _

theorem upper_doubleQuotes (s : List Char) : upper (doubleQuotes s) = doubleQuotes (upper s) := by
  induction s with
  | nil => rfl
  | cons c s ih =>
    have hquote : c.toUpper = '\'' ↔ c = '\'' := toUpper_eq_iff (by decide)
    simp only [doubleQuotes, upper_cons, hquote]
    split
    · rw [upper_cons, upper_cons, ih]
      rfl
    · rw [upper_cons, ih]

theorem upper_undoubleQuotes (s : List Char) : upper (undoubleQuotes s) = undoubleQuotes (upper s) := by
  have hquote : ∀ c : Char, c.toUpper = '\'' ↔ c = '\'' := fun c => toUpper_eq_iff (by decide)
  fun_induction undoubleQuotes s with
  | case1 => rfl
  | case2 c => rfl
  | case3 c d rest hpair ih =>
    simp only [upper_cons, undoubleQuotes, hquote, if_pos hpair, ih]
    rfl
  | case4 c d rest hpair ih =>
    rw [upper_cons, ih]
    simp only [upper_cons, undoubleQuotes, hquote, if_neg hpair]

/-! ## Digits -/

theorem isBlank_of_isDigit {c : Char} (h : c.isDigit = true) : isBlank c = false := by
  have hrange : 48 ≤ c.toNat ∧ c.toNat ≤ 57 := Char.isDigit_iff_toNat.1 h
  simp only [isBlank, Bool.or_eq_false_iff, beq_eq_false_iff_ne, decide_eq_false_iff_not]
  omega

theorem toLower_of_isDigit {c : Char} (h : c.isDigit = true) : c.toLower = c := by
  rw [Char.isDigit_iff_toNat] at h
  unfold Char.toLower
  refine dif_neg fun hupper => ?_
  have hge : 65 ≤ c.toNat := UInt32.le_iff_toNat_le.1 hupper.1
  have hle : c.toNat ≤ 57 := h.2
  omega

theorem toUpper_of_isDigit {c : Char} (h : c.isDigit = true) : c.toUpper = c := by
  have hrange : 48 ≤ c.toNat ∧ c.toNat ≤ 57 := Char.isDigit_iff_toNat.1 h
  rw [← Char.toNat_inj, toNat_toUpper, if_neg (by omega)]

end Text

end IndexedStore
