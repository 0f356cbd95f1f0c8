import IndexedStore.Proofs.Key.Magnitude

/-!
# Keys and the values they are the keys of

The keys that values have are the normal ones, in which at no depth a float stands for an integer of 64 bits or is a
NaN other than the one (`Key.normal_ofValue`), and a normal key is the key of its own value (`Key.Normal.ofValue`).
A value has no key because of a map, or of a null or undefined in a list, at any depth
(`Key.ofValue_eq_error_iff`).
-/

namespace IndexedStore

open Binary64

namespace Key

/-- At every depth, no float that is an integer of 64 bits, and no NaN but the one. -/
inductive Normal : Key → Prop where
  | bool (b : Bool) : Normal (.bool b)
  | int (i : Int64) : Normal (.int i)
  | nan : Normal (.float .nan)
  | float {x : Binary64} (isNumber : x.isNaN = false)
      (noInteger : ∀ i : Int64, x.toExtended ≠ ((i.toInt : ℚ) : WithTop ℚ)) : Normal (.float x)
  | text (s : String) : Normal (.text s)
  | composite {parts : List Key} (normal : ∀ k ∈ parts, Normal k) : Normal (.composite parts)

/-! ## Floats -/

theorem ofFloat_eq_int_iff_denotes {x : Binary64} (hx : x.isNaN = false) {i : Int64} :
    ofFloat x = .int i ↔ x.toExtended = ((i.toInt : ℚ) : WithTop ℚ) := by
  have hunits := Numeral.toExtended_eq_iff (.float x hx) (.integer i)
  rw [ofFloat_eq_int_iff]
  exact ⟨fun h => hunits.2 h.2, fun h => ⟨isFinite_of_units hx (hunits.1 h), hunits.1 h⟩⟩

/-- A float that is a number has the key of an integer, or is its own key. -/
theorem ofFloat_cases {x : Binary64} (hx : x.isNaN = false) :
    (∃ i, ofFloat x = .int i) ∨ ofFloat x = .float x := by
  unfold ofFloat
  rw [if_neg (by simp [hx])]
  split
  · exact .inl ⟨_, rfl⟩
  · exact .inr rfl

theorem normal_ofFloat (x : Binary64) : (ofFloat x).Normal := by
  cases hx : x.isNaN with
  | true =>
    rw [ofFloat, if_pos hx]
    exact .nan
  | false =>
    rcases ofFloat_cases hx with ⟨i, hi⟩ | hself
    · rw [hi]
      exact .int i
    · rw [hself]
      refine .float hx fun i hi => ?_
      rw [← ofFloat_eq_int_iff_denotes hx, hself] at hi
      cases hi

theorem Normal.ofFloat {x : Binary64} (h : (Key.float x).Normal) : ofFloat x = .float x := by
  cases h with
  | nan => rfl
  | float hx hnot =>
    rcases ofFloat_cases hx with ⟨i, hi⟩ | hself
    · exact absurd ((ofFloat_eq_int_iff_denotes hx).1 hi) (hnot i)
    · exact hself

/-! ## There and back -/

mutual

theorem normal_ofValue : ∀ {v : Value} {k : Key}, ofValue v = .ok (some k) → k.Normal
  | .bool b, k, h => by
    cases h
    exact .bool b
  | .integer i, k, h => by
    cases h
    exact .int i
  | .float x, k, h => by
    cases h
    exact normal_ofFloat x
  | .text s, k, h => by
    cases h
    exact .text s
  | .list items, k, h => by
    rw [ofValue] at h
    cases hitems : ofItems items with
    | error fault => simp [hitems, Except.map] at h
    | ok parts =>
      rw [hitems] at h
      cases h
      exact .composite (normal_ofItems hitems)
  | .null, k, h | .undefined, k, h | .map fields, k, h => by cases h

theorem normal_ofItems : ∀ {items : List Value} {parts : List Key}, ofItems items = .ok parts →
    ∀ k ∈ parts, k.Normal
  | [], parts, h => by
    cases h
    simp
  | v :: rest, parts, h => by
    rw [ofItems] at h
    split at h
    · cases h
    · cases h
    · rename_i k hk
      cases hrest : ofItems rest with
      | error fault => simp [hrest, Except.map] at h
      | ok ks =>
        rw [hrest] at h
        cases h
        exact List.forall_mem_cons.2 ⟨normal_ofValue hk, normal_ofItems hrest⟩

end

theorem ofItems_toValues {parts : List Key} (h : ∀ k ∈ parts, ofValue k.toValue = .ok (some k)) :
    ofItems (toValues parts) = .ok parts := by
  induction parts with
  | nil => rfl
  | cons k rest ih =>
    obtain ⟨hk, hrest⟩ := List.forall_mem_cons.1 h
    rw [toValues, ofItems, hk]
    simp only [ih hrest, Except.map]

/-- A normal key is the key of its value. -/
theorem Normal.ofValue {k : Key} (h : k.Normal) : ofValue k.toValue = .ok (some k) := by
  induction h with
  | bool b => rfl
  | int i => rfl
  | nan => rfl
  | @float x hx hnot =>
    rw [toValue, Key.ofValue, (Normal.float hx hnot).ofFloat]
  | text s => rfl
  | composite _ ih =>
    rw [toValue, Key.ofValue, ofItems_toValues ih]
    rfl

end Key

/-! ## Values without a key -/

/-- `v.Contains w`: the value `w` is `v`, or in an element of it or in a field of it. -/
inductive Value.Contains : Value → Value → Prop where
  | self (v : Value) : Contains v v
  | item {items : List Value} {v w : Value} (mem : v ∈ items) (inner : Contains v w) : Contains (.list items) w
  | field {fields : List (String × Value)} {name : String} {v w : Value} (mem : (name, v) ∈ fields)
      (inner : Contains v w) : Contains (.map fields) w

namespace Value

/-- There is a map in the value, or a list with a null or undefined among its elements. -/
def Keyless (v : Value) : Prop :=
  (∃ fields, v.Contains (.map fields)) ∨ ∃ items, v.Contains (.list items) ∧ (.null ∈ items ∨ .undefined ∈ items)

theorem keyless_list_iff {items : List Value} :
    (list items).Keyless ↔ ∃ v ∈ items, v.Keyless ∨ v = .null ∨ v = .undefined := by
  constructor
  · rintro (⟨fields, h⟩ | ⟨inner, h, hin⟩)
    · cases h with
      | item hv hc => exact ⟨_, hv, .inl (.inl ⟨fields, hc⟩)⟩
    · cases h with
      | self =>
        rcases hin with hnull | hundefined
        · exact ⟨_, hnull, .inr (.inl rfl)⟩
        · exact ⟨_, hundefined, .inr (.inr rfl)⟩
      | item hv hc => exact ⟨_, hv, .inl (.inr ⟨inner, hc, hin⟩)⟩
  · rintro ⟨v, hv, (⟨fields, hc⟩ | ⟨inner, hc, hin⟩) | rfl | rfl⟩
    · exact .inl ⟨fields, .item hv hc⟩
    · exact .inr ⟨inner, .item hv hc, hin⟩
    · exact .inr ⟨items, .self _, .inl hv⟩
    · exact .inr ⟨items, .self _, .inr hv⟩

theorem not_keyless_of_scalar {v : Value} (h : ∀ w, v.Contains w → w = v) (hmap : ∀ fields, v ≠ .map fields)
    (hlist : ∀ items, v ≠ .list items) : ¬ v.Keyless := by
  rintro (⟨fields, hc⟩ | ⟨items, hc, -⟩)
  · exact hmap fields (h _ hc).symm
  · exact hlist items (h _ hc).symm

end Value

namespace Key

theorem ofValue_eq_none_iff {v : Value} : ofValue v = .ok none ↔ v = .null ∨ v = .undefined := by
  cases v with
  | list items =>
    rw [ofValue]
    cases ofItems items <;> simp [Except.map]
  | _ => simp [ofValue]

/-- A list is given up because of an element that has no key. -/
theorem ofItems_eq_error_iff {items : List Value} : (∃ fault, ofItems items = .error fault) ↔
    ∃ v ∈ items, (∃ fault, ofValue v = .error fault) ∨ ofValue v = .ok none := by
  induction items with
  | nil => simp [ofItems]
  | cons v rest ih =>
    simp only [List.mem_cons, exists_eq_or_imp, ← ih, ofItems]
    cases hv : ofValue v with
    | error fault => simp
    | ok key =>
      cases key with
      | none => simp
      | some k => cases ofItems rest <;> simp [Except.map]

/-- A value fails to have a key exactly if there is a map in it, or a list with a null or undefined. -/
theorem ofValue_eq_error_iff (v : Value) : (∃ fault, ofValue v = .error fault) ↔ v.Keyless := by
  match v with
  | .map fields => exact iff_of_true ⟨_, rfl⟩ (.inl ⟨fields, .self _⟩)
  | .list items =>
    have hlist : (∃ fault, ofValue (.list items) = .error fault) ↔ ∃ fault, ofItems items = .error fault := by
      rw [ofValue]
      cases ofItems items <;> simp [Except.map]
    rw [hlist, ofItems_eq_error_iff, Value.keyless_list_iff]
    refine exists_congr fun w => and_congr_right fun hw => ?_
    rw [ofValue_eq_error_iff w, ofValue_eq_none_iff]
  | .null | .undefined | .bool _ | .integer _ | .float _ | .text _ =>
    refine iff_of_false (by simp [ofValue]) (Value.not_keyless_of_scalar ?_ (by simp) (by simp))
    intro w hw
    cases hw
    rfl
termination_by sizeOf v
decreasing_by
  have := List.sizeOf_lt_of_mem hw
  simp only [Value.list.sizeOf_spec]
  omega

/-- **Keys and values convert back.** The key of a value is normal and not below the floor of its class, and every
normal key is the key of its value. A value has no key exactly because of a map in it, or a null or undefined in a
list in it; and null and undefined by themselves, and nothing else, are keys of nothing. -/
theorem conversions_inverse :
    (∀ v k, ofValue v = .ok (some k) → k.Normal ∧ floor k.keyClass ≤ k) ∧
    (∀ k : Key, k.Normal → ofValue k.toValue = .ok (some k)) ∧
    (∀ v, (∃ fault, ofValue v = .error fault) ↔ (∃ fields, v.Contains (.map fields)) ∨
      ∃ items, v.Contains (.list items) ∧ (.null ∈ items ∨ .undefined ∈ items)) ∧
    ∀ v, ofValue v = .ok none ↔ v = .null ∨ v = .undefined :=
  ⟨fun _ _ h => ⟨normal_ofValue h, grounded_ofValue h⟩, fun _ h => h.ofValue, ofValue_eq_error_iff,
    fun _ => ofValue_eq_none_iff⟩

/-- A list with the float one, with some other NaN and with a list, and the normal key that it has. -/
theorem conversions_inverse_nested :
    let v := Value.list [.float ⟨0x3ff0000000000000⟩, .float ⟨0xfff8000000000001⟩, .list [.text "a"]]
    let k := Key.composite [.int 1, .float .nan, .composite [.text "a"]]
    ofValue v = .ok (some k) ∧ k.Normal ∧ floor k.keyClass ≤ k ∧ ofValue k.toValue = .ok (some k) := by
  intro v k
  have hkey : ofValue v = .ok (some k) := by decide +kernel
  have hnormal := conversions_inverse.1 v k hkey
  exact ⟨hkey, hnormal.1, hnormal.2, conversions_inverse.2.1 k hnormal.1⟩

end Key

end IndexedStore
