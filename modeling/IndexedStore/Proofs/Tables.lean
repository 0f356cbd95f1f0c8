import IndexedStore.Table
import Mathlib.Data.List.Basic
import Mathlib.Data.List.Perm.Basic

/-!
# Laws of tables

In a table where each key stands once, `set` and `erase` change `find?` at their key alone, and a pair
is in the table exactly when `find?` gives it. `sumOf` follows the changes.
-/

namespace IndexedStore

namespace Table

variable {κ α : Type}

/-- Each key stands once. -/
def Unique (t : Table κ α) : Prop := (keys t).Nodup

@[simp] theorem unique_nil : Unique ([] : Table κ α) := by simp [Unique, keys]

theorem unique_cons {p : κ × α} {t : Table κ α} : Unique (p :: t) ↔ p.1 ∉ keys t ∧ Unique t := by
  simp [Unique, keys]

variable [DecidableEq κ]

@[simp] theorem find?_nil (key : κ) : find? key ([] : Table κ α) = none := rfl

theorem find?_eq_none_iff {t : Table κ α} {key : κ} : find? key t = none ↔ key ∉ keys t := by
  rw [mem_keys_iff]; simp

theorem Unique.set {t : Table κ α} (h : Unique t) (key : κ) (value : α) : Unique (set key value t) := by
  unfold Unique at *
  rw [keys_set]
  split
  · exact h
  · rename_i hk
    refine List.nodup_append.2 ⟨h, by simp, ?_⟩
    intro a ha b hb e
    rw [List.mem_singleton.1 hb] at e
    exact hk (e ▸ ha)

theorem Unique.erase {t : Table κ α} (h : Unique t) (key : κ) : Unique (erase key t) := by
  unfold Unique at *
  rw [keys_erase]
  exact h.erase key

theorem find?_erase_of_ne {t : Table κ α} {key j : κ} (hj : key ≠ j) : find? j (erase key t) = find? j t := by
  induction t with
  | nil => rfl
  | cons p t ih =>
    obtain ⟨k, a⟩ := p
    by_cases hk : k = key
    · subst hk; simp [Table.erase, find?, hj]
    · simp only [Table.erase, hk, if_false, find?, ih]

theorem find?_erase {t : Table κ α} (h : Unique t) (key j : κ) :
    find? j (erase key t) = if key = j then none else find? j t := by
  by_cases hj : key = j
  · subst hj
    rw [if_pos rfl, find?_eq_none_iff, keys_erase]
    exact h.not_mem_erase
  · rw [if_neg hj, find?_erase_of_ne hj]

theorem erase_of_find?_eq_none {t : Table κ α} {key : κ} (h : find? key t = none) : erase key t = t := by
  induction t with
  | nil => rfl
  | cons p t ih =>
    obtain ⟨k, a⟩ := p
    by_cases hk : k = key
    · simp [find?, hk] at h
    · simp only [find?, hk, if_false] at h
      simp only [Table.erase, hk, if_false, ih h]

theorem mem_of_find? {t : Table κ α} {key : κ} {a : α} (h : find? key t = some a) : (key, a) ∈ t := by
  induction t with
  | nil => simp at h
  | cons p t ih =>
    obtain ⟨k, b⟩ := p
    by_cases hk : k = key
    · simp_all [find?]
    · simp only [find?, hk, if_false] at h
      exact List.mem_cons_of_mem _ (ih h)

theorem find?_eq_some_iff {t : Table κ α} (h : Unique t) {key : κ} {a : α} :
    find? key t = some a ↔ (key, a) ∈ t := by
  refine ⟨mem_of_find?, ?_⟩
  intro hm
  induction t with
  | nil => simp at hm
  | cons p t ih =>
    obtain ⟨k, b⟩ := p
    obtain ⟨hk, ht⟩ := unique_cons.1 h
    by_cases hkey : k = key
    · subst hkey
      rcases List.mem_cons.1 hm with e | e
      · simp_all [find?]
      · exact absurd (List.mem_map.2 ⟨_, e, rfl⟩) hk
    · have : (key, a) ∈ t := by simpa [Ne.symm hkey] using hm
      simpa [find?, hkey] using ih ht this

omit [DecidableEq κ] in
theorem length_keys (t : Table κ α) : (keys t).length = t.length := by simp [keys]

theorem length_set (t : Table κ α) (key : κ) (value : α) :
    (set key value t).length = t.length + if find? key t = none then 1 else 0 := by
  rw [← length_keys, keys_set, ← length_keys t]
  by_cases hk : key ∈ keys t
  · have hfound : find? key t ≠ none := fun hnone => find?_eq_none_iff.1 hnone hk
    simp [hk, hfound]
  · simp [hk, find?_eq_none_iff.2 hk]

theorem length_erase {t : Table κ α} {key : κ} (h : find? key t ≠ none) :
    (erase key t).length + 1 = t.length := by
  have hk : key ∈ keys t := not_not.1 (mt find?_eq_none_iff.2 h)
  rw [← length_keys, keys_erase, List.length_erase_of_mem hk, ← length_keys t]
  exact Nat.succ_pred_eq_of_pos (List.length_pos_of_mem hk)

/-- What a property of the pairs says of what is found. -/
theorem forall_find? {t : Table κ α} {P : κ × α → Prop} (h : ∀ p ∈ t, P p) {key : κ} {a : α}
    (hf : find? key t = some a) : P (key, a) := h _ (mem_of_find? hf)

theorem forall_set {t : Table κ α} {P : κ × α → Prop} (h : ∀ p ∈ t, P p) {key : κ} {value : α}
    (hv : P (key, value)) : ∀ p ∈ set key value t, P p := by
  induction t with
  | nil => simpa [Table.set] using hv
  | cons p t ih =>
    obtain ⟨k, b⟩ := p
    by_cases hk : k = key
    · subst hk; simp_all [Table.set]
    · simp_all [Table.set]

theorem erase_sublist (t : Table κ α) (key : κ) : (erase key t).Sublist t := by
  induction t with
  | nil => exact .refl _
  | cons q t ih =>
    obtain ⟨k, b⟩ := q
    by_cases hk : k = key
    · simpa only [Table.erase, hk, if_true] using List.sublist_cons_self _ t
    · simpa only [Table.erase, hk, if_false] using ih.cons_cons _

theorem mem_of_mem_erase {t : Table κ α} {key : κ} {p : κ × α} (h : p ∈ erase key t) : p ∈ t :=
  (erase_sublist t key).subset h

theorem keys_set_of_find? {t : Table κ α} {key : κ} {a : α} (h : find? key t = some a) (value : α) :
    keys (set key value t) = keys t := by
  rw [keys_set, if_pos (mem_keys_iff.2 (by simp [h]))]

/-- A value set is in the place of the one before, or behind all others. -/
theorem keys_sublist_set (t : Table κ α) (key : κ) (value : α) : (keys t).Sublist (keys (set key value t)) := by
  rw [keys_set]
  split
  · exact .refl _
  · exact List.sublist_append_left _ _

theorem keys_erase_sublist (t : Table κ α) (key : κ) : (keys (erase key t)).Sublist (keys t) :=
  (erase_sublist t key).map _

/-- Tables that give the same values are one, where their keys stand in the same order. -/
theorem eq_of_keys {t t' : Table κ α} (hunique : Unique t) (hkeys : keys t = keys t')
    (hfind : ∀ key, find? key t = find? key t') : t = t' := by
  induction t generalizing t' with
  | nil => exact (List.map_eq_nil_iff.1 hkeys.symm).symm
  | cons p t ih =>
    obtain ⟨q, u, rfl⟩ := List.exists_cons_of_ne_nil (show t' ≠ [] by rintro rfl; cases hkeys)
    obtain ⟨hhead, htail⟩ := List.cons.inj hkeys
    obtain ⟨hp, ht⟩ := unique_cons.1 hunique
    have hpq : p = q := by
      have hfound := hfind p.1
      simp only [find?, if_true, if_pos hhead.symm] at hfound
      exact Prod.ext hhead (Option.some.inj hfound)
    subst hpq
    refine congrArg (p :: ·) (ih ht htail fun key => ?_)
    by_cases hk : p.1 = key
    · subst hk
      have hq : p.1 ∉ keys u := fun hm => hp (by rw [keys, htail]; exact hm)
      rw [find?_eq_none_iff.2 hp, find?_eq_none_iff.2 hq]
    · simpa [find?, hk] using hfind key

theorem eq_of_keys_sublist {order : List κ} (horder : order.Nodup) {t t' : Table κ α}
    (h : (keys t).Sublist order) (h' : (keys t').Sublist order) (hfind : ∀ key, find? key t = find? key t') :
    t = t' := by
  have hunique : Unique t := horder.sublist h
  refine eq_of_keys hunique ((List.Nodup.perm_iff_eq_of_sublist horder h h').1 ?_) hfind
  refine (List.perm_ext_iff_of_nodup hunique (horder.sublist h')).2 fun key => ?_
  rw [mem_keys_iff, mem_keys_iff, hfind]

/-- A new key stands last. -/
theorem set_of_find?_eq_none {t : Table κ α} {key : κ} (h : find? key t = none) (value : α) :
    set key value t = t ++ [(key, value)] := by
  induction t with
  | nil => rfl
  | cons q t ih =>
    obtain ⟨k, b⟩ := q
    by_cases hk : k = key
    · simp [find?, hk] at h
    · simp only [find?, hk, if_false] at h
      simp only [Table.set, hk, if_false, ih h, List.cons_append]

theorem find?_append (key : κ) (t t' : Table κ α) : find? key (t ++ t') = (find? key t).or (find? key t') := by
  induction t with
  | nil => rfl
  | cons p t ih =>
    obtain ⟨k, a⟩ := p
    by_cases hk : k = key <;> simp [find?, hk, ih]

omit [DecidableEq κ] in
/-- Two tables with no key in common make one. -/
theorem Unique.append {t t' : Table κ α} (h : Unique t) (h' : Unique t') (hd : ∀ key ∈ keys t, key ∉ keys t') :
    Unique (t ++ t') := by
  unfold Unique at *
  rw [keys, List.map_append]
  refine List.nodup_append.2 ⟨h, h', ?_⟩
  rintro a ha _ hb rfl
  exact hd a ha hb

/-! ## Sums -/

theorem sumOf_set (f : κ × α → Nat) (t : Table κ α) (key : κ) (value : α) :
    sumOf f (set key value t) + (match find? key t with | some a => f (key, a) | none => 0) =
      sumOf f t + f (key, value) := by
  induction t with
  | nil => simp [Table.set, sumOf]
  | cons p t ih =>
    obtain ⟨k, b⟩ := p
    by_cases hk : k = key
    · subst hk; simp [Table.set, sumOf, find?]; omega
    · simp only [Table.set, sumOf, find?, hk, if_false]; omega

theorem sumOf_erase (f : κ × α → Nat) (t : Table κ α) (key : κ) :
    sumOf f (erase key t) + (match find? key t with | some a => f (key, a) | none => 0) = sumOf f t := by
  induction t with
  | nil => simp [Table.erase, sumOf]
  | cons p t ih =>
    obtain ⟨k, b⟩ := p
    by_cases hk : k = key
    · subst hk; simp [Table.erase, sumOf, find?]; omega
    · simp only [Table.erase, sumOf, find?, hk, if_false]; omega

end Table

section Sums

variable {α β : Type} (f : β → Nat)

theorem sumOf_append (l l' : List β) : sumOf f (l ++ l') = sumOf f l + sumOf f l' := by
  induction l with
  | nil => simp [sumOf]
  | cons a l ih => simp [sumOf, ih]; omega

theorem sumOf_map (g : α → β) (l : List α) : sumOf f (l.map g) = sumOf (fun a => f (g a)) l := by
  induction l with
  | nil => rfl
  | cons a l ih => simp [sumOf, ih]

theorem sumOf_flatMap (g : α → List β) (l : List α) : sumOf f (l.flatMap g) = sumOf (fun a => sumOf f (g a)) l := by
  induction l with
  | nil => rfl
  | cons a l ih => rw [List.flatMap_cons, sumOf_append, ih, sumOf]

theorem sumOf_congr {f g : β → Nat} {l : List β} (h : ∀ a ∈ l, f a = g a) : sumOf f l = sumOf g l := by
  induction l with
  | nil => rfl
  | cons a l ih =>
    rw [sumOf, sumOf, h a (by simp), ih fun b hb => h b (List.mem_cons_of_mem _ hb)]

end Sums

end IndexedStore
