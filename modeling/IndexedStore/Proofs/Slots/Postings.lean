import IndexedStore.Slots.Basic
import IndexedStore.Proofs.Tables

/-!
# Postings as multisets

`Postings.count` is the multiplicity of an entry key. Adding and removing change it by one at that key,
and where postings are well formed the keys listed are exactly those with a positive multiplicity.

A slot store is read as a multiset too, of pairs of a slot and an entry key. Each store proves what one
mapping more or less does to its occurrences; `foldl_added` and `foldl_removed` say from that what a
whole list of slots does.
-/

namespace IndexedStore

namespace Postings

/-- Each key stands once and occurs, and the total is the sum of the multiplicities. -/
structure WF (p : Postings) : Prop where
  unique : Table.Unique p.counts
  positive : ∀ e ∈ p.counts, 0 < e.2
  total : p.total = sumOf (·.2) p.counts

theorem wf_empty : empty.WF := ⟨by simp [empty], by simp [empty], rfl⟩

@[simp] theorem count_empty (key : Key) : empty.count key = 0 := rfl

@[simp] theorem count_add (p : Postings) (key k : Key) :
    (p.add key).count k = p.count k + if k = key then 1 else 0 := by
  by_cases h : key = k
  · subst h; simp [count, add]
  · simp [count, add, h, Ne.symm h]

theorem find?_eq_some_count {p : Postings} {key : Key} {n : Nat} (h : Table.find? key p.counts = some n) :
    p.count key = n := by simp [count, h]

/-- The multiplicities tell what is listed. -/
theorem find?_eq_some_iff {p : Postings} (h : p.WF) {key : Key} {n : Nat} :
    Table.find? key p.counts = some n ↔ 0 < n ∧ p.count key = n := by
  constructor
  · intro hf
    exact ⟨Table.forall_find? h.positive hf, find?_eq_some_count hf⟩
  · rintro ⟨hpos, rfl⟩
    rw [count] at hpos ⊢
    cases hf : Table.find? key p.counts with
    | none => simp [hf] at hpos
    | some n => rfl

theorem WF.add {p : Postings} (h : p.WF) (key : Key) : (p.add key).WF where
  unique := h.unique.set key _
  positive := Table.forall_set h.positive (Nat.succ_pos _)
  total := by
    have hs := Table.sumOf_set (·.2) p.counts key (p.count key + 1)
    have ht := h.total
    cases hf : Table.find? key p.counts <;>
      simp only [Postings.add, count, hf, Option.getD_some, Option.getD_none] at hs ht ⊢ <;> omega

theorem count_pos_iff {p : Postings} (h : p.WF) {key : Key} : 0 < p.count key ↔ key ∈ p.keys := by
  rw [keys, Table.mem_keys_iff, count]
  cases hf : Table.find? key p.counts with
  | none => simp
  | some n => simpa using Table.forall_find? h.positive hf

theorem contains_iff {p : Postings} (h : p.WF) {key : Key} : p.contains key = true ↔ 0 < p.count key := by
  rw [count_pos_iff h, keys, Table.mem_keys_iff, contains, Table.contains]

theorem isEmpty_iff {p : Postings} (h : p.WF) : p.isEmpty = true ↔ ∀ key, p.count key = 0 := by
  constructor
  · intro he key
    simp [count, List.isEmpty_iff.1 he]
  · intro hc
    rw [isEmpty, List.isEmpty_iff, ← List.map_eq_nil_iff, List.eq_nil_iff_forall_not_mem]
    intro k hk
    exact absurd ((count_pos_iff h).2 hk) (by simp [hc k])

theorem remove?_eq_none_iff {p : Postings} (h : p.WF) {key : Key} :
    p.remove? key = none ↔ p.count key = 0 := by
  unfold remove? count
  cases hf : Table.find? key p.counts with
  | none => simp
  | some n =>
    have := Table.forall_find? h.positive hf
    simp; omega

theorem remove?_spec {p left : Postings} (h : p.WF) {key : Key} (hr : p.remove? key = some left) :
    left.WF ∧ left.total + 1 = p.total ∧ 0 < p.count key ∧
      ∀ k, left.count k = p.count k - if k = key then 1 else 0 := by
  unfold remove? at hr
  cases hf : Table.find? key p.counts with
  | none => simp [hf] at hr
  | some n =>
    have hn : 0 < n := Table.forall_find? h.positive hf
    have ht := h.total
    have hse := Table.sumOf_erase (·.2) p.counts key
    have hss := Table.sumOf_set (·.2) p.counts key (n - 1)
    simp only [hf] at hr hse hss
    obtain rfl := Option.some.inj hr
    have hpos : 0 < p.count key := by rw [find?_eq_some_count hf]; exact hn
    by_cases h1 : 1 < n
    · simp only [h1, if_true]
      refine ⟨⟨h.unique.set key _, Table.forall_set h.positive (by simp; omega), ?_⟩, ?_, hpos, ?_⟩
      · simp only; omega
      · omega
      · intro k
        by_cases hk : key = k
        · subst hk; simp [count, hf]
        · simp [count, hk, Ne.symm hk]
    · simp only [h1, if_false]
      refine ⟨⟨h.unique.erase key, fun e he => h.positive e (Table.mem_of_mem_erase he), ?_⟩, ?_, hpos,
        ?_⟩
      · simp only; omega
      · omega
      · intro k
        by_cases hk : key = k
        · subst hk; simp [count, Table.find?_erase h.unique, hf]; omega
        · simp [count, Table.find?_erase h.unique, hk, Ne.symm hk]

end Postings

/-! ## Lists of slots, mapped one by one -/

section Runs

variable {S : Type} {wf : S → Prop} {occurrences : S → Slot → Key → Nat} {step : S → Slot → S} {key : Key}
  {slots : List Slot}

theorem foldl_added
    (h : ∀ slot ∈ slots, ∀ s, wf s → wf (step s slot) ∧ ∀ sl k,
      occurrences (step s slot) sl k = occurrences s sl k + if sl = slot ∧ k = key then 1 else 0)
    {s : S} (hs : wf s) :
    wf (slots.foldl step s) ∧ ∀ sl k,
      occurrences (slots.foldl step s) sl k = occurrences s sl k + if k = key then slots.count sl else 0 := by
  induction slots generalizing s with
  | nil => exact ⟨hs, by simp⟩
  | cons slot rest ih =>
    obtain ⟨hwf, hocc⟩ := h slot (by simp) s hs
    obtain ⟨hwf', hocc'⟩ := ih (fun sl hsl => h sl (List.mem_cons_of_mem _ hsl)) hwf
    refine ⟨hwf', ?_⟩
    intro sl k
    rw [List.foldl_cons, hocc', hocc, List.count_cons]
    simp only [beq_iff_eq, eq_comm (a := slot)]
    by_cases hk : k = key <;> by_cases hsl : sl = slot <;> (simp [hk, hsl]; try omega)

theorem foldl_removed
    (h : ∀ slot ∈ slots, ∀ s, wf s → wf (step s slot) ∧ ∀ sl k,
      occurrences (step s slot) sl k = occurrences s sl k - if sl = slot ∧ k = key then 1 else 0)
    {s : S} (hs : wf s) :
    wf (slots.foldl step s) ∧ ∀ sl k,
      occurrences (slots.foldl step s) sl k = occurrences s sl k - if k = key then slots.count sl else 0 := by
  induction slots generalizing s with
  | nil => exact ⟨hs, by simp⟩
  | cons slot rest ih =>
    obtain ⟨hwf, hocc⟩ := h slot (by simp) s hs
    obtain ⟨hwf', hocc'⟩ := ih (fun sl hsl => h sl (List.mem_cons_of_mem _ hsl)) hwf
    refine ⟨hwf', ?_⟩
    intro sl k
    rw [List.foldl_cons, hocc', hocc, List.count_cons]
    simp only [beq_iff_eq, eq_comm (a := slot)]
    by_cases hk : k = key <;> by_cases hsl : sl = slot <;> (simp [hk, hsl]; try omega)

end Runs

/-! ## Look-ups -/

theorem nodup_eraseDups (keys : List Key) : keys.eraseDups.Nodup := by
  induction hn : keys.length using Nat.strongRecOn generalizing keys with
  | ind n ih =>
    cases keys with
    | nil => simp
    | cons key rest =>
      rw [List.eraseDups_cons, List.nodup_cons]
      refine ⟨by simp [List.mem_eraseDups], ih _ ?_ _ rfl⟩
      rw [← hn]
      exact Nat.lt_succ_of_le (List.length_filter_le _ _)

namespace Lookup

theorem collect_nodup (ordered : Bool) (found : List (List Key)) : (collect ordered found).keys.Nodup :=
  nodup_eraseDups _

theorem mem_collect {ordered : Bool} {found : List (List Key)} {key : Key} :
    key ∈ (collect ordered found).keys ↔ ∃ keys ∈ found, key ∈ keys := by
  simp [collect, List.mem_eraseDups]

end Lookup

namespace Slot

@[simp] theorem key?_defined (v : Key) : (Slot.defined v).key? = some v := rfl

@[simp] theorem key?_undefined : Slot.undefined.key? = none := rfl

@[simp] theorem key?_ofKey? (k : Option Key) : (Slot.ofKey? k).key? = k := by cases k <;> rfl

end Slot

/-! ## What comparisons hold of -/

namespace Comparison

/-- An undefined value satisfies `isUndefined` alone. -/
theorem holds_none (op : Comparison) (probe : Option Key) :
    op.holds none probe = true ↔ op = .isUndefined := by
  cases op <;> simp [holds]

theorem holds_isUndefined (candidate : Option Key) (probe : Option Key) :
    isUndefined.holds candidate probe = true ↔ candidate = none := by
  cases candidate <;> simp [holds]

theorem holds_eq (candidate probe : Option Key) :
    eq.holds candidate probe = true ↔ candidate = probe ∧ probe ≠ none := by
  cases candidate <;> cases probe <;> simp [holds, compareKeys]
  rintro rfl
  rfl

/-- A comparison of order holds within a class, as the order of keys has it. -/
theorem holds_inequality {op : Comparison} (h : op.isInequality = true) (candidate probe : Option Key) :
    op.holds candidate probe = true ↔
      ∃ c p, candidate = some c ∧ probe = some p ∧ c.keyClass = p.keyClass ∧ op.compareKeys c p = true := by
  cases op <;> first | exact absurd h (by decide) | (cases candidate <;> cases probe <;> simp [holds])

end Comparison

end IndexedStore
