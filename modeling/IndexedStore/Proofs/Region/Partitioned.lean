import IndexedStore.Region.Partitioned
import IndexedStore.Proofs.Tables
import Mathlib.Data.List.Nodup

/-!
# Laws of partitioned tables

Whatever the hash function, the number of buckets and the order of listing, a partitioned table is a table: a
key is found in its own bucket or nowhere, because pairs are only put into the bucket of their key, and each
key is listed once.
-/

namespace IndexedStore.Partitioned

variable {α : Type}

structure WF (p : Partitioned α) : Prop where
  room : 0 < p.buckets.length
  unique : ∀ bucket ∈ p.buckets, Table.Unique bucket
  placed : ∀ i bucket, p.buckets[i]? = some bucket → ∀ e ∈ bucket, p.place e.1 = i

theorem wf_empty (hasher : Hasher) (listing : Listing) {buckets : Nat} (h : 0 < buckets) :
    (empty hasher listing buckets : Partitioned α).WF where
  room := by simpa [empty] using h
  unique bucket hb := by simp [(List.mem_replicate.1 hb).2]
  placed i bucket hi e he := by
    rw [(List.mem_replicate.1 (List.mem_of_getElem? hi)).2] at he
    cases he

theorem find?_empty (hasher : Hasher) (listing : Listing) (buckets : Nat) (key : Key) :
    (empty hasher listing buckets : Partitioned α).find? key = none := by
  let p : Partitioned α := empty hasher listing buckets
  unfold find?
  cases hb : p.buckets[p.place key]? with
  | none => rfl
  | some bucket =>
    rw [(List.mem_replicate.1 (List.mem_of_getElem? hb)).2]
    rfl

theorem place_lt {p : Partitioned α} (h : p.WF) (key : Key) : p.place key < p.buckets.length :=
  Nat.mod_lt _ h.room

@[simp] theorem place_change (p : Partitioned α) (key k : Key) (f : Table Key α → Table Key α) :
    (p.change key f).place k = p.place k := by
  simp [place, change]

theorem getElem?_change (p : Partitioned α) (key : Key) (f : Table Key α → Table Key α) (i : Nat) :
    (p.change key f).buckets[i]? = if p.place key = i then p.buckets[i]?.map f else p.buckets[i]? := by
  rw [change, List.getElem?_modify]
  split <;> simp

/-- A change to the bucket of one key that keeps keys where they belong. -/
theorem WF.change {p : Partitioned α} (h : p.WF) {key : Key} {f : Table Key α → Table Key α}
    (hu : ∀ t, Table.Unique t → Table.Unique (f t))
    (hm : ∀ t e, e ∈ f t → e.1 = key ∨ e.1 ∈ Table.keys t) :
    (p.change key f).WF := by
  refine ⟨by simpa [Partitioned.change] using h.room, ?_, ?_⟩
  · intro bucket hb
    obtain ⟨i, hi⟩ := List.mem_iff_getElem?.1 hb
    rw [getElem?_change] at hi
    split at hi
    · obtain ⟨old, hold, rfl⟩ := Option.map_eq_some_iff.1 hi
      exact hu old (h.unique old (List.mem_of_getElem? hold))
    · exact h.unique _ (List.mem_of_getElem? hi)
  · intro i bucket hi e he
    rw [place_change]
    rw [getElem?_change] at hi
    split at hi
    · rename_i hslot
      obtain ⟨old, hold, rfl⟩ := Option.map_eq_some_iff.1 hi
      rcases hm old e he with heq | hkey
      · rw [heq, hslot]
      · obtain ⟨e', he', heq⟩ := List.mem_map.1 hkey
        rw [← heq]
        exact h.placed i old hold e' he'
    · exact h.placed i bucket hi e he

theorem WF.set {p : Partitioned α} (h : p.WF) (key : Key) (value : α) : (p.set key value).WF :=
  h.change (fun _ ht => ht.set key value) fun _ =>
    Table.forall_set (fun e he => .inr (List.mem_map.2 ⟨e, he, rfl⟩)) (.inl rfl)

theorem WF.erase {p : Partitioned α} (h : p.WF) (key : Key) : (p.erase key).WF :=
  h.change (fun _ ht => ht.erase key) fun _ e he =>
    .inr (List.mem_map.2 ⟨e, Table.mem_of_mem_erase he, rfl⟩)

theorem find?_set {p : Partitioned α} (h : p.WF) (key k : Key) (value : α) :
    (p.set key value).find? k = if k = key then some value else p.find? k := by
  simp only [find?, Partitioned.set, place_change, getElem?_change]
  by_cases hk : k = key
  · subst hk; simp [List.getElem?_eq_getElem (place_lt h k)]
  · by_cases hp : p.place key = p.place k <;> cases p.buckets[p.place k]? <;> simp [hk, Ne.symm hk, hp]

theorem find?_erase {p : Partitioned α} (h : p.WF) (key k : Key) :
    (p.erase key).find? k = if k = key then none else p.find? k := by
  simp only [find?, Partitioned.erase, place_change, getElem?_change]
  cases hb : p.buckets[p.place k]? with
  | none => simp
  | some bucket =>
    have hu := h.unique bucket (List.mem_of_getElem? hb)
    by_cases hk : k = key
    · subst hk; simp [Table.find?_erase hu]
    · by_cases hp : p.place key = p.place k <;> simp [hk, Ne.symm hk, hp, Table.find?_erase hu]

theorem find?_eq_some_iff {p : Partitioned α} (h : p.WF) {key : Key} {a : α} :
    p.find? key = some a ↔ (key, a) ∈ p.toTable := by
  rw [find?, Option.bind_eq_some_iff, toTable, List.mem_flatten]
  constructor
  · rintro ⟨bucket, hb, hf⟩
    exact ⟨bucket, List.mem_of_getElem? hb, Table.mem_of_find? hf⟩
  · rintro ⟨bucket, hb, hm⟩
    obtain ⟨i, hi⟩ := List.mem_iff_getElem?.1 hb
    have hplace := h.placed i bucket hi _ hm
    exact ⟨bucket, hplace ▸ hi, (Table.find?_eq_some_iff (h.unique bucket hb)).2 hm⟩

/-- The keys are listed in some order, each as often as it is stored. -/
theorem keys_perm (p : Partitioned α) : p.keys.Perm (Table.keys p.toTable) := p.listing.perm _ _

theorem mem_keys_iff {p : Partitioned α} (h : p.WF) {key : Key} :
    key ∈ p.keys ↔ (p.find? key).isSome := by
  rw [(keys_perm p).mem_iff, Table.keys, List.mem_map, Option.isSome_iff_exists]
  constructor
  · rintro ⟨⟨k, a⟩, hm, rfl⟩
    exact ⟨a, (find?_eq_some_iff h).2 hm⟩
  · rintro ⟨a, ha⟩
    exact ⟨(key, a), (find?_eq_some_iff h).1 ha, rfl⟩

/-- Each key stands once, also across buckets. -/
theorem keys_nodup {p : Partitioned α} (h : p.WF) : p.keys.Nodup := by
  rw [(keys_perm p).nodup_iff, Table.keys, toTable, List.map_flatten, List.nodup_flatten]
  constructor
  · intro keys hk
    obtain ⟨bucket, hb, rfl⟩ := List.mem_map.1 hk
    exact h.unique bucket hb
  · rw [List.pairwise_map, List.pairwise_iff_getElem]
    intro i j hi hj hij k hki hkj
    obtain ⟨e, he, rfl⟩ := List.mem_map.1 hki
    obtain ⟨e', he', heq⟩ := List.mem_map.1 hkj
    have h1 := h.placed i _ (List.getElem?_eq_getElem hi) e he
    have h2 := h.placed j _ (List.getElem?_eq_getElem hj) e' he'
    rw [heq] at h2
    omega

end IndexedStore.Partitioned
