import IndexedStore.Proofs.Slots.Store

/-!
# Counters within bounds

The stores count with natural numbers: nothing is too large, and one less than zero is zero. The counters of
`bucket::Bucket` and `primary_key::Owner` have 32 bits, and a total is lowered without a check. Here each store is run
again with counters that are guarded. A counter at zero is not lowered, and no multiplicity is raised to a given
limit; where a guard fails there is no outcome. On a well-formed store, with multiplicities that stay below the limit,
no guard fails and the outcome is that of the plain run (`UniqueSlots.updateWithin?_eq`,
`OrderedSlots.updateWithin?_eq`, `StripedSlots.updateWithin?_eq`).
-/

namespace IndexedStore

/-- A counter one higher, if that is below a limit. -/
def raise? (limit n : Nat) : Option Nat := if n + 1 < limit then some (n + 1) else none

/-- A counter one lower, if it is above zero. -/
def lower? (n : Nat) : Option Nat := if 0 < n then some (n - 1) else none

theorem raise?_eq {limit n : Nat} (h : n + 1 < limit) : raise? limit n = some (n + 1) := if_pos h

theorem lower?_eq {n : Nat} (h : 0 < n) : lower? n = some (n - 1) := if_pos h

section Runs

variable {S : Type} {wf : S → Prop} {step : S → Slot → S} {guarded : S → Slot → Option S} {slots : List Slot}

theorem foldlM_removed (h : ∀ slot ∈ slots, ∀ s, wf s → guarded s slot = some (step s slot) ∧ wf (step s slot))
    {s : S} (hs : wf s) : slots.foldlM guarded s = some (slots.foldl step s) := by
  induction slots generalizing s with
  | nil => rfl
  | cons slot rest ih =>
    obtain ⟨hg, hwf⟩ := h slot (by simp) s hs
    rw [List.foldlM_cons, hg]
    exact ih (fun sl hsl => h sl (List.mem_cons_of_mem _ hsl)) hwf

/-- Additions need room for all that is still to come. -/
theorem foldlM_added (occurrences : S → Slot → Nat) {limit : Nat}
    (h : ∀ slot ∈ slots, ∀ s, wf s → occurrences s slot + 1 < limit → guarded s slot = some (step s slot) ∧
      wf (step s slot) ∧ ∀ sl, occurrences (step s slot) sl = occurrences s sl + if sl = slot then 1 else 0)
    {s : S} (hs : wf s) (hroom : ∀ slot, occurrences s slot + slots.count slot < limit) :
    slots.foldlM guarded s = some (slots.foldl step s) := by
  induction slots generalizing s with
  | nil => rfl
  | cons slot rest ih =>
    have hone := hroom slot
    rw [List.count_cons_self] at hone
    obtain ⟨hg, hwf, hocc⟩ := h slot (by simp) s hs (by omega)
    rw [List.foldlM_cons, hg]
    refine ih (fun sl hsl => h sl (List.mem_cons_of_mem _ hsl)) hwf fun sl => ?_
    have hsl := hroom sl
    rw [List.count_cons] at hsl
    simp only [beq_iff_eq, eq_comm (a := slot)] at hsl
    rw [hocc]
    omega

end Runs

namespace Postings

/-- One more occurrence of an entry key. -/
def addWithin? (limit : Nat) (p : Postings) (key : Key) : Option Postings :=
  (raise? limit (p.count key)).map fun n => ⟨Table.set key n p.counts, p.total + 1⟩

/-- One occurrence less, if there is one. -/
def removeWithin? (p : Postings) (key : Key) : Option (Option Postings) :=
  match Table.find? key p.counts with
  | none => some none
  | some n => do
    let counts ← if 1 < n then (lower? n).map (Table.set key · p.counts) else some (Table.erase key p.counts)
    let total ← lower? p.total
    return some ⟨counts, total⟩

variable {p : Postings} {key : Key}

theorem addWithin?_eq {limit : Nat} (h : p.count key + 1 < limit) : p.addWithin? limit key = some (p.add key) := by
  rw [addWithin?, raise?_eq h]
  rfl

theorem removeWithin?_eq (h : p.WF) (key : Key) : p.removeWithin? key = some (p.remove? key) := by
  unfold removeWithin?
  cases hr : p.remove? key with
  | none =>
    have hnone : Table.find? key p.counts = none := by
      rw [← Option.not_isSome_iff_eq_none, ← Table.mem_keys_iff]
      exact fun hk => absurd ((count_pos_iff h).2 hk) (by rw [(remove?_eq_none_iff h).1 hr]; omega)
    rw [hnone]
  | some left =>
    obtain ⟨-, htotal, -⟩ := remove?_spec h hr
    have hlower : lower? p.total = some (p.total - 1) := lower?_eq (by omega)
    unfold remove? at hr
    cases hf : Table.find? key p.counts with
    | none => simp [hf] at hr
    | some n =>
      have hn : lower? n = some (n - 1) := lower?_eq (Table.forall_find? h.positive hf)
      simp only [hf, Option.some.injEq] at hr
      subst hr
      by_cases h1 : 1 < n <;> simp [h1, hn, hlower]

end Postings

namespace UniqueSlots

/-- One more mapping of an entry key, unless another key owns the slot. -/
def addWithin? (limit : Nat) (s : UniqueSlots) (key : Key) (slot : Slot) : Option (Except Violation UniqueSlots) :=
  match slot with
  | .defined v =>
    match Table.find? v s.owners with
    | some owner =>
      if owner.key = key then
        (raise? limit owner.count).map fun n =>
          .ok { s with owners := Table.set v ⟨owner.key, n⟩ s.owners, total := s.total + 1 }
      else some (.error ⟨s.name, v, owner.key, key⟩)
    | none => some (.ok { s with owners := Table.set v ⟨key, 1⟩ s.owners, total := s.total + 1 })
  | .undefined =>
    (s.undefined.addWithin? limit key).map fun postings => .ok { s with undefined := postings, total := s.total + 1 }

/-- One mapping of an entry key less, if it has one. -/
def removeWithin? (s : UniqueSlots) (key : Key) (slot : Slot) : Option UniqueSlots :=
  match slot with
  | .defined v =>
    match Table.find? v s.owners with
    | some owner =>
      if owner.key = key then do
        let n ← lower? owner.count
        let total ← lower? s.total
        let owners := if n = 0 then Table.erase v s.owners else Table.set v ⟨owner.key, n⟩ s.owners
        return { s with owners := owners, total := total }
      else some s
    | none => some s
  | .undefined => do
    match ← s.undefined.removeWithin? key with
    | some postings => (lower? s.total).map fun total => { s with undefined := postings, total := total }
    | none => some s

/-- The mappings in `slots` added in order; at a violation those in `done` are taken back. -/
def addAllWithin? (limit : Nat) (s : UniqueSlots) (key : Key) (done : List Slot) :
    List Slot → Option (Option Violation × UniqueSlots)
  | [] => some (none, s)
  | slot :: rest => do
    match ← s.addWithin? limit key slot with
    | .ok added => added.addAllWithin? limit key (done ++ [slot]) rest
    | .error violation => return (some violation, ← done.foldlM (·.removeWithin? key ·) s)

/-- The mappings of an entry key changed from `old` to `new`. -/
def updateWithin? (limit : Nat) (s : UniqueSlots) (key : Key) (old new : List Slot) :
    Option (Option Violation × UniqueSlots) := do
  (← old.foldlM (·.removeWithin? key ·) s).addAllWithin? limit key [] new

variable {s : UniqueSlots} {limit : Nat}

theorem addWithin?_eq {key : Key} {slot : Slot} (h : s.occurrences slot key + 1 < limit) :
    s.addWithin? limit key slot = some (s.add key slot) := by
  cases slot with
  | undefined =>
    have hroom : s.undefined.count key + 1 < limit := h
    simp only [addWithin?, Postings.addWithin?_eq hroom, add, Option.map_some]
  | defined v =>
    cases hf : Table.find? v s.owners with
    | none => simp only [addWithin?, add, hf]
    | some owner =>
      rw [occurrences_defined hf] at h
      by_cases hk : owner.key = key
      · rw [if_pos hk] at h
        simp only [addWithin?, add, hf, if_pos hk, raise?_eq h, Option.map_some]
      · simp only [addWithin?, add, hf, if_neg hk]

theorem removeWithin?_eq (h : s.WF) (key : Key) (slot : Slot) :
    s.removeWithin? key slot = some (s.remove key slot) := by
  have ht := h.total
  cases slot with
  | undefined =>
    simp only [removeWithin?, remove, Postings.removeWithin?_eq h.undefined]
    cases hr : s.undefined.remove? key with
    | none => rfl
    | some left =>
      obtain ⟨-, hleft, -⟩ := Postings.remove?_spec h.undefined hr
      simp [lower?_eq (show 0 < s.total by omega)]
  | defined v =>
    cases hf : Table.find? v s.owners with
    | none => simp only [removeWithin?, remove, hf]
    | some owner =>
      have hpos : 0 < owner.count := h.positive _ (Table.mem_of_find? hf)
      have hsum := Table.sumOf_erase (·.2.count) s.owners v
      simp only [hf] at hsum
      by_cases hk : owner.key = key
      · simp [removeWithin?, remove, hf, hk, lower?_eq hpos, lower?_eq (show 0 < s.total by omega)]
      · simp [removeWithin?, remove, hf, hk]

theorem foldlM_removeWithin? (h : s.WF) (key : Key) (slots : List Slot) :
    slots.foldlM (·.removeWithin? key ·) s = some (slots.foldl (·.remove key ·) s) :=
  foldlM_removed (fun slot _ t (ht : t.WF) => ⟨removeWithin?_eq ht key slot, (remove_spec ht key slot).1⟩) h

theorem addAllWithin?_eq (h : s.WF) {key : Key} {done rest : List Slot}
    (hroom : ∀ slot, s.occurrences slot key + rest.count slot < limit) :
    s.addAllWithin? limit key done rest = some (s.addAll key done rest) := by
  induction rest generalizing s done with
  | nil => rfl
  | cons slot rest ih =>
    have hone := hroom slot
    rw [List.count_cons_self] at hone
    have hadd := add_spec h key slot
    unfold addAllWithin? addAll
    rw [addWithin?_eq (show s.occurrences slot key + 1 < limit by omega)]
    cases ha : s.add key slot with
    | error violation => simp [foldlM_removeWithin? h]
    | ok added =>
      rw [ha] at hadd
      obtain ⟨hwf, -, hocc⟩ := hadd
      refine ih hwf fun sl => ?_
      have hsl := hroom sl
      rw [List.count_cons] at hsl
      simp only [beq_iff_eq, eq_comm (a := slot)] at hsl
      rw [hocc]
      simp only [and_true]
      omega

/-- **No counter of a well-formed store leaves its bounds in an update** that the limit has room for. -/
theorem updateWithin?_eq (h : s.WF) {key : Key} {old new : List Slot}
    (hroom : ∀ slot, (old.foldl (·.remove key ·) s).occurrences slot key + new.count slot < limit) :
    s.updateWithin? limit key old new = some (s.update key old new) := by
  rw [updateWithin?, foldlM_removeWithin? h, Option.bind_eq_bind, Option.bind_some]
  exact addAllWithin?_eq (foldl_remove_spec h key old).1 hroom

end UniqueSlots

namespace OrderedSlots

/-- One more occurrence of an entry key under a value, at the value's place in the order. -/
def addUnderWithin? (limit : Nat) (value key : Key) : List (Key × Postings) → Option (List (Key × Postings))
  | [] => (Postings.empty.addWithin? limit key).map fun added => [(value, added)]
  | (v, p) :: rest =>
    match compare value v with
    | .lt => (Postings.empty.addWithin? limit key).map fun added => (value, added) :: (v, p) :: rest
    | .eq => (p.addWithin? limit key).map fun added => (v, added) :: rest
    | .gt => (addUnderWithin? limit value key rest).map ((v, p) :: ·)

/-- One occurrence less of an entry key under a value, if there is one. -/
def removeUnderWithin? (value key : Key) : List (Key × Postings) → Option (Option (List (Key × Postings)))
  | [] => some none
  | (v, p) :: rest =>
    if v = value then
      (p.removeWithin? key).map (·.map fun left => if left.isEmpty then rest else (v, left) :: rest)
    else (removeUnderWithin? value key rest).map (·.map ((v, p) :: ·))

/-- One more mapping of an entry key. -/
def addWithin? (limit : Nat) (s : OrderedSlots) (key : Key) (slot : Slot) : Option OrderedSlots :=
  match slot with
  | .defined v =>
    (addUnderWithin? limit v key s.values).map fun values =>
      { s with values := values, total := s.total + 1, rooted := true }
  | .undefined =>
    (s.undefined.addWithin? limit key).map fun postings => { s with undefined := postings, total := s.total + 1 }

/-- One mapping of an entry key less, if it has one. -/
def removeWithin? (s : OrderedSlots) (key : Key) (slot : Slot) : Option OrderedSlots :=
  match slot with
  | .defined v => do
    match ← removeUnderWithin? v key s.values with
    | some values => (lower? s.total).map fun total => { s with values := values, total := total }
    | none => some s
  | .undefined => do
    match ← s.undefined.removeWithin? key with
    | some postings => (lower? s.total).map fun total => { s with undefined := postings, total := total }
    | none => some s

/-- The mappings of an entry key changed from `old` to `new`. -/
def updateWithin? (limit : Nat) (s : OrderedSlots) (key : Key) (old new : List Slot) : Option OrderedSlots := do
  new.foldlM (·.addWithin? limit key ·) (← old.foldlM (·.removeWithin? key ·) s)

variable {s : OrderedSlots} {limit : Nat}

theorem addUnderWithin?_eq {value key : Key} {l : List (Key × Postings)} (h : Sorted l)
    (hroom : ((Table.find? value l).getD .empty).count key + 1 < limit) :
    addUnderWithin? limit value key l = some (addUnder value key l) := by
  induction l with
  | nil =>
    have hnew : Postings.empty.count key + 1 < limit := hroom
    simp only [addUnderWithin?, Postings.addWithin?_eq hnew, addUnder, Option.map_some]
  | cons e l ih =>
    obtain ⟨v, p⟩ := e
    obtain ⟨hv, hl⟩ := sorted_cons.1 h
    simp only [addUnderWithin?, addUnder]
    cases hc : compare value v with
    | lt =>
      -- a new slot, which has no postings yet
      have hlt := Key.compare_eq_lt_iff.1 hc
      have habsent : value ∉ Table.keys ((v, p) :: l) := by
        intro hm
        rcases List.mem_cons.1 hm with heq | hm
        · exact lt_irrefl _ (heq ▸ hlt)
        · exact lt_asymm hlt (hv value hm)
      have hnew : Postings.empty.count key + 1 < limit := by
        rwa [Table.find?_eq_none_iff.2 habsent] at hroom
      simp only [Postings.addWithin?_eq hnew, Option.map_some]
    | eq =>
      obtain rfl := Key.compare_eq_iff.1 hc
      have hfound : p.count key + 1 < limit := by simpa [Table.find?] using hroom
      simp only [Postings.addWithin?_eq hfound, Option.map_some]
    | gt =>
      have hne : v ≠ value := ne_of_lt (Key.compare_eq_gt_iff.1 hc)
      simp only [Table.find?, hne, if_false] at hroom
      simp only [ih hl hroom, Option.map_some]

theorem removeUnderWithin?_eq {l : List (Key × Postings)} (h : ∀ e ∈ l, e.2.WF ∧ e.2.isEmpty = false)
    (value key : Key) : removeUnderWithin? value key l = some (removeUnder? value key l) := by
  induction l with
  | nil => rfl
  | cons e l ih =>
    obtain ⟨v, p⟩ := e
    have hrest := ih fun e he => h e (List.mem_cons_of_mem _ he)
    by_cases hv : v = value
    · simp [removeUnderWithin?, removeUnder?, hv, Postings.removeWithin?_eq (h (v, p) (by simp)).1]
    · simp [removeUnderWithin?, removeUnder?, hv, hrest]

theorem addWithin?_eq (h : s.WF) {key : Key} {slot : Slot} (hroom : s.occurrences slot key + 1 < limit) :
    s.addWithin? limit key slot = some (s.add key slot) := by
  cases slot with
  | defined v => simp only [addWithin?, addUnderWithin?_eq h.sorted hroom, add, Option.map_some]
  | undefined =>
    have hundefined : s.undefined.count key + 1 < limit := hroom
    simp only [addWithin?, Postings.addWithin?_eq hundefined, add, Option.map_some]

theorem removeWithin?_eq (h : s.WF) (key : Key) (slot : Slot) :
    s.removeWithin? key slot = some (s.remove key slot) := by
  have ht := h.total
  cases slot with
  | defined v =>
    simp only [removeWithin?, remove, removeUnderWithin?_eq h.postings]
    cases hr : removeUnder? v key s.values with
    | none => rfl
    | some left =>
      obtain ⟨-, -, hsum, -⟩ := removeUnder?_spec hr h.sorted h.postings
      simp [lower?_eq (show 0 < s.total by omega)]
  | undefined =>
    simp only [removeWithin?, remove, Postings.removeWithin?_eq h.undefined]
    cases hr : s.undefined.remove? key with
    | none => rfl
    | some left =>
      obtain ⟨-, hleft, -⟩ := Postings.remove?_spec h.undefined hr
      simp [lower?_eq (show 0 < s.total by omega)]

/-- **No counter of a well-formed store leaves its bounds in an update** that the limit has room for. -/
theorem updateWithin?_eq (h : s.WF) {key : Key} {old new : List Slot}
    (hroom : ∀ slot, (s.update key old new).occurrences slot key < limit) :
    s.updateWithin? limit key old new = some (s.update key old new) := by
  have removed : old.foldlM (·.removeWithin? key ·) s = some (old.foldl (·.remove key ·) s) :=
    foldlM_removed (fun slot _ t (ht : t.WF) => ⟨removeWithin?_eq ht key slot, ht.remove key slot⟩) h
  obtain ⟨hwf, hocc⟩ := foldl_remove_spec h key old
  have added : ∀ slot ∈ new, ∀ t : OrderedSlots, t.WF → t.occurrences slot key + 1 < limit →
      t.addWithin? limit key slot = some (t.add key slot) ∧ (t.add key slot).WF ∧ ∀ sl,
        (t.add key slot).occurrences sl key = t.occurrences sl key + if sl = slot then 1 else 0 := by
    intro slot _ t ht hone
    refine ⟨addWithin?_eq ht hone, ht.add key slot, fun sl => ?_⟩
    rw [occurrences_add ht]
    simp
  rw [updateWithin?, removed, Option.bind_eq_bind, Option.bind_some]
  refine foldlM_added (fun t slot => t.occurrences slot key) added hwf fun slot => ?_
  have hslot := hroom slot
  rw [(update_spec h key old new).2, if_pos rfl, if_pos rfl] at hslot
  rw [hocc, if_pos rfl]
  exact hslot

end OrderedSlots

namespace Stripe

def addWithin? (limit : Nat) (s : Stripe) (key : Key) (slot : Slot) : Option Stripe :=
  ((s.postings slot).addWithin? limit key).map fun added => ⟨Table.set slot added s.slots, s.total + 1⟩

/-- One mapping less, if there is one. -/
def removeWithin? (s : Stripe) (key : Key) (slot : Slot) : Option Stripe :=
  match Table.find? slot s.slots with
  | none => some s
  | some postings => do
    match ← postings.removeWithin? key with
    | none => return if postings.isEmpty then { s with slots := Table.erase slot s.slots } else s
    | some left =>
      let total ← lower? s.total
      return if left.isEmpty then ⟨Table.erase slot s.slots, total⟩ else ⟨Table.set slot left s.slots, total⟩

variable {s : Stripe} {limit : Nat}

theorem addWithin?_eq {key : Key} {slot : Slot} (hroom : s.occurrences slot key + 1 < limit) :
    s.addWithin? limit key slot = some (s.add key slot) := by
  simp only [addWithin?, Postings.addWithin?_eq hroom, add, Option.map_some]

theorem removeWithin?_eq (h : s.WF) (key : Key) (slot : Slot) :
    s.removeWithin? key slot = some (s.remove key slot) := by
  have ht := h.total
  unfold removeWithin? remove
  cases hf : Table.find? slot s.slots with
  | none => rfl
  | some postings =>
    have hp : postings.WF := (h.postings _ (Table.mem_of_find? hf)).1
    have hsum := Table.sumOf_erase (·.2.total) s.slots slot
    simp only [hf] at hsum
    simp only [Postings.removeWithin?_eq hp]
    cases hr : postings.remove? key with
    | none => simp
    | some left =>
      obtain ⟨-, hleft, -⟩ := Postings.remove?_spec hp hr
      simp [lower?_eq (show 0 < s.total by omega)]

end Stripe

namespace StripedSlots

/-- One change to the stripe of a slot, which is looked for among the stripes held. -/
def changeWithin? (s : StripedSlots) (locked : List Nat) (slot : Slot) (f : Stripe → Option Stripe) :
    Option StripedSlots :=
  match (place? (s.stripeOf slot) locked).bind (locked[·]?) with
  | some stripe => (f (s.stripeAt stripe)).map fun changed => { s with stripes := s.stripes.set stripe changed }
  | none => some s

/-- The mappings of an entry key changed from `old` to `new`. -/
def updateWithin? (limit : Nat) (s : StripedSlots) (key : Key) (old new : List Slot) : Option StripedSlots := do
  let locked := s.held (old ++ new)
  let cleared ← old.foldlM (fun s slot => s.changeWithin? locked slot (·.removeWithin? key slot)) s
  new.foldlM (fun s slot => s.changeWithin? locked slot (·.addWithin? limit key slot)) cleared

variable {s : StripedSlots} {limit : Nat} {locked : List Nat} {slots : List Slot}

theorem Holding.changeWithin?_eq (h : s.Holding locked slots) {slot : Slot} (hslot : slot ∈ slots)
    {f : Stripe → Stripe} {guarded : Stripe → Option Stripe}
    (hf : guarded (s.stripeAt (s.stripeOf slot)) = some (f (s.stripeAt (s.stripeOf slot)))) :
    s.changeWithin? locked slot guarded = some (s.change locked slot f) := by
  obtain ⟨i, hp, hi⟩ := place?_spec h.ascending (h.held slot hslot)
  have hset : s.stripes.set (s.stripeOf slot) (f (s.stripeAt (s.stripeOf slot))) =
      s.stripes.modify (s.stripeOf slot) f := by
    rw [List.modify_eq_set_getElem?, stripeAt_mem h.wf slot]
    rfl
  rw [change_eq h.ascending (h.held slot hslot), ← hset]
  simp only [changeWithin?, hp, hi, Option.bind_some, hf, Option.map_some]

/-- **No counter of a well-formed store leaves its bounds in an update** that the limit has room for. -/
theorem updateWithin?_eq (h : s.WF) {key : Key} {old new : List Slot}
    (hroom : ∀ slot, (s.update key old new).occurrences slot key < limit) :
    s.updateWithin? limit key old new = some (s.update key old new) := by
  have hold : ∀ slot ∈ old, slot ∈ old ++ new := fun slot hslot => List.mem_append_left _ hslot
  have hholding := Holding.of_held h (old ++ new)
  have removed : ∀ slot ∈ old, ∀ t : StripedSlots, t.Holding (s.held (old ++ new)) (old ++ new) →
      t.changeWithin? (s.held (old ++ new)) slot (·.removeWithin? key slot) =
          some (t.change (s.held (old ++ new)) slot (·.remove key slot)) ∧
        (t.change (s.held (old ++ new)) slot (·.remove key slot)).Holding (s.held (old ++ new)) (old ++ new) :=
    fun slot hslot t ht => ⟨ht.changeWithin?_eq (hold slot hslot)
      (Stripe.removeWithin?_eq (stripeAt_wf ht.wf slot) key slot), (ht.remove (hold slot hslot) key).1⟩
  have added : ∀ slot ∈ new, ∀ t : StripedSlots, t.Holding (s.held (old ++ new)) (old ++ new) →
      t.occurrences slot key + 1 < limit →
      t.changeWithin? (s.held (old ++ new)) slot (·.addWithin? limit key slot) =
          some (t.change (s.held (old ++ new)) slot (·.add key slot)) ∧
        (t.change (s.held (old ++ new)) slot (·.add key slot)).Holding (s.held (old ++ new)) (old ++ new) ∧
        ∀ sl, (t.change (s.held (old ++ new)) slot (·.add key slot)).occurrences sl key =
          t.occurrences sl key + if sl = slot then 1 else 0 := by
    intro slot hslot t ht hone
    have hmem : slot ∈ old ++ new := List.mem_append_right _ hslot
    obtain ⟨hadd, hocc⟩ := ht.add hmem key
    refine ⟨ht.changeWithin?_eq hmem (Stripe.addWithin?_eq hone), hadd, fun sl => ?_⟩
    rw [hocc]
    simp
  obtain ⟨hcleared, hocc⟩ := hholding.removeAll hold key
  simp only [updateWithin?, foldlM_removed removed hholding, Option.bind_eq_bind, Option.bind_some]
  refine foldlM_added (fun t slot => t.occurrences slot key) added hcleared fun slot => ?_
  have hslot := hroom slot
  rw [(update_spec h key old new).2, if_pos rfl, if_pos rfl] at hslot
  rw [hocc, if_pos rfl]
  exact hslot

end StripedSlots

end IndexedStore
