import IndexedStore.Proofs.KeyOrder

/-!
# Order, identity and hashing of keys

What tables and hash maps of keys rely on is gathered in `Key.order_lawful`: the order is total and
lawful, classes come before contents, and comparing equal, being the same key and feeding a hash
function the same data are one thing.

That distinct keys feed distinct data is shown with whatever else is fed after them: the data of a key
tell where they end. A text ends with a number that no character has, and a composite begins with its
length. That length is fed as a word of 64 bits, so the keys must be `Addressable`.
-/

namespace IndexedStore.Key

mutual

/-- Each composite in the key has fewer parts than a word of 64 bits can count. -/
def Addressable : Key → Prop
  | .composite parts => parts.length < UInt64.size ∧ AddressableParts parts
  | _ => True

def AddressableParts : List Key → Prop
  | [] => True
  | k :: rest => Addressable k ∧ AddressableParts rest

end

/-! ## The data of a key tell where they end -/

theorem toUInt64_inj {m n : Nat} (hm : m < UInt64.size) (hn : n < UInt64.size)
    (h : m.toUInt64 = n.toUInt64) : m = n := by
  have := congrArg UInt64.toNat h
  rwa [Nat.toUInt64_eq, Nat.toUInt64_eq, UInt64.toNat_ofNat_of_lt' hm, UInt64.toNat_ofNat_of_lt' hn] at this

theorem char_toNat_lt (c : Char) : c.toNat < 0x110000 := by
  rcases c.valid with h | ⟨-, h⟩
  · exact Nat.lt_trans h (by decide)
  · exact h

/-- Two texts with the closing number after them, and then anything: the texts are the same. -/
theorem textInput_append_inj {s t : List Char} {u v : List UInt64}
    (h : (s.map fun c => c.toNat.toUInt64) ++ 0xffffffff :: u =
      (t.map fun c => c.toNat.toUInt64) ++ 0xffffffff :: v) : s = t ∧ u = v := by
  have hopen : ∀ c : Char, c.toNat.toUInt64 ≠ 0xffffffff := by
    intro c hc
    have hlt := char_toNat_lt c
    have := toUInt64_inj (n := 0xffffffff) (Nat.lt_trans hlt (by decide)) (by decide) hc
    omega
  induction s generalizing t with
  | nil =>
    cases t with
    | nil => exact ⟨rfl, (List.cons.inj h).2⟩
    | cons d t => exact absurd (List.cons.inj h).1.symm (hopen d)
  | cons c s ih =>
    cases t with
    | nil => exact absurd (List.cons.inj h).1 (hopen c)
    | cons d t =>
      obtain ⟨hcd, hrest⟩ := List.cons.inj h
      obtain ⟨hst, huv⟩ := ih hrest
      have hc := Nat.lt_trans (char_toNat_lt c) (show 0x110000 < UInt64.size by decide)
      have hd := Nat.lt_trans (char_toNat_lt d) (show 0x110000 < UInt64.size by decide)
      exact ⟨by rw [Char.toNat_inj.1 (toUInt64_inj hc hd hcd), hst], huv⟩

/-- Two keys of which the first has no parts: their kinds are the same, as their first words are. -/
theorem scalar_append_inj {a b : Key} {u v : List UInt64} (ha : a.keyClass ≠ .composite)
    (h : a.hashInput ++ u = b.hashInput ++ v) : a = b ∧ u = v := by
  cases a <;> cases b <;>
    simp only [hashInput, List.cons_append, List.nil_append, List.append_assoc, List.cons.injEq, true_and] at h
  case bool.bool x y =>
    refine ⟨?_, h.2⟩
    cases x <;> cases y <;> first | rfl | exact absurd h.1 (by decide)
  case int.int i j =>
    obtain ⟨hij, huv⟩ := h
    exact ⟨congrArg Key.int (by cases i; cases j; exact congrArg _ hij), huv⟩
  case float.float x y =>
    obtain ⟨hxy, huv⟩ := h
    exact ⟨congrArg Key.float (by cases x; cases y; exact congrArg _ hxy), huv⟩
  case text.text s t =>
    obtain ⟨hst, huv⟩ := textInput_append_inj h
    exact ⟨congrArg Key.text (String.toList_inj.1 hst), huv⟩
  case composite.composite => exact absurd rfl ha
  all_goals exact absurd h.1 (by decide)

mutual

theorem hashInput_append_inj : ∀ {a b : Key} {u v : List UInt64}, a.Addressable → b.Addressable →
    a.hashInput ++ u = b.hashInput ++ v → a = b ∧ u = v
  | .composite as, .composite bs, u, v, ha, hb, h => by
    simp only [Addressable] at ha hb
    simp only [hashInput, List.cons_append, List.cons.injEq, true_and] at h
    obtain ⟨hparts, huv⟩ := hashInputParts_append_inj ha.2 hb.2 (toUInt64_inj ha.1 hb.1 h.1) h.2
    exact ⟨by rw [hparts], huv⟩
  | .bool _, _, _, _, _, _, h | .int _, _, _, _, _, _, h | .float _, _, _, _, _, _, h
  | .text _, _, _, _, _, _, h => scalar_append_inj (by simp [keyClass]) h
  | .composite _, .bool _, _, _, _, _, h | .composite _, .int _, _, _, _, _, h
  | .composite _, .float _, _, _, _, _, h | .composite _, .text _, _, _, _, _, h => by
    simp [hashInput] at h

theorem hashInputParts_append_inj : ∀ {as bs : List Key} {u v : List UInt64}, AddressableParts as →
    AddressableParts bs → as.length = bs.length →
    hashInputParts as ++ u = hashInputParts bs ++ v → as = bs ∧ u = v
  | [], [], _, _, _, _, _, h => ⟨rfl, h⟩
  | [], _ :: _, _, _, _, _, hlen, _ => by simp at hlen
  | _ :: _, [], _, _, _, _, hlen, _ => by simp at hlen
  | a :: as, b :: bs, u, v, ha, hb, hlen, h => by
    simp only [AddressableParts] at ha hb
    simp only [hashInputParts, List.append_assoc] at h
    obtain ⟨hab, hrest⟩ := hashInput_append_inj ha.1 hb.1 h
    obtain ⟨hparts, huv⟩ := hashInputParts_append_inj ha.2 hb.2 (by simpa using hlen) hrest
    exact ⟨by rw [hab, hparts], huv⟩

end

/-- Keys that feed the same data are the same key. -/
theorem eq_of_hashInput {a b : Key} (ha : a.Addressable) (hb : b.Addressable)
    (h : a.hashInput = b.hashInput) : a = b :=
  (hashInput_append_inj (u := []) (v := []) ha hb (by simp [h])).1

/-! ## The laws together -/

theorem order_trans {a b c : Key} {o : Ordering} (hab : order a b = o) (hbc : order b c = o) :
    order a c = o := by
  cases o with
  | lt => exact order_lt_trans hab hbc
  | eq => rw [eq_of_order hab, hbc]
  | gt =>
    rw [order_swap, Ordering.swap_eq_gt] at hab hbc ⊢
    exact order_lt_trans hbc hab

/-- **The order of keys is lawful, and agrees with identity and with hashing.** It is reflexive,
antisymmetric and transitive on all keys, floats with any bits among them; classes come before contents;
keys compare equal exactly if they are identical, and then, and only then, feed a hash function the same
data. -/
theorem order_lawful (a b c : Key) :
    order a a = .eq ∧ order b a = (order a b).swap ∧
      (∀ o, order a b = o → order b c = o → order a c = o) ∧
      (a.keyClass.rank < b.keyClass.rank → order a b = .lt) ∧
      (order a b = .eq ↔ a = b) ∧
      (order a b = .eq → a.hashInput = b.hashInput) ∧
      (a.Addressable → b.Addressable → a.hashInput = b.hashInput → order a b = .eq) := by
  refine ⟨order_self a, order_swap b a, fun o => order_trans, order_of_rank_lt, compare_eq_iff, ?_, ?_⟩
  · intro h
    rw [eq_of_order h]
  · intro ha hb h
    rw [eq_of_hashInput ha hb h]
    exact order_self b

end IndexedStore.Key
