/-
# Logical keys to Aerospike primary keys

`keys.py`, and the fact that makes logical keys independent of each other: the user
keys `s|m` and `s|s|i` determine `s`, which of the two forms they have, and `i`,
whatever characters the logical key itself contains.
-/
import LmcacheAerospike.FieldText
import LmcacheAerospike.Records

/-- The key of the meta record; `ck` is `ck.to_string()`. -/
def meta_key (ns set_name ck : Text) : Key :=
  ⟨ns, set_name, ck ++ ['|', 'm']⟩

/-- The key of segment `index`. -/
def segment_key (ns set_name ck : Text) (index : ℕ) : Key :=
  ⟨ns, set_name, ck ++ ['|', 's', '|'] ++ Nat.toDigits 10 index⟩

/-- All segment keys of `nseg` segments. -/
def segment_keys (ns set_name ck : Text) (nseg : ℕ) : List Key :=
  (List.range nseg).map (segment_key ns set_name ck)

/-! ## Keys can be read back -/

/-- The user key of a meta record determines the logical key. -/
theorem meta_user_key_inj {ns ns' set_name set_name' s t : Text}
    (h : (meta_key ns set_name s).user_key = (meta_key ns' set_name' t).user_key) : s = t :=
  List.append_cancel_right h

/-- The user key of a segment determines the logical key and the index. -/
theorem segment_user_key_inj {ns ns' set_name set_name' s t : Text} {i j : ℕ}
    (h : (segment_key ns set_name s i).user_key = (segment_key ns' set_name' t j).user_key) :
    s = t ∧ i = j := by
  -- the index is what follows the last bar
  have hsplit : (s ++ ['|', 's']) ++ '|' :: Nat.toDigits 10 i
      = (t ++ ['|', 's']) ++ '|' :: Nat.toDigits 10 j := by
    simpa [segment_key] using h
  obtain ⟨hs, hd⟩ := append_sep_inj_right (notMem_toDigits_ten (by decide) i)
    (notMem_toDigits_ten (by decide) j) hsplit
  exact ⟨List.append_cancel_right hs, toDigits_ten_injective hd⟩

/-- No user key is that of a meta record and that of a segment. -/
theorem meta_user_key_ne (ns ns' set_name set_name' s t : Text) (i : ℕ) :
    (meta_key ns set_name s).user_key ≠ (segment_key ns' set_name' t i).user_key := by
  intro h
  -- what follows the last bar is `m` in one and digits in the other
  have hsplit : s ++ '|' :: ['m'] = (t ++ ['|', 's']) ++ '|' :: Nat.toDigits 10 i := by
    simpa [meta_key, segment_key] using h
  obtain ⟨-, hm⟩ := append_sep_inj_right (by decide)
    (notMem_toDigits_ten (by decide) i) hsplit
  exact notMem_toDigits_ten (c := 'm') (by decide) i (hm ▸ List.mem_cons_self)

/-- The meta key determines the logical key. -/
theorem meta_key_inj {ns ns' set_name set_name' s t : Text}
    (h : meta_key ns set_name s = meta_key ns' set_name' t) : s = t :=
  meta_user_key_inj (congrArg Key.user_key h)

/-- A segment key determines the logical key and the index. -/
theorem segment_key_inj {ns ns' set_name set_name' s t : Text} {i j : ℕ}
    (h : segment_key ns set_name s i = segment_key ns' set_name' t j) :
    s = t ∧ i = j :=
  segment_user_key_inj (congrArg Key.user_key h)

/-- No key is a meta key and a segment key. -/
theorem meta_key_ne_segment_key (ns ns' set_name set_name' s t : Text) (i : ℕ) :
    meta_key ns set_name s ≠ segment_key ns' set_name' t i := fun h =>
  meta_user_key_ne _ _ _ _ _ _ _ (congrArg Key.user_key h)

/-- Logical keys with different meta keys share no segment key. -/
theorem segment_key_ne {ns ns' set_name set_name' s t : Text}
    (h : meta_key ns set_name s ≠ meta_key ns' set_name' t) (i j : ℕ) :
    segment_key ns set_name s i ≠ segment_key ns' set_name' t j := by
  intro heq
  apply h
  have hns : ns = ns' := congrArg Key.ns heq
  have hset : set_name = set_name' := congrArg Key.set_name heq
  rw [hns, hset, (segment_key_inj heq).1]

/-- The keys of one logical key, in every namespace and set. -/
def KeyOf (s : Text) (k : Key) : Prop :=
  ∃ ns set_name, k = meta_key ns set_name s ∨ ∃ i, k = segment_key ns set_name s i

theorem keyOf_meta_key (ns set_name s : Text) : KeyOf s (meta_key ns set_name s) :=
  ⟨ns, set_name, Or.inl rfl⟩

theorem keyOf_segment_key (ns set_name s : Text) (i : ℕ) :
    KeyOf s (segment_key ns set_name s i) :=
  ⟨ns, set_name, Or.inr ⟨i, rfl⟩⟩

/-- **No user key belongs to two logical keys.** -/
theorem user_key_unique {s t : Text} {k k' : Key} (hs : KeyOf s k) (ht : KeyOf t k')
    (h : k.user_key = k'.user_key) : s = t := by
  obtain ⟨ns, set_name, rfl | ⟨i, rfl⟩⟩ := hs <;>
    obtain ⟨ns', set_name', rfl | ⟨j, rfl⟩⟩ := ht
  · exact meta_user_key_inj h
  · exact (meta_user_key_ne _ _ _ _ _ _ _ h).elim
  · exact (meta_user_key_ne _ _ _ _ _ _ _ h.symm).elim
  · exact (segment_user_key_inj h).1

/-- No key belongs to two logical keys. -/
theorem keyOf_unique {s t : Text} {k : Key} (hs : KeyOf s k) (ht : KeyOf t k) : s = t :=
  user_key_unique hs ht rfl
