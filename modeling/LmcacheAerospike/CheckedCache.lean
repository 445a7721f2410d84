/-
# A cache whose readers may check a digest

What a cache is for: under a key there is nothing, or a value, or only a mark.  Beside a value
stand the digest and the note that writers have recorded; a writer that records none leaves
that of an earlier one in place, and a reader that checks digests then does not accept the
value.
-/
import Mathlib.Data.Option.Basic
import Mathlib.Logic.Function.Basic
import Mathlib.Tactic.SplitIfs

/-- What stands under a key: a value or only a mark, and the digest and the note recorded last. -/
structure CacheEntry (V D N : Type) : Type where
  value : Option V
  digest : Option D
  note : Option N

/-- What a writer writes: a value, and what it records of it. -/
structure CacheWrite (V D N : Type) : Type where
  value : V
  digest : Option D := none
  note : Option N := none

/-- The entries of all keys. -/
abbrev CheckedCache (κ V D N : Type) : Type := κ → Option (CacheEntry V D N)

namespace CheckedCache

variable {κ V D N : Type} (c : CheckedCache κ V D N)

/-- Nothing under any key. -/
def empty : CheckedCache κ V D N := fun _ => none

/-- Something stands under the key. -/
def present (k : κ) : Bool := (c k).isSome

def value (k : κ) : Option V := (c k).bind CacheEntry.value

/-- The digest recorded under the key. -/
def recorded (k : κ) : Option D := (c k).bind CacheEntry.digest

/-- The note recorded under the key. -/
def noted (k : κ) : Option N := (c k).bind CacheEntry.note

/-- A reader that checks digests accepts bytes with the digest `d`: that one is recorded, or
none. -/
def accepts [DecidableEq D] (check : Bool) (k : κ) (d : D) : Bool :=
  !check || (c.recorded k).all (· = d)

section Changes

variable [DecidableEq κ]

/-- Write, and leave what was recorded where nothing is. -/
def store (k : κ) (write : CacheWrite V D N) : CheckedCache κ V D N :=
  Function.update c k
    (some ⟨some write.value, write.digest.or (c.recorded k), write.note.or (c.noted k)⟩)

/-- Several writes, one after the other. -/
def storeAll (writes : List (κ × CacheWrite V D N)) : CheckedCache κ V D N :=
  writes.foldl (fun c write => c.store write.1 write.2) c

/-- Mark the key: it keeps what stands there. -/
def mark (k : κ) : CheckedCache κ V D N :=
  if c.present k then c else Function.update c k (some ⟨none, none, none⟩)

/-- Take away what stands under the key. -/
def drop (k : κ) : CheckedCache κ V D N := Function.update c k none

end Changes

section Lemmas

variable {c} [DecidableEq κ] {k k' : κ} {write : CacheWrite V D N}

@[simp] theorem store_self : c.store k write k
    = some ⟨some write.value, write.digest.or (c.recorded k), write.note.or (c.noted k)⟩ :=
  Function.update_self ..

theorem store_of_ne (h : k' ≠ k) : c.store k write k' = c k' := Function.update_of_ne h ..

@[simp] theorem drop_self : c.drop k k = none := Function.update_self ..

theorem drop_of_ne (h : k' ≠ k) : c.drop k k' = c k' := Function.update_of_ne h ..

theorem mark_of_ne (h : k' ≠ k) : c.mark k k' = c k' := by
  unfold mark
  split_ifs
  · rfl
  · exact Function.update_of_ne h ..

/-- A mark on something changes nothing. -/
theorem mark_of_present (h : c.present k = true) : c.mark k = c := if_pos h

/-- A mark on nothing. -/
theorem mark_of_absent (h : c k = none) : c.mark k k = some ⟨none, none, none⟩ := by
  unfold mark present
  rw [h]
  exact Function.update_self ..

end Lemmas

end CheckedCache
