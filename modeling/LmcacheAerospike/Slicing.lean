/-
# Cutting a list into pieces of one size

`slice s i l` is what `l[i * s : (i + 1) * s]` denotes in a language whose slices
stop at the end of the sequence.  The first `n` slices of size `s` spell the first
`n * s` elements, so any `n` slices that reach the end spell the list.
-/
import Mathlib.Data.List.Basic
import Mathlib.Tactic.Common
import Mathlib.Data.Nat.Notation

variable {α : Type}

/-- The `i`-th piece of `l` when `l` is cut into pieces of size `s`. -/
def slice (s i : ℕ) (l : List α) : List α := (l.drop (i * s)).take s

theorem length_slice (s i : ℕ) (l : List α) :
    (slice s i l).length = min s (l.length - i * s) := by
  rw [slice, List.length_take, List.length_drop]

/-- A slice that ends inside the list has the full size. -/
theorem length_slice_of_le (s i : ℕ) (l : List α) (h : (i + 1) * s ≤ l.length) :
    (slice s i l).length = s := by
  rw [length_slice, Nat.min_eq_left]
  rw [Nat.add_mul, Nat.one_mul] at h
  omega

/-- A slice of positive size that starts inside the list has an element. -/
theorem slice_ne_nil (s i : ℕ) (l : List α) (hs : 0 < s) (h : i * s < l.length) :
    slice s i l ≠ [] := by
  rw [← List.length_pos_iff, length_slice]
  omega

/-- **The first `n` slices spell the first `n * s` elements.** -/
theorem flatMap_slice (s n : ℕ) (l : List α) :
    (List.range n).flatMap (fun i => slice s i l) = l.take (n * s) := by
  induction n with
  | zero => simp
  | succ n ih =>
    rw [List.range_succ, List.flatMap_append, ih, List.flatMap_singleton, slice,
      Nat.add_mul, Nat.one_mul, ← List.take_add]

/-- Slices that reach the end of the list spell it. -/
theorem flatMap_slice_of_le (s n : ℕ) (l : List α) (h : l.length ≤ n * s) :
    (List.range n).flatMap (fun i => slice s i l) = l := by
  rw [flatMap_slice, List.take_of_length_le h]

/-- A slice of a list whose elements are changed by a function of their slice. -/
theorem slice_mapIdx {β : Type} {s : ℕ} (hs : 0 < s) (j : ℕ) (f : ℕ → α → β) (l : List α) :
    slice s j (l.mapIdx fun i a => f (i / s) a) = (slice s j l).map (f j) := by
  apply List.ext_getElem?
  intro k
  rw [slice, slice, List.getElem?_take, List.getElem?_map, List.getElem?_take]
  by_cases hk : k < s
  · have hdiv : (j * s + k) / s = j := by
      rw [Nat.mul_comm, Nat.mul_add_div hs, Nat.div_eq_of_lt hk, Nat.add_zero]
    rw [if_pos hk, if_pos hk, List.getElem?_drop, List.getElem?_drop, List.getElem?_mapIdx, hdiv]
  · rw [if_neg hk, if_neg hk]
    rfl

/-- **Slices of two sizes**: the first `s` of size `b`, the others of size `a`, spell the
first `s * b` elements and then those past the first `s * a`. -/
theorem flatMap_slice_mixed (a b s n : ℕ) (l : List α) (hs : s ≤ n) (h : l.length ≤ n * a) :
    (List.range n).flatMap (fun i => if i < s then slice b i l else slice a i l)
      = l.take (s * b) ++ l.drop (s * a) := by
  obtain ⟨d, rfl⟩ := Nat.exists_eq_add_of_le hs
  have hfront : (List.range s).flatMap (fun i => if i < s then slice b i l else slice a i l)
      = l.take (s * b) := by
    rw [← flatMap_slice]
    apply List.flatMap_congr
    intro i hi
    rw [if_pos (List.mem_range.mp hi)]
  have hback : ((List.range d).map (s + ·)).flatMap
      (fun i => if i < s then slice b i l else slice a i l) = l.drop (s * a) := by
    rw [List.flatMap_map]
    have hshift : ∀ i, (if s + i < s then slice b (s + i) l else slice a (s + i) l)
        = slice a i (l.drop (s * a)) := by
      intro i
      rw [if_neg (by omega), slice, slice, List.drop_drop, Nat.add_mul]
    simp only [hshift]
    refine flatMap_slice_of_le a d _ ?_
    rw [List.length_drop]
    rw [Nat.add_mul] at h
    omega
  rw [List.range_add, List.flatMap_append, hfront, hback]
