/-
# The adaptive segment planner

`plan` and `slice_lengths` of `sharding.py`, and the one fact every reader of a plan
needs (`plan_covers`): the planned slices are all non-empty and reach exactly to the
end of the payload.
-/
import Mathlib.Algebra.Order.Floor.Div
import Mathlib.Tactic.Ring
import Mathlib.Tactic.Linarith
import LmcacheAerospike.Errors
import LmcacheAerospike.Slicing

/-- The limits a planner works with, all positive when they come from
`resolve_segment_limits`: a non-positive byte count is rejected where the
configuration is parsed. -/
structure ResolvedLimits : Type where
  server_max_record_bytes : ℕ
  effective_max_segment_bytes : ℕ
  max_segment_bytes : ℕ
  target_segment_bytes : ℕ
  single_record_threshold_bytes : ℕ
  min_segment_bytes : ℕ
  deriving DecidableEq, Repr

/-- How a payload is laid out: in `nseg` records of `seg_b` bytes, the last one of
what is left. -/
structure ShardPlan : Type where
  nseg : ℕ
  seg_b : ℕ
  deriving DecidableEq, Repr

/-- Choose single-record or multi-segment layout.  `-(-a // b)` is `a ⌈/⌉ b`; with
`b = 0` it raises. -/
def plan (payload_bytes target_segment_bytes max_segment_bytes min_segment_bytes
    single_record_threshold_bytes : ℕ) : Except PyExc ShardPlan :=
  if payload_bytes = 0 then .ok ⟨1, 0⟩
  else if target_segment_bytes > max_segment_bytes then
    .error (.connector .config
      "target_segment_bytes exceeds max_segment_bytes after server clamping")
  else if payload_bytes ≤ single_record_threshold_bytes ∧
      payload_bytes ≤ max_segment_bytes then .ok ⟨1, payload_bytes⟩
  else if target_segment_bytes = 0 then .error (.builtin .ZeroDivisionError)
  else
    let nseg := payload_bytes ⌈/⌉ target_segment_bytes
    let seg_b := payload_bytes ⌈/⌉ nseg
    if seg_b > max_segment_bytes then
      .error (.connector .config
        s!"segment size {seg_b} exceeds max_segment_bytes {max_segment_bytes}")
    else if seg_b < min_segment_bytes ∧ payload_bytes ≤ max_segment_bytes then
      .ok ⟨1, payload_bytes⟩
    else .ok ⟨nseg, seg_b⟩

/-- `shard_plan` as `put` and `batched_put` call it. -/
def ResolvedLimits.shard_plan (r : ResolvedLimits) (payload_bytes : ℕ) :
    Except PyExc ShardPlan :=
  plan payload_bytes r.target_segment_bytes r.max_segment_bytes r.min_segment_bytes
    r.single_record_threshold_bytes

/-! ## What a plan promises -/

/-- The plan cuts a payload of `P` bytes evenly into slices that all start inside it. -/
structure ShardPlan.Covers (pl : ShardPlan) (P : ℕ) : Prop where
  nseg_pos : 1 ≤ pl.nseg
  even : pl.seg_b = P ⌈/⌉ pl.nseg
  starts_inside : pl.nseg ≠ 1 → (pl.nseg - 1) * pl.seg_b < P

theorem covers_single (P : ℕ) : (⟨1, P⟩ : ShardPlan).Covers P where
  nseg_pos := le_refl 1
  even := (ceilDiv_one P).symm
  starts_inside := fun h => absurd rfl h

/-- Cutting `P` bytes into as many pieces as fill `t` bytes each, and then evenly: no
piece is longer than `t` and each starts inside the payload. -/
theorem even_cut (P t : ℕ) (hP : 0 < P) (ht : 0 < t) :
    1 ≤ P ⌈/⌉ t ∧ P ⌈/⌉ (P ⌈/⌉ t) ≤ t ∧
      (P ⌈/⌉ t - 1) * (P ⌈/⌉ (P ⌈/⌉ t)) < P := by
  have hn : P ≤ t * (P ⌈/⌉ t) := le_smul_ceilDiv ht
  have hpos : 0 < P ⌈/⌉ t := by
    rcases Nat.eq_zero_or_pos (P ⌈/⌉ t) with h | h
    · rw [h] at hn
      omega
    · exact h
  have hle : P ⌈/⌉ (P ⌈/⌉ t) ≤ t := (ceilDiv_le_iff_le_mul hpos).mpr (by rwa [Nat.mul_comm])
  -- all but the last piece of size `t` fit strictly inside the payload
  have hlt : (P ⌈/⌉ t - 1) * t < P := by
    by_contra hge
    have h : P ⌈/⌉ t ≤ P ⌈/⌉ t - 1 :=
      (ceilDiv_le_iff_le_mul ht).mpr (by rw [Nat.mul_comm]; omega)
    omega
  exact ⟨hpos, hle, lt_of_le_of_lt (Nat.mul_le_mul_left _ hle) hlt⟩

/-- **Every plan covers its payload.** -/
theorem plan_covers (P t m lo th : ℕ) (pl : ShardPlan) (h : plan P t m lo th = .ok pl) :
    pl.Covers P := by
  unfold plan at h
  split_ifs at h with h0 htm hs ht0
  · cases h
    rw [h0]
    exact covers_single 0
  · cases h
    exact covers_single P
  · dsimp only at h
    obtain ⟨h1, -, h3⟩ := even_cut P t (Nat.pos_of_ne_zero h0) (Nat.pos_of_ne_zero ht0)
    split_ifs at h
    · cases h
      exact covers_single P
    · cases h
      exact ⟨h1, rfl, fun _ => h3⟩

/-- **When the planner refuses**: where a payload has any bytes and the target is above the
maximum.  Its second check never fires. -/
theorem plan_raises_iff {t : ℕ} (ht : 0 < t) (P m lo th : ℕ) :
    (∃ e, plan P t m lo th = .error e) ↔ 0 < P ∧ m < t := by
  unfold plan
  by_cases hP : P = 0
  · rw [if_pos hP]
    simp [hP]
  · rw [if_neg hP]
    by_cases htm : t > m
    · rw [if_pos htm]
      exact iff_of_true ⟨_, rfl⟩ ⟨Nat.pos_of_ne_zero hP, htm⟩
    · rw [if_neg htm]
      obtain ⟨-, hle, -⟩ := even_cut P t (Nat.pos_of_ne_zero hP) ht
      have hseg : ¬ P ⌈/⌉ (P ⌈/⌉ t) > m := by omega
      refine iff_of_false ?_ fun h => htm h.2
      rintro ⟨e, he⟩
      split_ifs at he
      · omega
      · dsimp only at he
        rw [if_neg hseg] at he
        split_ifs at he

/-- **How long the segments of a plan are.** -/
theorem plan_seg_b_le {P t m lo th : ℕ} {pl : ShardPlan} (h : plan P t m lo th = .ok pl) :
    pl.seg_b ≤ m ∧ (pl.nseg ≠ 1 → pl.seg_b ≤ min t m) := by
  unfold plan at h
  split_ifs at h with h0 htm hs ht0
  · cases h
    exact ⟨Nat.zero_le _, fun hn => absurd rfl hn⟩
  · cases h
    exact ⟨hs.2, fun hn => absurd rfl hn⟩
  · dsimp only at h
    obtain ⟨-, hle, -⟩ := even_cut P t (Nat.pos_of_ne_zero h0) (Nat.pos_of_ne_zero ht0)
    split_ifs at h with hseg hsmall
    · cases h
      exact ⟨hsmall.2, fun hn => absurd rfl hn⟩
    · cases h
      dsimp only
      exact ⟨by omega, fun _ => le_min hle (by omega)⟩

namespace ShardPlan

variable {pl pl' : ShardPlan} {P : ℕ}

/-- One slice is the whole payload. -/
theorem Covers.seg_b_of_single (h : pl.Covers P) (hn : pl.nseg = 1) : pl.seg_b = P := by
  rw [h.even, hn, ceilDiv_one]

/-- The slices reach the end of the payload. -/
theorem Covers.reaches_end (h : pl.Covers P) : P ≤ pl.nseg * pl.seg_b := by
  have hpos : 0 < pl.nseg := h.nseg_pos
  have hle : P ≤ pl.nseg • (P ⌈/⌉ pl.nseg) := le_smul_ceilDiv hpos
  rwa [← h.even] at hle

/-- Each slice starts inside the payload. -/
theorem Covers.start_lt {i : ℕ} (h : pl.Covers P) (hn : pl.nseg ≠ 1) (hi : i < pl.nseg) :
    i * pl.seg_b < P :=
  lt_of_le_of_lt (Nat.mul_le_mul_right _ (by omega)) (h.starts_inside hn)

/-- Every slice before the last ends inside the payload. -/
theorem Covers.end_lt {i : ℕ} (h : pl.Covers P) (hi : i + 1 < pl.nseg) :
    (i + 1) * pl.seg_b < P :=
  h.start_lt (by omega) hi

/-- The pieces that a plan cuts a payload into. -/
def pieces {α : Type} (pl : ShardPlan) (payload : List α) : List (List α) :=
  (List.range pl.nseg).map fun i => slice pl.seg_b i payload

theorem length_pieces {α : Type} (pl : ShardPlan) (payload : List α) :
    (pl.pieces payload).length = pl.nseg := by
  rw [pieces, List.length_map, List.length_range]

/-- The pieces of a plan spell the payload. -/
theorem Covers.flatten_pieces {α : Type} {payload : List α}
    (h : pl.Covers payload.length) : (pl.pieces payload).flatten = payload := by
  rw [pieces, ← List.flatMap_def]
  exact flatMap_slice_of_le _ _ _ h.reaches_end

/-- No piece of a payload that has any bytes is empty. -/
theorem Covers.piece_ne_nil {α : Type} {payload : List α} (h : pl.Covers payload.length)
    (hne : payload ≠ []) {piece : List α} (hpiece : piece ∈ pl.pieces payload) :
    piece ≠ [] := by
  have hpos : 0 < payload.length := List.length_pos_iff.mpr hne
  obtain ⟨i, hi, rfl⟩ := List.mem_map.mp hpiece
  rw [List.mem_range] at hi
  have hstart : i * pl.seg_b < payload.length := by
    by_cases hn : pl.nseg = 1
    · obtain rfl : i = 0 := by omega
      omega
    · exact h.start_lt hn hi
  have hseg : 0 < pl.seg_b := by
    by_contra hzero
    have hend := h.reaches_end
    rw [show pl.seg_b = 0 by omega] at hend
    omega
  exact slice_ne_nil _ _ _ hseg hstart

/-- Smaller slices are at least as many. -/
theorem Covers.nseg_le (h : pl.Covers P) (h' : pl'.Covers P) (hn : pl.nseg ≠ 1)
    (hle : pl'.seg_b ≤ pl.seg_b) : pl.nseg ≤ pl'.nseg := by
  by_contra hlt
  have h1 : pl'.nseg * pl'.seg_b ≤ (pl.nseg - 1) * pl.seg_b :=
    Nat.mul_le_mul (by omega) hle
  have h2 := h.starts_inside hn
  have h3 := h'.reaches_end
  omega

/-- Two different cuts into several pieces have pieces of different sizes. -/
theorem Covers.seg_b_ne (h : pl.Covers P) (h' : pl'.Covers P) (hn : pl.nseg ≠ 1)
    (hn' : pl'.nseg ≠ 1) (hne : pl ≠ pl') : pl.seg_b ≠ pl'.seg_b := by
  intro hseg
  have hle := h.nseg_le h' hn (le_of_eq hseg.symm)
  have hge := h'.nseg_le h hn' (le_of_eq hseg)
  have hnseg : pl.nseg = pl'.nseg := by omega
  apply hne
  cases pl
  cases pl'
  simp only at hseg hnseg
  rw [hseg, hnseg]

/-- **Pieces of two different cuts never add up**: replacing the first `s` pieces of one by
those of the other changes the number of bytes. -/
theorem Covers.mixed_length_ne (h : pl.Covers P) (h' : pl'.Covers P) (hn : pl.nseg ≠ 1)
    (hn' : pl'.nseg ≠ 1) (hne : pl ≠ pl') {s : ℕ} (hs : 0 < s) (hsn : s ≤ pl.nseg)
    (hsn' : s ≤ pl'.nseg) :
    min (s * pl'.seg_b) P + (P - s * pl.seg_b) ≠ P := by
  have hseg := h.seg_b_ne h' hn hn' hne
  have hnseg : pl.nseg ≠ pl'.nseg := by
    intro heq
    apply hseg
    rw [h.even, h'.even, heq]
  rcases Nat.lt_or_gt_of_ne hseg with hlt | hgt
  · -- the replacing pieces are larger, so there are fewer of them
    have hle := h'.nseg_le h hn' (le_of_lt hlt)
    have hin : s * pl.seg_b < P := by
      have hmul : s * pl.seg_b ≤ (pl.nseg - 1) * pl.seg_b := Nat.mul_le_mul_right _ (by omega)
      have hlast := h.starts_inside hn
      omega
    have hmore : s * pl.seg_b < s * pl'.seg_b := Nat.mul_lt_mul_of_pos_left hlt hs
    omega
  · -- the replacing pieces are smaller, so there are more of them
    have hle := h.nseg_le h' hn (le_of_lt hgt)
    have hin : s * pl'.seg_b < P := by
      have hmul : s * pl'.seg_b ≤ (pl'.nseg - 1) * pl'.seg_b :=
        Nat.mul_le_mul_right _ (by omega)
      have hlast := h'.starts_inside hn'
      omega
    have hless : s * pl'.seg_b < s * pl.seg_b := Nat.mul_lt_mul_of_pos_left hgt hs
    omega

end ShardPlan

/-- Per-segment byte lengths; the last segment takes what is left. -/
def slice_lengths (payload_bytes : ℕ) (shard : ShardPlan) : List ℕ :=
  if shard.nseg = 1 then [payload_bytes]
  else (List.range shard.nseg).map fun i =>
    if i = shard.nseg - 1 then payload_bytes - i * shard.seg_b else shard.seg_b

/-- **The slice lengths are those of the pieces**, the short last one included. -/
theorem ShardPlan.Covers.slice_lengths_eq {α : Type} {pl : ShardPlan} {payload : List α}
    (h : pl.Covers payload.length) :
    slice_lengths payload.length pl = (pl.pieces payload).map List.length := by
  rw [slice_lengths, ShardPlan.pieces, List.map_map]
  split_ifs with hn
  · rw [hn, List.range_one, List.map_singleton, Function.comp_apply, length_slice,
      h.seg_b_of_single hn]
    congr 1
    omega
  · apply List.map_congr_left
    intro i hi
    rw [List.mem_range] at hi
    rw [Function.comp_apply]
    split_ifs with hlast
    · -- the last piece starts inside the payload and ends at its end
      have hstart := h.start_lt hn hi
      have hend := h.reaches_end
      rw [show pl.nseg = i + 1 by omega, Nat.add_mul, Nat.one_mul] at hend
      rw [length_slice]
      omega
    · exact (length_slice_of_le _ _ _ (le_of_lt (h.end_lt (by omega)))).symm
