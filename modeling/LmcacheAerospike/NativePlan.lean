/-
# The arithmetic of the native planner

`plan` of `connector.cpp` computes in `size_t`, narrows the number of segments to `uint32_t`
before it divides by it, and the writers narrow the byte counts that they pass on.  Nothing
wraps in 64 bits for payloads below `2^63`; the two narrowings are exact, or do no harm, on
the payloads of `NativeShardable` and on no others (`native_sharding_exact_iff`).
-/
import LmcacheAerospike.SharedFormat

/-! ## What is computed -/

section Computed

variable (l : NativeLimits) (shard : ShardPlan) (len i : ℕ)

/-- `plan` keeps the payload in one record. -/
def NativeLimits.Single : Prop :=
  len ≤ l.single_record_threshold_bytes ∧ len ≤ l.max_record_bytes

/-- The number of segments in `plan`, which it divides by. -/
def NativeLimits.divisor : ℕ :=
  to_uint32 (size_sub ((len + l.target_segment_bytes) % 2 ^ 64) 1 / l.target_segment_bytes)

/-- `start` in the loop of `do_single_set`. -/
def set_start : ℕ := i * shard.seg_b % 2 ^ 64

/-- `chunk_len` in the loop of `do_single_set`. -/
def set_chunk_len : ℕ := min shard.seg_b (size_sub len (set_start shard i))

/-- The byte counts that a `do_single_set` passes to `as_record_set_raw`. -/
def raw_lengths : List ℕ :=
  if shard.nseg = 1 then [len] else (List.range shard.nseg).map (set_chunk_len shard len)

end Computed

/-- The loop of `do_single_set` and the writers compute exactly: no start wraps and none is past
the end, the chunks are not empty and spell the payload, and each byte count fits
`uint32_t`. -/
structure SetExact (shard : ShardPlan) (buf : Bytes) : Prop where
  start_exact : shard.nseg ≠ 1 → ∀ i < shard.nseg, set_start shard i = i * shard.seg_b
  start_le : shard.nseg ≠ 1 → ∀ i < shard.nseg, set_start shard i ≤ buf.length
  chunk_pos : shard.nseg ≠ 1 → ∀ i < shard.nseg, 0 < set_chunk_len shard buf.length i
  chunks : shard.nseg ≠ 1 → ((List.range shard.nseg).map fun i =>
    (buf.drop (set_start shard i)).take (set_chunk_len shard buf.length i)).flatten = buf
  raw_fits : ∀ n ∈ raw_lengths shard buf.length, to_uint32 n = n

/-- A plan that is returned, and the write that follows it. -/
structure PlanExact (l : NativeLimits) (len : ℕ) (shard : ShardPlan) : Prop where
  nseg_pos : 1 ≤ shard.nseg
  seg_b_le : shard.seg_b ≤ l.max_record_bytes
  of_empty : len = 0 → shard = ⟨1, 0⟩
  starts_inside : len ≠ 0 → (shard.nseg - 1) * shard.seg_b < len
  reaches_end : len ≤ shard.nseg * shard.seg_b
  set_exact : ∀ buf : Bytes, buf.length = len → SetExact shard buf

/-- Native sharding is exact for payloads of `len` bytes: `plan` does not divide by zero, and
what it returns, if it does not throw, is exact. -/
structure ShardingExact (l : NativeLimits) (len : ℕ) : Prop where
  divisor_ne_zero : ¬ l.Single len → l.divisor len ≠ 0
  plan_exact : ∀ shard, l.plan len = .ok shard → PlanExact l len shard

/-! ## When it is exact -/

/-- A truncated number of segments does no harm: the plan is refused for its long segments, or
it cuts the payload evenly all the same. -/
def TruncationHarmless (max_bytes len n : ℕ) : Prop :=
  n ≠ 0 ∧ (max_bytes < len ⌈/⌉ n ∨
    n ≠ 1 ∧ len ⌈/⌉ n < 2 ^ 32 ∧ (n ∣ len ∨ n ≤ len / n + len % n))

/-- One record shorter than `2^32` bytes, fewer than `2^32` segments shorter than `2^32` bytes,
or a truncation that does no harm. -/
def NativeShardable (target_bytes max_bytes len : ℕ) : Prop :=
  (len ≤ target_bytes ∧ len < 2 ^ 32) ∨
    (target_bytes < len ∧ len ⌈/⌉ target_bytes < 2 ^ 32 ∧
      len ⌈/⌉ (len ⌈/⌉ target_bytes) < 2 ^ 32) ∨
    (target_bytes < len ∧ 2 ^ 32 ≤ len ⌈/⌉ target_bytes ∧
      TruncationHarmless max_bytes len (len ⌈/⌉ target_bytes % 2 ^ 32))

/-- The target that the constructor sets. -/
def native_target (target_segment_bytes max_record_bytes : ℕ) : ℕ :=
  if target_segment_bytes = 0 then max_record_bytes - kSafetyMarginBytes
  else min target_segment_bytes (max_record_bytes - kSafetyMarginBytes)

theorem ceilDiv_of_dvd {n len : ℕ} (hn : 0 < n) (h : len % n = 0) : len ⌈/⌉ n = len / n := by
  have hdivision := Nat.div_add_mod len n
  rw [Nat.ceilDiv_eq_add_pred_div]
  refine Nat.div_eq_of_lt_le ?_ ?_
  · rw [Nat.mul_comm]
    omega
  · rw [Nat.add_mul, Nat.one_mul, Nat.mul_comm]
    omega

theorem ceilDiv_of_not_dvd {n len : ℕ} (hn : 0 < n) (h : len % n ≠ 0) :
    len ⌈/⌉ n = len / n + 1 := by
  have hdivision := Nat.div_add_mod len n
  have hmod := Nat.mod_lt len hn
  rw [Nat.ceilDiv_eq_add_pred_div]
  refine Nat.div_eq_of_lt_le ?_ ?_
  · rw [Nat.add_mul, Nat.one_mul, Nat.mul_comm]
    omega
  · rw [Nat.add_mul, Nat.add_mul, Nat.one_mul, Nat.mul_comm]
    omega

/-- Where the last of `n` even pieces starts. -/
theorem last_start_lt_iff {n len : ℕ} (hn : 0 < n) (hlen : 0 < len) :
    (n - 1) * (len ⌈/⌉ n) < len ↔ n ∣ len ∨ n ≤ len / n + len % n := by
  have hdivision := Nat.div_add_mod len n
  rw [Nat.dvd_iff_mod_eq_zero]
  by_cases hzero : len % n = 0
  · rw [ceilDiv_of_dvd hn hzero]
    rw [hzero, Nat.add_zero] at hdivision
    have hlt : (n - 1) * (len / n) < n * (len / n) := by
      refine Nat.mul_lt_mul_of_pos_right (by omega) (Nat.pos_of_ne_zero fun hq => ?_)
      rw [hq, Nat.mul_zero] at hdivision
      omega
    rw [hdivision] at hlt
    exact ⟨fun _ => .inl hzero, fun _ => hlt⟩
  · rw [ceilDiv_of_not_dvd hn hzero]
    generalize len / n = q at *
    obtain ⟨m, rfl⟩ : ∃ m, n = m + 1 := ⟨n - 1, by omega⟩
    rw [Nat.add_sub_cancel, Nat.mul_add, Nat.mul_one]
    rw [Nat.add_mul, Nat.one_mul] at hdivision
    omega

section Writing

variable {shard : ShardPlan} {buf : Bytes}

/-- A cut of several pieces is written exactly if its pieces are shorter than `2^32`. -/
theorem set_exact_iff_of_covers (hcov : shard.Covers buf.length) (hn : shard.nseg ≠ 1)
    (hlen : buf.length < 2 ^ 63) : SetExact shard buf ↔ shard.seg_b < 2 ^ 32 := by
  have hpos : 1 ≤ buf.length := by
    have hstart := hcov.starts_inside hn
    omega
  have hseg := hcov.seg_b_le_length
  have hsegpos := hcov.seg_b_pos hpos
  have hstart : ∀ i < shard.nseg, set_start shard i = i * shard.seg_b := fun i hi => by
    have hlt := hcov.start_lt hn hi
    exact Nat.mod_eq_of_lt (by omega)
  have hchunk : ∀ i < shard.nseg,
      set_chunk_len shard buf.length i = min shard.seg_b (buf.length - i * shard.seg_b) := by
    intro i hi
    have hlt := hcov.start_lt hn hi
    rw [set_chunk_len, hstart i hi, size_sub_of_le (le_of_lt hlt) (by omega)]
  have hraw : raw_lengths shard buf.length
      = (List.range shard.nseg).map (set_chunk_len shard buf.length) := if_neg hn
  have hnseg := hcov.nseg_pos
  constructor
  · intro h
    -- the first chunk is a whole segment
    have hfits := h.raw_fits (set_chunk_len shard buf.length 0) (by
      rw [hraw]
      exact List.mem_map_of_mem (List.mem_range.mpr hnseg))
    rw [hchunk 0 hnseg, to_uint32] at hfits
    omega
  · intro hshort
    refine ⟨fun _ => hstart, fun _ i hi => ?_, fun _ i hi => ?_, fun _ => ?_, fun n hmem => ?_⟩
    · rw [hstart i hi]
      exact le_of_lt (hcov.start_lt hn hi)
    · have hlt := hcov.start_lt hn hi
      rw [hchunk i hi]
      omega
    · have hpieces := hcov.flatten_pieces
      rw [ShardPlan.pieces] at hpieces
      refine Eq.trans (congrArg List.flatten (List.map_congr_left fun i hi => ?_)) hpieces
      rw [List.mem_range] at hi
      rw [hstart i hi, hchunk i hi, slice, ← List.length_drop, List.take_eq_take_iff]
      omega
    · rw [hraw] at hmem
      obtain ⟨i, hi, rfl⟩ := List.mem_map.mp hmem
      rw [hchunk i (List.mem_range.mp hi), to_uint32]
      omega

theorem set_exact_single_iff (hn : shard.nseg = 1) :
    SetExact shard buf ↔ buf.length < 2 ^ 32 := by
  have hraw : raw_lengths shard buf.length = [buf.length] := if_pos hn
  constructor
  · intro h
    have hfits := h.raw_fits buf.length (by rw [hraw]; exact List.mem_singleton_self _)
    rw [to_uint32] at hfits
    omega
  · intro hlt
    refine ⟨fun h => absurd hn h, fun h => absurd hn h, fun h => absurd hn h,
      fun h => absurd hn h, fun n hmem => ?_⟩
    rw [hraw, List.mem_singleton] at hmem
    rw [hmem, to_uint32, Nat.mod_eq_of_lt hlt]

/-- Where the arithmetic is exact, the segment records hold the slices of the payload. -/
theorem SetExact.segment_write_ops (h : SetExact shard buf) (hn : shard.nseg ≠ 1)
    (hlen : buf.length < 2 ^ 64) {i : ℕ} (hi : i < shard.nseg) (conn : NativeConnector)
    (ck : Text) : (conn.native_segment_write ck shard buf i).ops
      = [(.b, .blob (slice shard.seg_b i buf))] := by
  have hstart := h.start_exact hn i hi
  have hle := h.start_le hn i hi
  have hfits := h.raw_fits (set_chunk_len shard buf.length i) (by
    rw [raw_lengths, if_neg hn]
    exact List.mem_map_of_mem (List.mem_range.mpr hi))
  have hchunk : set_chunk_len shard buf.length i
      = min shard.seg_b (buf.length - i * shard.seg_b) := by
    rw [set_chunk_len, size_sub_of_le hle hlen, hstart]
  have hops : (conn.native_segment_write ck shard buf i).ops
      = [(.b, .blob ((buf.drop (set_start shard i)).take
          (to_uint32 (set_chunk_len shard buf.length i))))] := rfl
  have hslice : (buf.drop (i * shard.seg_b)).take
      (min shard.seg_b (buf.length - i * shard.seg_b)) = slice shard.seg_b i buf := by
    rw [slice, ← List.length_drop, List.take_eq_take_iff]
    omega
  rw [hops, hfits, hchunk, hstart, hslice]

/-- And a single record holds all of it. -/
theorem SetExact.meta_write_payload (h : SetExact shard buf) (hn : shard.nseg = 1)
    (conn : NativeConnector) (user_key : Text) (now : ℕ) :
    (.b, .blob buf)
      ∈ (conn.native_meta_write user_key shard buf.length (some buf) now).ops := by
  have hfits := h.raw_fits buf.length (by
    rw [raw_lengths, if_pos hn]
    exact List.mem_singleton_self _)
  rw [NativeConnector.native_meta_write]
  dsimp only
  rw [hfits, List.take_length]
  exact List.mem_append_right _ (List.mem_singleton_self _)

end Writing

section Planning

variable {l : NativeLimits} {len : ℕ}

theorem single_iff_le_target : l.Single len ↔ len ≤ l.target_segment_bytes := by
  have hle := l.target_le
  rw [NativeLimits.Single, l.threshold_eq]
  omega

theorem plan_of_short (hshort : len ≤ l.target_segment_bytes) : l.plan len = .ok ⟨1, len⟩ :=
  if_pos (single_iff_le_target.mpr hshort)

variable (hlong : l.target_segment_bytes < len) (hlen : len < 2 ^ 63)

include hlong hlen in
/-- In 64 bits nothing wraps. -/
theorem divisor_eq : l.divisor len = len ⌈/⌉ l.target_segment_bytes % 2 ^ 32 := by
  rw [NativeLimits.divisor, size_ceilDiv l.target_pos (by omega), to_uint32]

include hlong hlen in
theorem plan_of_long (hdivisor : l.divisor len ≠ 0) :
    l.plan len = if len ⌈/⌉ l.divisor len > l.max_record_bytes
      then .error ⟨"payload cannot be sharded within record cap"⟩
      else .ok ⟨l.divisor len, len ⌈/⌉ l.divisor len⟩ := by
  have hlt : l.divisor len < 2 ^ 32 := Nat.mod_lt _ (by decide)
  have hceil : size_sub ((len + l.divisor len) % 2 ^ 64) 1 / l.divisor len
      = len ⌈/⌉ l.divisor len := size_ceilDiv (Nat.pos_of_ne_zero hdivisor) (by omega)
  have hnotSingle : ¬ l.Single len := by
    rw [single_iff_le_target]
    omega
  rw [← hceil]
  exact if_neg hnotSingle

/-- More than one segment fits no narrowed count of one. -/
theorem two_le_ceilDiv {t : ℕ} (ht : 0 < t) (h : t < len) : 2 ≤ len ⌈/⌉ t := by
  by_contra hone
  have hle : len ⌈/⌉ t ≤ 1 := by omega
  rw [ceilDiv_le_iff_le_mul ht, Nat.mul_one] at hle
  omega

theorem sharding_exact_of_short (hshort : len ≤ l.target_segment_bytes) :
    ShardingExact l len ↔ len < 2 ^ 32 := by
  have hplan := plan_of_short hshort
  constructor
  · intro h
    have hset := (h.plan_exact _ hplan).set_exact (List.replicate len 0) List.length_replicate
    rwa [set_exact_single_iff rfl, List.length_replicate] at hset
  · intro hlt
    refine ⟨fun h => absurd (single_iff_le_target.mpr hshort) h, fun shard h => ?_⟩
    cases hplan.symm.trans h
    have hle := l.target_le
    exact {
      nseg_pos := le_refl 1
      seg_b_le := hshort.trans hle
      of_empty := fun h => by rw [h]
      starts_inside := fun h => by
        dsimp only
        omega
      reaches_end := le_of_eq (Nat.one_mul len).symm
      set_exact := fun buf hbuf => (set_exact_single_iff rfl).mpr (hbuf ▸ hlt) }

include hlong hlen in
theorem sharding_exact_of_long : ShardingExact l len ↔
    TruncationHarmless l.max_record_bytes len (len ⌈/⌉ l.target_segment_bytes % 2 ^ 32) := by
  have hnotSingle : ¬ l.Single len := by
    rw [single_iff_le_target]
    omega
  rw [← divisor_eq hlong hlen, TruncationHarmless]
  constructor
  · intro h
    have hdivisor := h.divisor_ne_zero hnotSingle
    refine ⟨hdivisor, ?_⟩
    by_cases hrefused : l.max_record_bytes < len ⌈/⌉ l.divisor len
    · exact .inl hrefused
    · have hplan := plan_of_long hlong hlen hdivisor
      rw [if_neg hrefused] at hplan
      have hexact := h.plan_exact _ hplan
      have hset := hexact.set_exact (List.replicate len 0) List.length_replicate
      have hstarts := hexact.starts_inside (by omega)
      have hone : l.divisor len ≠ 1 := by
        intro hone
        rw [set_exact_single_iff hone, List.length_replicate] at hset
        -- a count of one is a truncated one, so the payload is longer than that
        have htwo := two_le_ceilDiv l.target_pos hlong
        have hself := ceilDiv_le_self len l.target_pos
        rw [divisor_eq hlong hlen] at hone
        omega
      have hcovers : (⟨l.divisor len, len ⌈/⌉ l.divisor len⟩ : ShardPlan).Covers
          (List.replicate len (0 : UInt8)).length := by
        rw [List.length_replicate]
        exact ⟨hexact.nseg_pos, rfl, fun _ => hstarts⟩
      have hlast := (last_start_lt_iff (Nat.pos_of_ne_zero hdivisor) (by omega)).mp hstarts
      refine .inr ⟨hone, ?_, hlast⟩
      exact (set_exact_iff_of_covers hcovers hone (by rwa [List.length_replicate])).mp hset
  · rintro ⟨hdivisor, hharmless⟩
    refine ⟨fun _ => hdivisor, fun shard hshard => ?_⟩
    rw [plan_of_long hlong hlen hdivisor] at hshard
    split_ifs at hshard with hrefused
    cases hshard
    obtain ⟨hone, hshort, hstarts⟩ := hharmless.resolve_left hrefused
    rw [← last_start_lt_iff (Nat.pos_of_ne_zero hdivisor) (by omega)] at hstarts
    have hcovers : (⟨l.divisor len, len ⌈/⌉ l.divisor len⟩ : ShardPlan).Covers len :=
      ⟨Nat.pos_of_ne_zero hdivisor, rfl, fun _ => hstarts⟩
    exact {
      nseg_pos := hcovers.nseg_pos
      seg_b_le := Nat.le_of_not_lt hrefused
      of_empty := fun h => by omega
      starts_inside := fun _ => hstarts
      reaches_end := hcovers.reaches_end
      set_exact := fun buf hbuf => by
        subst hbuf
        exact (set_exact_iff_of_covers hcovers hone hlen).mpr hshort }

include hlong in
/-- A count that is not truncated cuts evenly, and its segments are short enough. -/
theorem untruncated_harmless_iff (hcount : len ⌈/⌉ l.target_segment_bytes < 2 ^ 32) :
    TruncationHarmless l.max_record_bytes len (len ⌈/⌉ l.target_segment_bytes % 2 ^ 32) ↔
      len ⌈/⌉ (len ⌈/⌉ l.target_segment_bytes) < 2 ^ 32 := by
  obtain ⟨hpos, hseg, hstarts⟩ := even_cut len l.target_segment_bytes (by omega) l.target_pos
  have htwo := two_le_ceilDiv l.target_pos hlong
  have hle := l.target_le
  rw [Nat.mod_eq_of_lt hcount, TruncationHarmless]
  constructor
  · rintro ⟨-, hrefused | ⟨-, hshort, -⟩⟩
    · omega
    · exact hshort
  · intro hshort
    exact ⟨by omega, .inr ⟨by omega, hshort, (last_start_lt_iff hpos (by omega)).mp hstarts⟩⟩

end Planning

theorem native_limits_eq {target_segment_bytes max_record_bytes : ℕ} {l : NativeLimits}
    (h : native_limits target_segment_bytes max_record_bytes = .ok l) :
    l.target_segment_bytes = native_target target_segment_bytes max_record_bytes ∧
      l.max_record_bytes = max_record_bytes - kSafetyMarginBytes := by
  unfold native_limits at h
  by_cases hsmall : max_record_bytes ≤ kSafetyMarginBytes
  · rw [dif_pos hsmall] at h
    cases h
  · rw [dif_neg hsmall] at h
    rw [← Except.ok.inj h]
    exact ⟨rfl, rfl⟩

theorem native_limits_ok (target_segment_bytes : ℕ) {max_record_bytes : ℕ}
    (h : kSafetyMarginBytes < max_record_bytes) :
    ∃ l, native_limits target_segment_bytes max_record_bytes = .ok l := by
  unfold native_limits
  rw [dif_neg (Nat.not_le.mpr h)]
  exact ⟨_, rfl⟩

/-- **When native sharding is exact.** -/
theorem native_sharding_exact_iff {target_segment_bytes max_record_bytes len : ℕ}
    {l : NativeLimits} (hl : native_limits target_segment_bytes max_record_bytes = .ok l)
    (hlen : len < 2 ^ 63) :
    ShardingExact l len ↔
      NativeShardable (native_target target_segment_bytes max_record_bytes)
        (max_record_bytes - kSafetyMarginBytes) len := by
  obtain ⟨htarget, hmax⟩ := native_limits_eq hl
  rw [← htarget, ← hmax, NativeShardable]
  rcases Nat.lt_or_ge l.target_segment_bytes len with hlong | hshort
  · rw [sharding_exact_of_long hlong hlen]
    rcases Nat.lt_or_ge (len ⌈/⌉ l.target_segment_bytes) (2 ^ 32) with hcount | htruncated
    · rw [untruncated_harmless_iff hlong hcount]
      constructor
      · exact fun h => .inr (.inl ⟨hlong, hcount, h⟩)
      · rintro (⟨h, -⟩ | ⟨-, -, h⟩ | ⟨-, h, -⟩)
        · omega
        · exact h
        · omega
    · constructor
      · exact fun h => .inr (.inr ⟨hlong, htruncated, h⟩)
      · rintro (⟨h, -⟩ | ⟨-, h, -⟩ | ⟨-, -, h⟩)
        · omega
        · omega
        · exact h
  · rw [sharding_exact_of_short hshort]
    constructor
    · exact fun h => .inl ⟨hshort, h⟩
    · rintro (⟨-, h⟩ | ⟨h, -⟩ | ⟨h, -⟩)
      · exact h
      · omega
      · omega

/-- A connector with the default target and a cap of 1 MiB, and a payload of three segments. -/
theorem native_sharding_exact_default :
    ∃ l, native_limits 0 (2 ^ 20) = .ok l ∧ ShardingExact l 2000000 := by
  obtain ⟨l, hl⟩ := native_limits_ok 0 (show kSafetyMarginBytes < 2 ^ 20 by decide)
  refine ⟨l, hl, (native_sharding_exact_iff hl (by norm_num)).mpr (.inr (.inl ?_))⟩
  have htarget : native_target 0 (2 ^ 20) = 983040 := rfl
  rw [htarget, Nat.ceilDiv_eq_add_pred_div, Nat.ceilDiv_eq_add_pred_div]
  norm_num

/-- With a target of one byte, the count of a payload of `2^32` bytes is narrowed to zero. -/
theorem native_sharding_divides_by_zero :
    ∃ l, native_limits 1 (2 ^ 20) = .ok l ∧ l.divisor (2 ^ 32) = 0 ∧
      ¬ ShardingExact l (2 ^ 32) := by
  obtain ⟨l, hl⟩ := native_limits_ok 1 (show kSafetyMarginBytes < 2 ^ 20 by decide)
  have htarget : l.target_segment_bytes = 1 := (native_limits_eq hl).1
  have hdivisor : l.divisor (2 ^ 32) = 0 := by
    rw [divisor_eq (by omega) (by norm_num), htarget, ceilDiv_one]
    norm_num
  refine ⟨l, hl, hdivisor, fun h => h.divisor_ne_zero ?_ hdivisor⟩
  rw [single_iff_le_target]
  omega
