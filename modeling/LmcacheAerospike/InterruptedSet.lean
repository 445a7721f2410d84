/-
# A native write that stops before its meta write

A second writer that stops among its segment writes leaves the first segments of its cut under
the meta record of an older one.  The native reader compares the size of every segment with the
size that the meta record leads it to expect, and the first segment already tells two cuts of
the same payload apart: what it returns is the payload (`native_interrupted_set`).
-/
import LmcacheAerospike.SharedFormat

/-! ## Where a native write may stop -/

theorem faulty_write_cases {wr : Write} {w w' : World} {r : RecRes}
    (h : Faulty (.write wr) w r w') : w' = w ∨ w' = w.applyWrite wr := by
  rcases h with hp | ⟨-, rfl | rfl⟩
  · exact Or.inr (congrArg Prod.snd hp)
  · exact Or.inl rfl
  · exact Or.inr rfl

/-- A single write is applied or not, whatever it reports, and also while it has not reported. -/
theorem micros_put {wr : Write} {w w' : World} {s : client.Sess (.put wr)}
    (h : client.Micros (.put wr) (client.start (.put wr), w) (s, w')) :
    w' = w ∨ w' = w.applyWrite wr := by
  rcases micros_single rfl h with rfl | ⟨r, hd⟩
  · exact Or.inl rfl
  · exact faulty_write_cases hd

theorem micros_time {w w' : World} {s : client.Sess .time}
    (h : client.Micros .time (client.start .time, w) (s, w')) : w' = w := by
  rcases micros_single rfl h with rfl | ⟨r, hd⟩
  · rfl
  · rcases hd with hp | ⟨-, rfl | rfl⟩
    · exact congrArg Prod.snd hp
    · rfl
    · rfl

section Stops

variable {conn : NativeConnector} {ck : Text} {p : Bytes} {w w' : World} {calls : List Op}

theorem reaches_put_payload_record {user_key : Text} {buf : Bytes} {len : ℕ}
    (h : client.Reaches (conn.put_payload_record user_key buf len) calls w w') :
    w' = w ∨ w' = w.applyWrite (conn.payload_write user_key buf len) := by
  rcases Device.reaches_call h with ⟨-, rfl⟩ | ⟨-, s, hms⟩ | ⟨x, rest, w₁, -, ⟨s, hms, -⟩, hrest⟩
  · exact Or.inl rfl
  · exact micros_put hms
  · cases x with
    | ok u =>
      obtain ⟨-, rfl⟩ := Device.reaches_ret hrest
      exact micros_put hms
    | error err =>
      obtain ⟨-, rfl⟩ := Device.reaches_raise hrest
      exact micros_put hms

/-- Before its `put` the function that writes the meta record has changed nothing. -/
theorem reaches_put_meta_record {user_key : Text} {pl : ShardPlan} {total : ℕ}
    {inline_buf : Option Bytes}
    (h : client.Reaches (conn.put_meta_record user_key pl total inline_buf) calls w w')
    (hmeta : ∀ wr, Op.put wr ∈ calls → wr.key ≠ conn.as_key user_key) : w' = w := by
  rcases Device.reaches_call h with ⟨-, rfl⟩ | ⟨-, s, hms⟩ | ⟨now, rest, w₁, rfl, htime, hrest⟩
  · rfl
  · exact micros_time hms
  · obtain rfl := outcome_time htime
    have hput : ∀ rest' : List Op, rest ≠ Op.put
        (conn.native_meta_write user_key pl total inline_buf now) :: rest' := by
      rintro rest' rfl
      exact hmeta _ (List.mem_cons_of_mem _ List.mem_cons_self) rfl
    rcases Device.reaches_call hrest with ⟨-, rfl⟩ | ⟨hcalls, -⟩ | ⟨x, rest', w₂, hcalls, -, -⟩
    · rfl
    · exact absurd hcalls (hput [])
    · exact absurd hcalls (hput rest')

/-- The loop of the writer has performed some of its first segment writes. -/
theorem reaches_set_segments {pl : ShardPlan} {i n : ℕ}
    (h : client.Reaches (conn.set_segments ck pl p p.length i n) calls w w') :
    ∃ j ≤ n, w' = ((List.range' i j).map (conn.native_segment_write ck pl p)).foldl
      World.applyWrite w := by
  induction n generalizing i w calls with
  | zero =>
    obtain ⟨-, rfl⟩ := Device.reaches_ret h
    exact ⟨0, Nat.le_refl _, rfl⟩
  | succ n ih =>
    rcases Device.reaches_bind h with hput | ⟨u, w₁, before, after, hput, -, hrest⟩
    · rcases reaches_put_payload_record hput with rfl | rfl
      · exact ⟨0, Nat.zero_le _, rfl⟩
      · exact ⟨1, by omega, rfl⟩
    · obtain rfl := exec_put_payload_record hput
      obtain ⟨j, hj, rfl⟩ := ih hrest
      exact ⟨j + 1, by omega, rfl⟩

/-- **A native write that has not begun its meta write** has changed nothing, or performed the
first segment writes of its plan. -/
theorem reaches_do_single_set {key : Text}
    (hkey : native_key_to_cache_engine_key key conn.dtype = .ok ck)
    (h : client.Reaches (conn.do_single_set key p) calls w w')
    (hmeta : ∀ wr, Op.put wr ∈ calls → wr.key ≠ conn.as_key (meta_user_key ck)) :
    w' = w ∨ ∃ pl j, conn.limits.plan p.length = .ok pl ∧ pl.nseg ≠ 1 ∧ j ≤ pl.nseg ∧
      w' = ((List.range' 0 j).map (conn.native_segment_write ck pl p)).foldl
        World.applyWrite w := by
  cases hplan : conn.limits.plan p.length with
  | error e =>
    unfold NativeConnector.do_single_set at h
    dsimp only at h
    rw [hkey, hplan] at h
    obtain ⟨-, rfl⟩ := Device.reaches_raise h
    exact Or.inl rfl
  | ok pl =>
    rw [do_single_set_planned hkey hplan] at h
    by_cases hn : pl.nseg = 1
    · rw [if_pos hn] at h
      exact Or.inl (reaches_put_meta_record h hmeta)
    · rw [if_neg hn] at h
      rcases Device.reaches_bind h with hsegments |
        ⟨u, w₁, before, after, hsegments, rfl, hrest⟩
      · obtain ⟨j, hj, hw⟩ := reaches_set_segments hsegments
        exact Or.inr ⟨pl, j, rfl, hn, hj, hw⟩
      · obtain rfl := reaches_put_meta_record hrest fun wr hwr =>
          hmeta wr (List.mem_append_right _ hwr)
        exact Or.inr ⟨pl, pl.nseg, rfl, hn, Nat.le_refl _, exec_set_segments hsegments⟩

/-- A write of several segments may stop right after the first of them. -/
theorem first_segment_reachable {key : Text} {pl : ShardPlan} {n : ℕ}
    (hkey : native_key_to_cache_engine_key key conn.dtype = .ok ck)
    (hplan : conn.limits.plan p.length = .ok pl) (hn : pl.nseg = n + 2) (w : World) :
    client.Reaches (conn.do_single_set key p) [.put (conn.native_segment_write ck pl p 0)] w
      (w.applyWrite (conn.native_segment_write ck pl p 0)) := by
  rw [do_single_set_planned hkey hplan, if_neg (by omega), hn]
  exact .answered (perform_outcome (.put _) w) (.here ..)

end Stops

/-! ## What the reader makes of it -/

/-- Two cuts of a payload into several pieces whose first pieces have one length cut it
alike. -/
theorem ShardPlan.Covers.seg_b_eq {pl pl' : ShardPlan} {p : Bytes} (h : pl.Covers p.length)
    (h' : pl'.Covers p.length) (hn : pl.nseg ≠ 1) (hn' : pl'.nseg ≠ 1)
    (hfirst : (slice pl.seg_b 0 p).length = (slice pl'.seg_b 0 p).length) :
    pl.seg_b = pl'.seg_b := by
  have hstart := h.starts_inside hn
  have hstart' := h'.starts_inside hn'
  have hpos := h.nseg_pos
  have hpos' := h'.nseg_pos
  have hmul : 1 * pl.seg_b ≤ (pl.nseg - 1) * pl.seg_b := Nat.mul_le_mul_right _ (by omega)
  have hmul' : 1 * pl'.seg_b ≤ (pl'.nseg - 1) * pl'.seg_b := Nat.mul_le_mul_right _ (by omega)
  rw [length_slice, length_slice] at hfirst
  omega

/-- The connector keeps the chunk `key` in the records of `ck`. -/
structure NativeConnector.Keeps (conn : NativeConnector) (ns set_name ck key : Text) : Prop where
  addresses : conn.Addresses ns set_name ck
  key_eq : native_key_to_cache_engine_key key conn.dtype = .ok ck

section Interrupted

variable {ns set_name ck : Text} {p : Bytes} {w w' : World} {conn : NativeConnector}

/-- **What a stopped write leaves**: the meta record as it was, and the slices of its own cut in
the first `j` segments. -/
theorem stopped_segments {connB : NativeConnector} {key : Text}
    (hB : connB.Keeps ns set_name ck key) (haddr : conn.Addresses ns set_name ck)
    (hp : p.length < 2 ^ 32) {calls : List Op}
    (hstop : client.Reaches (connB.do_single_set key p) calls w w')
    (hmeta : ∀ wr, Op.put wr ∈ calls → wr.key ≠ meta_key ns set_name ck) :
    w'.records (meta_key ns set_name ck) = w.records (meta_key ns set_name ck) ∧
      ∃ (pl : ShardPlan) (j : ℕ), (0 < j → pl.Covers p.length ∧ pl.nseg ≠ 1) ∧
        ∀ i, conn.segment_payload w' ck i
          = if i < j then some (slice pl.seg_b i p) else conn.segment_payload w ck i := by
  rw [← hB.addresses.meta_eq] at hmeta
  -- a write that has not begun its first segment is one of no segments
  rcases reaches_do_single_set hB.key_eq hstop hmeta with rfl | ⟨pl, j, hplan, hn, hj, hw⟩
  · exact ⟨rfl, ⟨1, 0⟩, 0, fun hj => absurd hj (Nat.lt_irrefl 0), fun i => (if_neg (by omega)).symm⟩
  · have hcov := native_plan_covers hp hplan
    obtain ⟨hframe, hwritten⟩ := native_segments_written hB.addresses hcov hp hn hj hw
    refine ⟨hframe _ (meta_key_notMem _ _ _ _ _ _ _), pl, j, fun _ => ⟨hcov, hn⟩, fun i => ?_⟩
    unfold NativeConnector.segment_payload
    rw [haddr.segment_eq i]
    split_ifs with hij
    · obtain ⟨r, hr, hb⟩ := hwritten i hij
      rw [hr, Option.bind_some, as_record_get_bytes, hb]
    · rw [hframe]
      intro hmem
      obtain ⟨m, hm, hmi⟩ := List.mem_map.mp hmem
      obtain ⟨-, rfl⟩ := segment_key_inj hmi
      exact hij (List.mem_range.mp hm)

/-- Over segments of which the first `j` have been replaced, payloads of the lengths of the
stored cut are its pieces. -/
theorem chunks_eq_pieces {pl pl' : ShardPlan} {bins : Bins}
    (hstored : w.StoredBy ns set_name ck p pl bins) (hp₁ : 1 ≤ p.length)
    (hp : p.length < 2 ^ 32) (haddr : conn.Addresses ns set_name ck) {j : ℕ}
    (hcut : 0 < j → pl'.Covers p.length ∧ pl'.nseg ≠ 1)
    (hmix : ∀ i, conn.segment_payload w' ck i
      = if i < j then some (slice pl'.seg_b i p) else conn.segment_payload w ck i)
    {chunks : List Bytes} (hchunks : conn.payloads w' ck bins = chunks.map some)
    (hlengths : chunks.map List.length = (pl.pieces p).map List.length) :
    chunks = pl.pieces p := by
  apply List.map_injective_iff.mpr (Option.some_injective _)
  rw [← hchunks]
  -- a payload in the meta record is not touched by segments
  by_cases hn : pl.nseg = 1
  · rw [hstored.payloads_of_one hp₁ hp hn, hstored.covers.pieces_of_one hn]
    rfl
  · unfold NativeConnector.payloads at hchunks ⊢
    rw [hstored.meta_nseg_eq hp₁ hp, if_neg hn] at hchunks ⊢
    -- the first segment tells whether the two cuts differ
    have hsame : 0 < j → pl'.seg_b = pl.seg_b := by
      intro hj
      obtain ⟨hcov', hn'⟩ := hcut hj
      apply hcov'.seg_b_eq hstored.covers hn' hn
      have hfirst := congrArg (fun l => l[0]?) hchunks
      have hlength := congrArg (fun l => l[0]?) hlengths
      simp only [List.getElem?_map, List.getElem?_range hstored.covers.nseg_pos, Option.map_some,
        hmix, if_pos hj] at hfirst
      cases hc : chunks[0]? with
      | none =>
        rw [hc] at hfirst
        cases hfirst
      | some chunk =>
        rw [hc] at hfirst
        cases hfirst
        simp only [List.getElem?_map, hc, ShardPlan.pieces, Option.map_some,
          List.getElem?_range hstored.covers.nseg_pos] at hlength
        exact Option.some.inj hlength
    rw [ShardPlan.pieces, List.map_map]
    apply List.map_congr_left
    intro i hi
    rw [hmix i, hstored.segment_payload_eq haddr hn (List.mem_range.mp hi)]
    split_ifs with hij
    · rw [hsame (by omega)]
      rfl
    · rfl

end Interrupted

/-- **An interrupted write of the same payload never fools the native reader.**  After a
completed write of `p` by one connector, and a write of `p` by another one, with any other
limits, that has stopped anywhere before its `put` of the meta record, a read of the length of
`p` throws or leaves the buffer filled with `p`. -/
theorem native_interrupted_set {ns set_name ck : Text} {p : Bytes} (hp₁ : 1 ≤ p.length)
    (hp : p.length < 2 ^ 32) {connA connB connR : NativeConnector} {keyA keyB keyR : Text}
    (hA : connA.Keeps ns set_name ck keyA) (hB : connB.Keeps ns set_name ck keyB)
    (hR : connR.Keeps ns set_name ck keyR) {w w₁ w₂ w₃ : World}
    (hset : client.Exec (connA.do_single_set keyA p) w (.ok ()) w₁) {calls : List Op}
    (hstop : client.Reaches (connB.do_single_set keyB p) calls w₁ w₂)
    (hmeta : ∀ wr, Op.put wr ∈ calls → wr.key ≠ meta_key ns set_name ck)
    {buf : Bytes} (hbuf : p.length ≤ buf.length) {r : Except (RuntimeError × Bytes) Bytes}
    (hget : client.Exec (connR.do_single_get keyR buf p.length) w₂ r w₃) :
    (∃ e, r = .error e) ∨ r = .ok (p ++ buf.drop p.length) := by
  cases r with
  | error e => exact Or.inl ⟨e, rfl⟩
  | ok buf' =>
    right
    obtain ⟨pl, bins, hstored, -⟩ := exec_set_storedBy hA.addresses hA.key_eq hp hset
    obtain ⟨hold, pl', j, hcut, hmix⟩ := stopped_segments hB hR.addresses hp hstop hmeta
    obtain ⟨rfl, rec, chunks, haccepted, hchunks, hlengths, rfl⟩ :=
      exec_do_single_get hR.key_eq (by omega) hbuf hget
    -- the reader sees the meta record of the completed write
    have hbins : rec = bins := by
      obtain ⟨r, hr, rfl⟩ := haccepted.found
      obtain ⟨r', hr', rfl⟩ := hstored.holds.found
      rw [hR.addresses.meta_eq, hold, hr'] at hr
      rw [Option.some.inj hr]
    subst hbins
    rw [hstored.asked_lengths_eq hp₁ hp] at hlengths
    obtain rfl := chunks_eq_pieces hstored hp₁ hp hR.addresses hcut hmix hchunks hlengths
    rw [hstored.covers.flatten_pieces, splice_zero]

/-- A connector for smaller segments, of the same records. -/
def smallSegments : NativeConnector :=
  { nativeExample with limits := ⟨2, 1, 1, by decide, by decide, rfl⟩ }

/-- A second writer whose segments are shorter stops after its first one, and the reader takes
its segment for none of the chunk's. -/
theorem native_interrupted_set_shorter :
    ∃ w₁ w₂ r w₃,
      client.Exec (nativeExample.do_single_set "m@01000000@0a".toList [1, 2, 3]) World.empty
        (.ok ()) w₁ ∧
      (∃ calls, calls.length = 1 ∧
        client.Reaches (smallSegments.do_single_set "m@01000000@0a".toList [1, 2, 3]) calls
          w₁ w₂) ∧
      client.Exec (nativeExample.do_single_get "m@01000000@0a".toList [9, 9, 9, 9] 3) w₂ r w₃ ∧
      ((∃ e, r = .error e) ∨ r = .ok [1, 2, 3, 9]) := by
  have haddr : ∀ conn : NativeConnector, conn.ns = "lmcache".toList →
      conn.set_name = "kv_chunks".toList → conn.dtype = "bfloat16".toList →
      conn.Keeps "lmcache".toList "kv_chunks".toList "m@1@0@a@bfloat16".toList
        "m@01000000@0a".toList := by
    rintro conn hns hset hdtype
    refine ⟨?_, ?_⟩
    · rw [← hns, ← hset]
      exact addresses_of_notMem (by rw [hns]; decide) (by rw [hset]; decide) (by decide)
    · rw [hdtype]
      decide
  have hset := exec_run_perform
    (nativeExample.do_single_set "m@01000000@0a".toList [1, 2, 3]) World.empty
  have hplan : smallSegments.limits.plan [1, 2, 3].length = .ok ⟨3, 1⟩ := by
    simp [NativeLimits.plan, smallSegments, size_sub, to_uint32]
  have hstop := first_segment_reachable (p := [1, 2, 3]) (n := 1)
    (haddr smallSegments rfl rfl rfl).key_eq hplan rfl
  have hget : ∀ w, client.Exec
      (nativeExample.do_single_get "m@01000000@0a".toList [9, 9, 9, 9] 3) w _ _ :=
    fun w => exec_run_perform _ w
  refine ⟨_, _, _, _, hset, ⟨_, rfl, hstop _⟩, hget _, ?_⟩
  refine native_interrupted_set (p := [1, 2, 3]) (by decide) (by decide)
    (haddr nativeExample rfl rfl rfl) (haddr smallSegments rfl rfl rfl)
    (haddr nativeExample rfl rfl rfl) hset (hstop _) ?_ (by decide) (hget _)
  intro wr hwr
  cases List.mem_singleton.mp hwr
  decide
