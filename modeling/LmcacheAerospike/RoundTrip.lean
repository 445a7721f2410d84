/-
# A completed put can be read back

After a completed put the records of its key hold the pieces of its payload, whatever
they held before (`PutDone.holds`).  The same engine reads it back
(`put_get_round_trip`).  An engine of another configuration does so too, except that it
may compare the payload with a `crc32` bin that an earlier put has left in the meta
record (`last_writer_wins_iff`).
-/
import LmcacheAerospike.CompletedPut
import LmcacheAerospike.ReadBack

section PutGet

variable {eng : Engine} {ck : Text} {mo : MemoryObj} {pinned : Bool} {w w' : World}

/-- The bins of the meta record after a put. -/
def Engine.metaBins (eng : Engine) (ck : Text) (mo : MemoryObj) (pl : ShardPlan)
    (pinned : Bool) (now : ℕ) (w : World) : Bins :=
  ((eng.meta_write ck mo pl pinned now).applyTo w.now (w.records (eng.metaKey ck))).bins

/-- **After a completed put the records hold the pieces of the payload**, over any bins and
segments that were there. -/
theorem Engine.PutDone.holds {pl : ShardPlan} {now : ℕ}
    (hcov : pl.Covers mo.byte_array.length)
    (h : eng.PutDone ck mo pinned pl now w w') :
    w'.Holds eng.cfg.ns eng.cfg.set_name ck (pl.pieces mo.byte_array)
      (eng.metaBins ck mo pl pinned now w) where
  found := ⟨_, h.meta_done, rfl⟩
  state := meta_write_bins mo pl pinned now .state
  nseg := by
    rw [pl.length_pieces]
    exact meta_write_bins mo pl pinned now .nseg
  inline := fun hn => by
    rw [pl.length_pieces] at hn
    rw [hcov.flatten_pieces]
    exact (meta_write_bins mo pl pinned now .b).trans (if_pos hn)
  segment := fun hn i hi => by
    rw [pl.length_pieces] at hn hi
    refine ⟨_, h.segment_done hn i hi, ?_⟩
    rw [segment_write_b]
    simp only [ShardPlan.pieces, List.get_eq_getElem, List.getElem_map, List.getElem_range]

/-- **The round trip of the engine.**  A put that completed, over any store, is followed by
a hit: exactly the payload is written into the receive buffer, which the caller passed or
the allocator returned, and the buffer past the payload is unchanged. -/
theorem put_get_round_trip (eng : Engine) (ck : Text) (mo : MemoryObj) (pinned : Bool)
    (w w' : World) (hput : client.Exec (eng.put ck mo pinned) w (.ok ()) w')
    (preallocated : Option MemoryObj) (buf : MemoryObj) (expect_reshape : Bool)
    (hbuf : ∀ r, w'.records (eng.metaKey ck) = some r →
      eng.receive_buffer r.bins preallocated = .ok (some buf, expect_reshape))
    (hroom : mo.byte_array.length ≤ buf.byte_array.length)
    (hbytes : buf.raw_is_tensor = false)
    (hshape : expect_reshape = true → ∃ shaped,
      eng.reshape (buf.filledWith mo.byte_array) mo.byte_array.length = .ok shaped ∧
        shaped.byte_array.take mo.byte_array.length = mo.byte_array) :
    ∃ hit, (eng.get ck preallocated).run Op.perform w' = (.ok (some hit), w') ∧
      hit.Fills buf mo.byte_array ∧
      hit.filled.byte_array.drop mo.byte_array.length
        = buf.byte_array.drop mo.byte_array.length := by
  obtain ⟨pl, now, hplan, hdone⟩ := exec_put_ok hput
  have hcov := plan_covers _ _ _ _ _ _ hplan
  have hholds := hdone.holds hcov
  obtain ⟨r, hr, hbins⟩ := hholds.found
  rw [← hbins] at hholds
  have hrec : eng.Receives buf (pl.pieces mo.byte_array) :=
    ⟨by rw [hcov.flatten_pieces]; exact hroom.trans buf.length_byte_array_le,
      fun ht => by rw [hbytes] at ht; cases ht⟩
  have hcrc : eng.crc_matches (eng.metaBins ck mo pl pinned now w)
      (buf.filledWith mo.byte_array) mo.byte_array.length = true := by
    rw [crc_matches_iff _ _ hroom]
    intro hc expected hexpected
    have hbin : eng.metaBins ck mo pl pinned now w .crc32 = _ :=
      (meta_write_bins mo pl pinned now .crc32).trans (if_pos hc)
    rw [hbin] at hexpected
    cases hexpected
    rw [pyEqInt_crc32]
  obtain ⟨hit, hrun, hfills⟩ := run_get_hit hholds (hbuf r hr) hrec
    (by rwa [hcov.flatten_pieces, hbins])
    (by rwa [hcov.flatten_pieces, List.take_of_length_le hroom])
  rw [hcov.flatten_pieces] at hfills
  exact ⟨hit, hrun, hfills, hfills.drop_filled hroom⟩

/-- The round trip of three bytes in two pieces, over a store that holds another payload. -/
theorem put_get_round_trip_two_pieces :
    ∃ w w' hit, client.Exec ((fakeEngine (.ofTarget 2) true true 8).put "k".toList
        { byte_array := [1, 2, 3] } false) w (.ok ()) w' ∧
      ((fakeEngine (.ofTarget 2) true true 8).get "k".toList none).run Op.perform w'
        = (.ok (some hit), w') ∧
      hit.Fills { byte_array := List.replicate 8 0 } [1, 2, 3] := by
  have hput : client.Exec ((fakeEngine (.ofTarget 2) true true 8).put "k".toList
      { byte_array := [1, 2, 3] } false) _ (.ok ()) _ :=
    exec_run_perform _ (((fakeEngine (.ofTarget 9) false false 8).put "k".toList
      { byte_array := [7, 7] } false).run Op.perform World.empty).2
  obtain ⟨hit, hrun, hfills, -⟩ := put_get_round_trip _ _ _ _ _ _ hput none
    { byte_array := List.replicate 8 0 } false
    (fun r hr => by cases hr; rfl) (by decide) rfl (fun h => by cases h)
  exact ⟨_, _, hit, hput, hrun, hfills⟩

/-! ## Three configurations -/

/-- The `crc32` bin that the second of two puts leaves. -/
theorem crc32_bin_after {eng₁ eng₂ : Engine} {mo₁ : MemoryObj} {pinned₁ : Bool}
    {pl₁ : ShardPlan} {now₁ : ℕ} {w₀ w₁ : World}
    (hkey : eng₂.metaKey ck = eng₁.metaKey ck)
    (hdone : eng₁.PutDone ck mo₁ pinned₁ pl₁ now₁ w₀ w₁)
    (mo₂ : MemoryObj) (pl₂ : ShardPlan) (pinned₂ : Bool) (now₂ : ℕ) :
    eng₂.metaBins ck mo₂ pl₂ pinned₂ now₂ w₁ .crc32
      = if eng₂.cfg.enable_crc32 then some (.int (crc32 mo₂.byte_array))
        else if eng₁.cfg.enable_crc32 then some (.int (crc32 mo₁.byte_array))
        else oldBins (w₀.records (eng₁.metaKey ck)) .crc32 := by
  have hold : oldBins (w₁.records (eng₂.metaKey ck)) .crc32
      = if eng₁.cfg.enable_crc32 then some (.int (crc32 mo₁.byte_array))
        else oldBins (w₀.records (eng₁.metaKey ck)) .crc32 := by
    rw [hkey, show w₁.records (eng₁.metaKey ck) = _ from hdone.meta_done]
    exact meta_write_bins mo₁ pl₁ pinned₁ now₁ .crc32
  rw [← hold]
  exact meta_write_bins mo₂ pl₂ pinned₂ now₂ .crc32

/-- The reader's check accepts the payload `p₂` that the second writer put: it has no CRC
check, or the second writer has renewed the `crc32` bin, or the bin that is still there from
the first writer's payload `p₁`, or from before, is absent or agrees with `p₂`. -/
def CrcAccepts (crc₁ crc₂ crc₃ : Bool) (p₁ p₂ : Bytes) (before : Option BinVal) : Prop :=
  crc₃ = true → crc₂ = true ∨
    if crc₁ then crc32 p₁ = crc32 p₂
    else ∀ expected, before = some expected → Engine.pyEqInt expected (crc32 p₂) = true

theorem crcAccepts_iff (eng : Engine) {crc₁ crc₂ : Bool} {p₁ p₂ : Bytes} {before : Option BinVal}
    {bins : Bins} (hbin : bins .crc32 = if crc₂ then some (.int (crc32 p₂))
      else if crc₁ then some (.int (crc32 p₁)) else before) {mo : MemoryObj}
    (hroom : p₂.length ≤ mo.byte_array.length) :
    eng.crc_matches bins (mo.filledWith p₂) p₂.length = true ↔
      CrcAccepts crc₁ crc₂ eng.cfg.enable_crc32 p₁ p₂ before := by
  rw [crc_matches_iff _ _ hroom, hbin, CrcAccepts]
  cases crc₂ with
  | true => simp
  | false =>
    cases crc₁ with
    | true => simp
    | false => simp

/-- **When the last completed writer wins across configurations.**  Two engines complete
their puts one after the other, over any store `w₀`; a third then reads into a buffer with
room.  It hits with exactly the second payload if and only if its CRC check accepts what
the writers have left in the `crc32` bin, and the payload is not an empty one that torch
would have to read. -/
theorem last_writer_wins_iff (eng₁ eng₂ eng₃ : Engine) (ck : Text)
    (hns₂ : eng₂.cfg.ns = eng₁.cfg.ns) (hset₂ : eng₂.cfg.set_name = eng₁.cfg.set_name)
    (hns₃ : eng₃.cfg.ns = eng₁.cfg.ns) (hset₃ : eng₃.cfg.set_name = eng₁.cfg.set_name)
    (mo₁ mo₂ : MemoryObj) (pinned₁ pinned₂ : Bool) (w₀ w₁ w₂ : World)
    (hput₁ : client.Exec (eng₁.put ck mo₁ pinned₁) w₀ (.ok ()) w₁)
    (hput₂ : client.Exec (eng₂.put ck mo₂ pinned₂) w₁ (.ok ()) w₂)
    (buf : MemoryObj) (hroom : mo₂.byte_array.length ≤ buf.byte_array.length)
    (htorch : eng₃.TorchReads) :
    (∃ hit w₃, (eng₃.get ck (some buf)).run Op.perform w₂ = (.ok (some hit), w₃) ∧
        hit.Fills buf mo₂.byte_array) ↔
      CrcAccepts eng₁.cfg.enable_crc32 eng₂.cfg.enable_crc32 eng₃.cfg.enable_crc32
          mo₁.byte_array mo₂.byte_array (oldBins (w₀.records (eng₁.metaKey ck)) .crc32) ∧
        (buf.raw_is_tensor = true → mo₂.byte_array ≠ []) := by
  obtain ⟨pl₁, now₁, -, hdone₁⟩ := exec_put_ok hput₁
  obtain ⟨pl, now₂, hplan, hdone₂⟩ := exec_put_ok hput₂
  have hcov := plan_covers _ _ _ _ _ _ hplan
  have hholds := hdone₂.holds hcov
  rw [hns₂, hset₂, ← hns₃, ← hset₃] at hholds
  have hkey : eng₂.metaKey ck = eng₁.metaKey ck := by
    rw [Engine.metaKey, Engine.metaKey, hns₂, hset₂]
  have haccepts := crcAccepts_iff eng₃
    (crc32_bin_after hkey hdone₁ mo₂ pl pinned₂ now₂) hroom
  have hbuf : eng₃.receive_buffer (eng₂.metaBins ck mo₂ pl pinned₂ now₂ w₁) (some buf)
      = .ok (some buf, false) := rfl
  rw [run_get_hit_iff hcov hholds hbuf hroom htorch (fun h => by cases h), haccepts]

/-- The second of two writers renews the `crc32` bin, and the reader hits. -/
theorem last_writer_wins_renewed :
    ∃ w₁ w₂ w₃ hit,
      client.Exec ((fakeEngine (.ofTarget 9) true true 8).put "k".toList
        { byte_array := [1] } false) World.empty (.ok ()) w₁ ∧
      client.Exec ((fakeEngine (.ofTarget 1) true false 8).put "k".toList
        { byte_array := [2, 3] } false) w₁ (.ok ()) w₂ ∧
      ((fakeEngine (.ofTarget 9) true true 8).get "k".toList
        (some { byte_array := [0, 0, 0] })).run Op.perform w₂ = (.ok (some hit), w₃) ∧
      hit.Fills { byte_array := [0, 0, 0] } [2, 3] := by
  have hput₁ : client.Exec ((fakeEngine (.ofTarget 9) true true 8).put "k".toList
      { byte_array := [1] } false) World.empty (.ok ()) _ := exec_run_perform _ _
  have hput₂ : ∀ w, client.Exec ((fakeEngine (.ofTarget 1) true false 8).put "k".toList
      { byte_array := [2, 3] } false) w (.ok ()) _ := fun w => exec_run_perform _ w
  obtain ⟨hit, w₃, hrun, hfills⟩ := (last_writer_wins_iff
    (fakeEngine (.ofTarget 9) true true 8) (fakeEngine (.ofTarget 1) true false 8)
    (fakeEngine (.ofTarget 9) true true 8) _ rfl rfl rfl rfl _ _ _ _ _ _ _ hput₁ (hput₂ _)
    { byte_array := [0, 0, 0] } (by decide) (fakeEngine_torchReads _ _ _ _)).mpr
    ⟨fun _ => Or.inl rfl, fun h => by cases h⟩
  exact ⟨_, _, w₃, hit, hput₁, hput₂ _, hrun, hfills⟩

/-- A writer with the CRC on, then one with the CRC off, then a reader with the CRC on: the
bin of the first payload is still there, and the completed second put is never read. -/
theorem stale_crc32_misses :
    ∃ w₁ w₂ w₃,
      client.Exec ((fakeEngine (.ofTarget 9) true true 8).put "k".toList
        { byte_array := [1] } false) World.empty (.ok ()) w₁ ∧
      client.Exec ((fakeEngine (.ofTarget 9) false true 8).put "k".toList
        { byte_array := [2] } false) w₁ (.ok ()) w₂ ∧
      ((fakeEngine (.ofTarget 9) true true 8).get "k".toList
        (some { byte_array := [0, 0, 0] })).run Op.perform w₂ = (.ok none, w₃) := by
  have hput₁ : client.Exec ((fakeEngine (.ofTarget 9) true true 8).put "k".toList
      { byte_array := [1] } false) World.empty (.ok ()) _ := exec_run_perform _ _
  have hput₂ : ∀ w, client.Exec ((fakeEngine (.ofTarget 9) false true 8).put "k".toList
      { byte_array := [2] } false) w (.ok ()) _ := fun w => exec_run_perform _ w
  exact ⟨_, _, _, hput₁, hput₂ _, rfl⟩

end PutGet
