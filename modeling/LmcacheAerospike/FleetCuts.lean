/-
# When the cuts of a fleet differ

Two members with different limits may cut one payload differently, and then a reader can meet
pieces of both.  What comes of it depends on the reader.

* A Python `get` that does not check CRCs compares nothing with the total, so any two different
  cuts let it return wrong bytes: it is safe if and only if all cuts agree
  (`python_reads_deliver_iff`).
* A native read compares the length of each piece with the one it expects.  It takes a piece of
  the wrong cut only where the last, short piece of one cut has the full length of a piece of
  the other, so it is safe if and only if no two cuts clash in this way
  (`native_reads_deliver_iff`).  A stopped writer is not enough to fool it; a second writer that
  overtakes the reader is.
-/
import LmcacheAerospike.FleetReads
import LmcacheAerospike.InterruptedPut
import LmcacheAerospike.NativeRuns

section FleetCuts

variable {F : Fleet} {ns set_name k : Text} {pl pl' : ShardPlan}

/-! ## Every cut can be written -/

/-- **A member can write each cut**, from any store. -/
theorem Fleet.Cut.completes (h : F.Cut ns set_name k pl) (w : World) :
    ∃ op, F.Allows op ∧ ∃ r w' bins, client.Exec op.prog w (.ok r) w' ∧
      w'.StoredBy ns set_name k (F.payload k) pl bins := by
  cases h with
  | python eng heng hns hset hplan =>
    subst hns hset
    refine ⟨.python (.put eng k { byte_array := F.payload k } false),
      ⟨F.lawful eng heng, heng, rfl⟩, ?_⟩
    have hrun : ((eng.put k { byte_array := F.payload k } false).run Op.perform w).1 = .ok () :=
      run_put_planned k false w hplan
    have hexec := exec_run_perform (eng.put k { byte_array := F.payload k } false) w
    rw [hrun] at hexec
    obtain ⟨pl', now, hplan', hdone⟩ := exec_put_ok hexec
    obtain rfl : pl = pl' := Except.ok.inj (hplan.symm.trans hplan')
    have hcov := plan_covers _ _ _ _ _ _ hplan
    refine ⟨_, _, _, client.exec_bind_ret _
      (client.exec_mapError _ (client.exec_bind_ret _ hexec)), hcov, hdone.holds hcov,
      meta_write_bins _ pl false now .seg_b, meta_write_bins _ pl false now .tot_b⟩
  | native conn key hconn hns hset hkey hplan =>
    subst hns hset
    have haddr := hkey.addresses hconn
    refine ⟨.native_set conn key (F.payload k), ⟨⟨hconn, fun ck hck => ?_⟩, fun ck hck => ?_⟩, ?_⟩
    · rw [hkey.reads] at hck
      cases hck
      exact hkey
    · rw [hkey.reads] at hck
      cases hck
      rfl
    · obtain ⟨bins, hstored, -⟩ := afterSet_storedBy haddr hkey.short hplan w
      have hexec := exec_run_perform (conn.do_single_set key (F.payload k)) w
      rw [run_do_single_set hkey.reads hplan w] at hexec
      exact ⟨_, _, bins, client.exec_bind_ret _ (client.exec_mapError _ hexec), hstored⟩

/-- The store with the piece `0` of the cut `pl` in the record of segment `0`, and otherwise as
it was. -/
structure FirstPiece (F : Fleet) (ns set_name k : Text) (pl : ShardPlan) (w w' : World) :
    Prop where
  frame : ∀ key, key ≠ segment_key ns set_name k 0 → w'.records key = w.records key
  written : ∃ r, w'.records (segment_key ns set_name k 0) = some r ∧
    r.bins .b = some (.blob (slice pl.seg_b 0 (F.payload k)))

theorem firstPiece_applyWrite {wr : Write} (w : World)
    (hkey : wr.key = segment_key ns set_name k 0)
    (hb : ∀ t old, (wr.applyTo t old).bins .b
      = some (.blob (slice pl.seg_b 0 (F.payload k)))) :
    FirstPiece F ns set_name k pl w (w.applyWrite wr) where
  frame := fun key hne => World.applyWrite_of_ne w (by rwa [hkey])
  written := ⟨_, by rw [← hkey]; exact World.applyWrite_self w wr, hb _ _⟩

/-- **A member can stop after the first segment** of a cut into several pieces. -/
theorem Fleet.Cut.stops (h : F.Cut ns set_name k pl) (hn : pl.nseg ≠ 1) (w : World) :
    ∃ op, F.Allows op ∧ ∃ calls w', client.Reaches op.prog calls w w' ∧
      FirstPiece F ns set_name k pl w w' := by
  have hpos := h.covers.nseg_pos
  cases h with
  | python eng heng hns hset hplan =>
    subst hns hset
    refine ⟨.python (.put eng k { byte_array := F.payload k } false),
      ⟨F.lawful eng heng, heng, rfl⟩, ?_⟩
    -- after the clock, the batch of the segment writes has its first item performed
    have hfirst : ∀ i ∈ [0], i < pl.nseg := by
      simp
      omega
    obtain ⟨s, hms⟩ := micros_writes_at
      (eng.segment_write k (F.payload k) pl.seg_b (eng.ttl_value false))
      (List.nodup_singleton 0) hfirst w
    have hbatch : ∃ k', eng.put_records k { byte_array := F.payload k } pl false w.now
        = .call (.batch_write ((eng.segment_writes k (F.payload k) pl
            (eng.ttl_value false)).map .write)) k' := by
      unfold Engine.put_records
      rw [if_neg hn]
      exact ⟨_, rfl⟩
    obtain ⟨k', hk'⟩ := hbatch
    have htime : client.Outcome .time w w.now w := perform_outcome .time w
    have hput : client.Reaches (eng.put k { byte_array := F.payload k } false)
        [.time, .batch_write ((eng.segment_writes k (F.payload k) pl
          (eng.ttl_value false)).map .write)] w
        (([0].map (eng.segment_write k (F.payload k) pl.seg_b
          (eng.ttl_value false))).foldl World.applyWrite w) := by
      rw [put_planned hplan]
      refine .answered htime (Device.reaches_tryCatch ?_ _)
      rw [hk']
      exact .inside hms
    refine ⟨_, _, Device.reaches_bind_left (Device.reaches_mapError
      (Device.reaches_bind_left hput _) _) _, ?_⟩
    exact firstPiece_applyWrite w rfl fun _ _ => segment_write_b
  | native conn key hconn hns hset hkey hplan =>
    subst hns hset
    have haddr := hkey.addresses hconn
    have hcov := native_plan_covers hkey.short hplan
    refine ⟨.native_set conn key (F.payload k), ⟨⟨hconn, fun ck hck => ?_⟩, fun ck hck => ?_⟩, ?_⟩
    · rw [hkey.reads] at hck
      cases hck
      exact hkey
    · rw [hkey.reads] at hck
      cases hck
      rfl
    · obtain ⟨m, hm⟩ : ∃ m, pl.nseg = m + 1 := ⟨pl.nseg - 1, by omega⟩
      have hwrite : client.Outcome (.put (conn.native_segment_write k pl (F.payload k) 0)) w
          (.ok ()) (w.applyWrite (conn.native_segment_write k pl (F.payload k) 0)) :=
        perform_outcome (.put _) w
      have hset : client.Reaches (conn.do_single_set key (F.payload k))
          [.put (conn.native_segment_write k pl (F.payload k) 0)] w
          (w.applyWrite (conn.native_segment_write k pl (F.payload k) 0)) := by
        rw [do_single_set_planned hkey.reads hplan, if_neg hn, hm]
        exact .answered hwrite (.here ..)
      refine ⟨_, _, Device.reaches_bind_left (Device.reaches_mapError hset _) _, ?_⟩
      refine firstPiece_applyWrite w (haddr.segment_eq 0) fun t old => ?_
      rw [native_segment_write_b, native_segment_slice hcov hkey.short hn (by omega)]

/-- **What the first piece of another cut leaves**: under the old meta record, the pieces of the
old cut, the first of them replaced. -/
theorem FirstPiece.holds {w w' : World} (h : FirstPiece F ns set_name k pl' w w')
    (hn : pl.nseg ≠ 1) (hpos : 1 ≤ pl'.nseg) {bins : Bins}
    (hholds : w.Holds ns set_name k (pl.pieces (F.payload k)) bins) :
    w'.Holds ns set_name k (mixedPieces pl pl' [0] (F.payload k)) bins where
  found := by
    rw [h.frame _ (meta_key_ne_segment_key _ _ _ _ _ _ _)]
    exact hholds.found
  state := hholds.state
  nseg := by
    rw [length_mixedPieces, ← pl.length_pieces (F.payload k)]
    exact hholds.nseg
  inline := fun hone => absurd (by rwa [length_mixedPieces] at hone) hn
  segment := fun _ i hi => by
    rw [length_mixedPieces] at hi
    simp only [mixedPieces, List.get_eq_getElem, List.getElem_map, List.getElem_range,
      List.mem_singleton]
    by_cases hzero : i = 0
    · subst hzero
      rw [if_pos ⟨rfl, hpos⟩]
      exact h.written
    · rw [if_neg fun hand => hzero hand.1, h.frame _ fun heq => hzero (segment_key_inj heq).2]
      have hlen : i < (pl.pieces (F.payload k)).length := by rwa [pl.length_pieces]
      obtain ⟨r, hr, hb⟩ := hholds.segment (by rwa [pl.length_pieces]) i hlen
      refine ⟨r, hr, ?_⟩
      simpa only [ShardPlan.pieces, List.get_eq_getElem, List.getElem_map,
        List.getElem_range] using hb

/-! ## The Python reader -/

/-- Every `get` of `k` in this namespace and set, by an engine that does not check CRCs, delivers
the payload, in every interleaving. -/
def Fleet.PythonReadsDeliver (F : Fleet) (ns set_name k : Text) : Prop :=
  ∀ c : Pool client FleetOp FleetExc FleetResult,
    Pool.Reachable Expiry FleetOp.prog F.Allows World.empty c →
    ∀ eng preallocated hit, eng.cfg.ns = ns → eng.cfg.set_name = set_name →
      eng.cfg.enable_crc32 = false →
      Thread.at (.python (.get eng k preallocated)) (.ret (.python (.got (some hit))))
        ∈ c.threads →
      hit.Delivers eng preallocated (F.payload k)

/-- An engine on this namespace and set. -/
def engineOn (ns set_name : Text) : Engine :=
  { fakeEngine (.ofTarget 1) false false 0 with
    cfg := { (fakeEngine (.ofTarget 1) false false 0).cfg with ns := ns, set_name := set_name } }

/-- The first piece of one cut and the others of a different one do not spell the payload. -/
theorem mixedPieces_first_ne {p : Bytes} (h : pl.Covers p.length) (h' : pl'.Covers p.length)
    (hn : pl.nseg ≠ 1) (hn' : pl'.nseg ≠ 1) (hne : pl ≠ pl') :
    (mixedPieces pl pl' [0] p).flatten ≠ p := by
  intro hspell
  have hpos := h.nseg_pos
  have hpos' := h'.nseg_pos
  have hlen := congrArg List.length hspell
  rw [show [0] = List.range 1 from rfl, flatten_mixedPieces_range h, List.length_append,
    List.length_take, List.length_drop] at hlen
  exact h.mixed_length_ne h' hn hn' hne (by omega) (Nat.min_le_right _ _) (by omega) hlen

/-- One more program, started and stopped on its way. -/
theorem fleet_reachable_stop {w w' : World} {ts : List (Thread client FleetOp FleetExc FleetResult)}
    (hc : Pool.Reachable Expiry FleetOp.prog F.Allows World.empty ⟨w, ts⟩) {op : FleetOp}
    (hop : F.Allows op) {calls : List Op} (h : client.Reaches op.prog calls w w') :
    Pool.Reachable Expiry FleetOp.prog F.Allows World.empty ⟨w', ts⟩ :=
  (hc.tail (Pool.Step.spawn op hop)).trans (Pool.steps_of_reaches op ts h)

/-- **Two members that cut differently** can leave a mixture: one has completed its write, and
the other has stopped after its first segment. -/
theorem mixture_reachable {op : FleetOp} (hop : F.Allows op) {r : Except FleetExc FleetResult}
    {w : World} {bins : Bins} (hexec : client.Exec op.prog World.empty r w)
    (hstored : w.StoredBy ns set_name k (F.payload k) pl bins) (hn : pl.nseg ≠ 1)
    (hcut : F.Cut ns set_name k pl') (hn' : pl'.nseg ≠ 1) :
    ∃ w' ts, Pool.Reachable Expiry FleetOp.prog F.Allows World.empty
        (⟨w', ts⟩ : Pool client FleetOp FleetExc FleetResult) ∧
      w'.Holds ns set_name k (mixedPieces pl pl' [0] (F.payload k)) bins := by
  obtain ⟨op', hop', calls, w', hstop, hfirst⟩ := hcut.stops hn' w
  have hstart : Pool.Reachable Expiry FleetOp.prog F.Allows World.empty
      (⟨World.empty, []⟩ : Pool client FleetOp FleetExc FleetResult) :=
    Relation.ReflTransGen.refl
  exact ⟨w', _, fleet_reachable_stop (Pool.reachable_exec hstart op hop hexec) hop' hstop,
    hfirst.holds hn hcut.covers.nseg_pos hstored.holds⟩

/-- **When Python readers are safe.**  In a fleet whose members have limits of their own, every
`get` without CRC check delivers the payload or nothing, in every interleaving, if and only if
the members cut the payload into several pieces in one way only. -/
theorem python_reads_deliver_iff (F : Fleet) (ns set_name k : Text) :
    F.PythonReadsDeliver ns set_name k ↔ F.CutsAgree ns set_name k := by
  constructor
  · intro hsafe pl pl' hcut hcut' hn hn'
    by_contra hne
    obtain ⟨opA, hA, rA, w₁, bins, hexecA, hstored⟩ := hcut.completes World.empty
    obtain ⟨w₂, ts, hmixed, hholds⟩ := mixture_reachable hA hexecA hstored hn hcut' hn'
    -- a reader hits, and has received the mixture
    obtain ⟨buf, hit, hread, hfills⟩ := fakeReader_hits (engineOn ns set_name) hholds
    have hget : F.Allows (.python (.get (fakeReader (engineOn ns set_name)) k (some buf))) :=
      ⟨fakeReader_lawful _, trivial⟩
    have hrun := Pool.reachable_exec hmixed _ hget
      (client.exec_bind_ret _ (client.exec_mapError _ (client.exec_bind_ret _ hread)))
    obtain ⟨_, _, _, _, hdelivers⟩ := hsafe _ hrun _ _ hit rfl rfl rfl List.mem_cons_self
    exact mixedPieces_first_ne hcut.covers hcut'.covers hn hn' hne (hfills.unique hdelivers)
  · intro hagree c hc eng preallocated hit hns hset _ hhit
    subst hns hset
    exact hitGathers_delivers
      (((fleetProtocol F).reachable fleet_safe (World.each_empty _) hc).2 _ hhit hit rfl) hagree

/-! ## The native reader -/

/-- The last, short piece of `big` has the full length of a piece of `small`, at an index where
the two cuts have different bytes. -/
structure CutsClash (p : Bytes) (big small : ShardPlan) : Prop where
  shorter : small.seg_b < big.seg_b
  last : (big.nseg - 1) * big.seg_b + small.seg_b = p.length
  differ : slice small.seg_b (big.nseg - 1) p ≠ slice big.seg_b (big.nseg - 1) p

/-- Pieces of one index and one length, of a cut with longer pieces and one with shorter: the
first is the last of its cut, and has the full length of the other. -/
theorem ShardPlan.Covers.last_of_length_eq {P i : ℕ} (h : pl.Covers P) (h' : pl'.Covers P)
    (hn : pl.nseg ≠ 1) (hn' : pl'.nseg ≠ 1) (hi : i < pl.nseg) (hi' : i < pl'.nseg)
    (hlt : pl'.seg_b < pl.seg_b)
    (hlen : min pl.seg_b (P - i * pl.seg_b) = min pl'.seg_b (P - i * pl'.seg_b)) :
    i = pl.nseg - 1 ∧ (pl.nseg - 1) * pl.seg_b + pl'.seg_b = P := by
  have hstart := h.start_lt hn hi
  have hstart' := h'.start_lt hn' hi'
  have hmul : i * pl'.seg_b ≤ i * pl.seg_b := Nat.mul_le_mul_left i (le_of_lt hlt)
  -- a full piece would be longer than any of the other cut
  have hlast : i = pl.nseg - 1 := by
    by_contra hne
    have hend := h.end_lt (i := i) (by omega)
    rw [Nat.add_mul, Nat.one_mul] at hend
    omega
  refine ⟨hlast, ?_⟩
  have hpos : 1 ≤ i := by
    have hnpos := h.nseg_pos
    omega
  have hmul' : i * pl'.seg_b < i * pl.seg_b := Nat.mul_lt_mul_of_pos_left hlt hpos
  rw [← hlast]
  omega

/-- **What the comparison of lengths lets through**: pieces of one index and one length, of two
cuts that do not clash either way, have the same bytes. -/
theorem slice_eq_of_length_eq {p : Bytes} {i : ℕ} (h : pl.Covers p.length)
    (h' : pl'.Covers p.length) (hn : pl.nseg ≠ 1) (hn' : pl'.nseg ≠ 1) (hi : i < pl.nseg)
    (hi' : i < pl'.nseg) (hclash : ¬ CutsClash p pl pl') (hclash' : ¬ CutsClash p pl' pl)
    (hlen : (slice pl.seg_b i p).length = (slice pl'.seg_b i p).length) :
    slice pl'.seg_b i p = slice pl.seg_b i p := by
  rw [length_slice, length_slice] at hlen
  rcases Nat.lt_trichotomy pl.seg_b pl'.seg_b with hlt | heq | hgt
  · obtain ⟨hlast, hsum⟩ := h'.last_of_length_eq h hn' hn hi' hi hlt hlen.symm
    by_contra hne
    apply hclash'
    refine ⟨hlt, hsum, ?_⟩
    rw [← hlast]
    exact fun heq => hne heq.symm
  · rw [heq]
  · obtain ⟨hlast, hsum⟩ := h.last_of_length_eq h' hn hn' hi hi' hgt hlen
    by_contra hne
    apply hclash
    refine ⟨hgt, hsum, ?_⟩
    rw [← hlast]
    exact hne

/-- No two cuts of the payload into several pieces clash. -/
def Fleet.NoClash (F : Fleet) (ns set_name k : Text) : Prop :=
  ∀ big small, F.Cut ns set_name k big → F.Cut ns set_name k small → big.nseg ≠ 1 →
    small.nseg ≠ 1 → ¬ CutsClash (F.payload k) big small

/-- **Where no cuts clash, pieces of the expected lengths spell the payload.** -/
theorem Fleet.Mix.flatten_of_lengths {chunks : List Bytes} (h : F.Mix ns set_name k pl chunks)
    (hcut : F.Cut ns set_name k pl) (hclash : F.NoClash ns set_name k)
    (hlengths : pl.nseg ≠ 1 → chunks.map List.length
      = (pl.pieces (F.payload k)).map List.length) : chunks.flatten = F.payload k := by
  by_cases hn : pl.nseg = 1
  · rw [Fleet.Mix, if_pos hn] at h
    rw [h, List.flatten_singleton]
  · have hlengths := hlengths hn
    rw [Fleet.Mix, if_neg hn] at h
    have hchunks : chunks = pl.pieces (F.payload k) := by
      rw [List.forall₂_iff_get] at h
      obtain ⟨hcount, hpieces⟩ := h
      refine List.ext_getElem (by rw [pl.length_pieces, ← hcount, List.length_range]) ?_
      intro i hi hi'
      have hirange : i < (List.range pl.nseg).length := by rw [hcount]; exact hi
      obtain ⟨pl', hcut', hn', hlt, hchunk⟩ := hpieces i hirange hi
      have hipl : i < pl.nseg := by rwa [List.length_range] at hirange
      simp only [List.get_eq_getElem, List.getElem_range] at hlt hchunk
      have hpiece : (pl.pieces (F.payload k))[i] = slice pl.seg_b i (F.payload k) := by
        simp only [ShardPlan.pieces, List.getElem_map, List.getElem_range]
      -- the lengths of the two lists at this index
      have hlen := congrArg (fun l => l[i]?) hlengths
      simp only [List.getElem?_map, List.getElem?_eq_getElem hi, List.getElem?_eq_getElem hi',
        Option.map_some, Option.some.injEq] at hlen
      rw [hpiece, hchunk] at hlen
      rw [hpiece, hchunk]
      exact slice_eq_of_length_eq hcut.covers hcut'.covers hn hn' hipl hlt
        (hclash _ _ hcut hcut' hn hn') (hclash _ _ hcut' hcut hn' hn) hlen.symm
    rw [hchunks]
    exact hcut.covers.flatten_pieces

/-- The lengths that a native reader asks for are those of the pieces of the cut. -/
theorem NativeMetaOf.asked_lengths_eq {conn : NativeConnector} {rec : Bins} {len : ℕ}
    (h : NativeMetaOf F conn k pl rec len) (hn : pl.nseg ≠ 1) :
    NativeConnector.asked_lengths rec len = (pl.pieces (F.payload k)).map List.length := by
  have hP : 1 ≤ (F.payload k).length := by
    have hstarts := h.cut.covers.starts_inside hn
    omega
  have hslices := chunk_lengths_eq_slices (F.payload k) pl.seg_b 0 pl.nseg
  rw [Nat.zero_mul, Nat.zero_min] at hslices
  rw [NativeConnector.asked_lengths, h.nseg, if_neg hn, h.seg_b hP, h.total hP, hslices,
    ShardPlan.pieces, List.map_map, List.range_eq_range']
  rfl

/-- **A native read of cuts that do not clash** was asked for the payload and has copied it. -/
theorem nativeGetGathers_of_noClash {conn : NativeConnector} {key : Text}
    (hconn : F.connectors conn) (hkey : F.NativeKey conn key k) {buf buf' : Bytes} {len : ℕ}
    (hclash : F.NoClash conn.ns conn.set_name k)
    (h : NativeGetGathers (fleetProtocol F) conn k len buf (.ok buf')) :
    len = (F.payload k).length ∧ buf' = splice 0 (F.payload k) buf := by
  obtain ⟨rec, chunks, hres, hready, htotal, hchunks, hlengths, rfl⟩ := h buf' rfl
  obtain ⟨pl, hmeta⟩ := nativeMetaOf_of_resOk hconn hkey hres hready htotal
  have hmix := hchunks.mix hconn hkey hmeta
  refine ⟨hmeta.len_eq hmix hlengths, ?_⟩
  rw [hmix.flatten_of_lengths hmeta.cut hclash fun hn => hlengths.trans (hmeta.asked_lengths_eq hn)]

/-! ### A reader that is overtaken -/

section Overtaken

variable {conn : NativeConnector} {key : Text} {w : World} {bins : Bins}

/-- The loop over the segments splits after the first `m`, when these are all of full size. -/
theorem get_segments_split {len seg_b : ℕ} (hlen : len < 2 ^ 64) {m offset : ℕ}
    (h : offset + m * seg_b ≤ len) (buf : Bytes) (i n : ℕ) :
    conn.get_segments k len seg_b offset buf i (m + n)
      = (conn.get_segments k len seg_b offset buf i m).bind fun buf' =>
          conn.get_segments k len seg_b (offset + m * seg_b) buf' (i + m) n := by
  induction m generalizing offset buf i with
  | zero =>
    rw [Nat.zero_add, Nat.zero_mul]
    rfl
  | succ m ih =>
    rw [Nat.add_mul, Nat.one_mul] at h
    have hchunk : min seg_b (size_sub len offset) = seg_b := by
      rw [size_sub_of_le (by omega) hlen]
      omega
    -- one turn of the loop, whatever is left to go
    have hstep : ∀ r, conn.get_segments k len seg_b offset buf i (r + 1)
        = (conn.read_payload_record (segment_user_key k i) buf offset seg_b).bind fun x =>
          if x.1 then conn.get_segments k len seg_b (offset + seg_b) x.2 (i + 1) r
          else .raise (⟨"missing segment payload"⟩, x.2) := by
      intro r
      rw [NativeConnector.get_segments]
      rw [hchunk, Nat.mod_eq_of_lt (by omega)]
      rw [Prog.bind_eq]
      congr 1
      funext x
      rcases x with ⟨_ | _, buf'⟩ <;> rfl
    rw [show m + 1 + n = (m + n) + 1 by omega, hstep, hstep, Prog.bind_assoc]
    congr 1
    funext x
    split_ifs
    · rw [ih (by omega), show offset + seg_b + m * seg_b = offset + (m + 1) * seg_b by ring,
        show i + 1 + m = i + (m + 1) by omega]
    · rfl

/-- The first `m` pieces of a stored payload, when they are all of full size. -/
theorem StoredBy.run_first_segments {p : Bytes} (h : w.StoredBy ns set_name k p pl bins)
    (haddr : conn.Addresses ns set_name k) (hp : p.length < 2 ^ 32) (hn : pl.nseg ≠ 1) {m : ℕ}
    (hm : m < pl.nseg) {buf : Bytes} (hbuf : buf.length = p.length) :
    (conn.get_segments k p.length pl.seg_b 0 buf 0 m).run Op.perform w
      = (.ok (splice 0 (p.take (m * pl.seg_b)) buf), w) := by
  have hstart := h.covers.start_lt hn hm
  have hchunks : (List.range' 0 m).map (conn.segment_payload w k)
      = ((List.range m).map fun i => slice pl.seg_b i p).map some := by
    rw [List.map_map, ← List.range_eq_range']
    apply List.map_congr_left
    intro i hi
    exact h.segment_payload_eq haddr hn (by rw [List.mem_range] at hi; omega)
  have hlengths : ((List.range m).map fun i => slice pl.seg_b i p).map List.length
      = chunk_lengths p.length pl.seg_b 0 m := by
    rw [chunk_lengths_of_le (by omega), List.map_map]
    refine List.eq_replicate_iff.mpr ⟨by rw [List.length_map, List.length_range], ?_⟩
    intro n hmem
    obtain ⟨i, hi, rfl⟩ := List.mem_map.mp hmem
    rw [List.mem_range] at hi
    exact length_slice_of_le _ _ _ (le_of_lt (h.covers.end_lt (by omega)))
  rw [run_get_segments (by omega) (Nat.zero_le _) (by omega) hchunks hlengths,
    ← List.flatMap_def, flatMap_slice]

/-- A native reader of a stored payload has read the meta record and the first pieces. -/
theorem comesTo_first_segments {p : Bytes} (h : w.StoredBy ns set_name k p pl bins)
    (haddr : conn.Addresses ns set_name k)
    (hkey : native_key_to_cache_engine_key key conn.dtype = .ok k) (hp : p.length < 2 ^ 32)
    (hn : pl.nseg ≠ 1) {m : ℕ} (hm : m + 1 = pl.nseg) {buf : Bytes}
    (hbuf : buf.length = p.length) :
    client.ComesTo (conn.do_single_get key buf p.length) w
      (conn.get_segments k p.length pl.seg_b (m * pl.seg_b)
        (splice 0 (p.take (m * pl.seg_b)) buf) m 1) w := by
  have hstart := h.covers.start_lt hn (show m < pl.nseg by omega)
  have hp₁ : 1 ≤ p.length := by omega
  have haccepted := h.accepted haddr hp₁ hp
  obtain ⟨r, hr, hbins⟩ := haccepted.found
  have hread : client.Outcome (.get (conn.as_key (meta_user_key k))) w (.ok bins) w := by
    have hout := perform_outcome (.get (conn.as_key (meta_user_key k))) w
    rwa [perform_get_found hr, hbins] at hout
  have hrest : conn.get_with_record k buf p.length bins
      = (conn.get_segments k p.length pl.seg_b 0 buf 0 m).bind fun buf' =>
          conn.get_segments k p.length pl.seg_b (m * pl.seg_b) buf' m 1 := by
    rw [get_with_record_eq haccepted.ready haccepted.total, h.meta_nseg_eq hp₁ hp, if_neg hn,
      h.meta_seg_b_eq hp₁ hp, ← hm, get_segments_split (by omega) (by omega)]
    simp only [Nat.zero_add]
  have hfirst := exec_run_perform (conn.get_segments k p.length pl.seg_b 0 buf 0 m) w
  rw [StoredBy.run_first_segments h haddr hp hn (by omega) hbuf] at hfirst
  rw [do_single_get_eq hkey]
  refine .answered hread ?_
  show client.ComesTo (conn.get_with_record k buf p.length bins) w _ w
  rw [hrest]
  exact Device.comesTo_of_exec _ hfirst

/-- The last piece, read after a writer of the other cut has overtaken the reader. -/
theorem run_clashing_segment {p : Bytes} {small : ShardPlan}
    (h : w.StoredBy ns set_name k p small bins) (haddr : conn.Addresses ns set_name k)
    (hcov : pl.Covers p.length) (hp : p.length < 2 ^ 32) (hn : pl.nseg ≠ 1)
    (hn' : small.nseg ≠ 1) (hclash : CutsClash p pl small) {buf : Bytes}
    (hbuf : buf.length = p.length) :
    (conn.get_segments k p.length pl.seg_b ((pl.nseg - 1) * pl.seg_b) buf (pl.nseg - 1) 1).run
        Op.perform w
      = (.ok (splice ((pl.nseg - 1) * pl.seg_b) (slice small.seg_b (pl.nseg - 1) p) buf), w) := by
  have hle := hcov.nseg_le h.covers hn (le_of_lt hclash.shorter)
  have hlast := hclash.last
  have hshort := hclash.shorter
  have hpos := hcov.nseg_pos
  have hmul : (pl.nseg - 1) * small.seg_b ≤ (pl.nseg - 1) * pl.seg_b :=
    Nat.mul_le_mul_left _ (le_of_lt hshort)
  have hlength : (slice small.seg_b (pl.nseg - 1) p).length = small.seg_b := by
    rw [length_slice]
    omega
  have hchunks : (List.range' (pl.nseg - 1) 1).map (conn.segment_payload w k)
      = [slice small.seg_b (pl.nseg - 1) p].map some := by
    rw [List.range'_one, List.map_singleton, List.map_singleton,
      h.segment_payload_eq haddr hn' (by omega)]
  have hlengths : [slice small.seg_b (pl.nseg - 1) p].map List.length
      = chunk_lengths p.length pl.seg_b ((pl.nseg - 1) * pl.seg_b) 1 := by
    rw [List.map_singleton, hlength, chunk_lengths, chunk_lengths, List.singleton_inj]
    omega
  rw [run_get_segments (by omega) (by omega) (by omega) hchunks hlengths,
    List.flatten_singleton]

end Overtaken

/-- Every native read of `k` that returns was asked for the payload and has copied it, in every
interleaving. -/
def Fleet.NativeReadsDeliver (F : Fleet) (conn : NativeConnector) (key k : Text) : Prop :=
  ∀ c : Pool client FleetOp FleetExc FleetResult,
    Pool.Reachable Expiry FleetOp.prog F.Allows World.empty c → ∀ buf len buf',
      Thread.at (.native_get conn key buf len) (.ret (.copied buf')) ∈ c.threads →
      len = (F.payload k).length ∧ buf' = splice 0 (F.payload k) buf

/-- **A reader that is overtaken** by a writer whose cut clashes with the one it has begun to
read returns bytes of both. -/
theorem overtaken_reachable {conn : NativeConnector} {key : Text} (hconn : F.connectors conn)
    (hkey : F.NativeKey conn key k) {big small : ShardPlan}
    (hbig : F.Cut conn.ns conn.set_name k big) (hsmall : F.Cut conn.ns conn.set_name k small)
    (hn : big.nseg ≠ 1) (hn' : small.nseg ≠ 1) (hclash : CutsClash (F.payload k) big small)
    {buf : Bytes} (hbuf : buf.length = (F.payload k).length) :
    ∃ c : Pool client FleetOp FleetExc FleetResult,
      Pool.Reachable Expiry FleetOp.prog F.Allows World.empty c ∧
      Thread.at (.native_get conn key buf (F.payload k).length) (.ret (.copied
        (splice 0 ((F.payload k).take ((big.nseg - 1) * big.seg_b)
          ++ slice small.seg_b (big.nseg - 1) (F.payload k)) buf))) ∈ c.threads := by
  have hshort := hkey.short
  have haddr := hkey.addresses hconn
  have hcov := hbig.covers
  have hpos := hcov.nseg_pos
  have hlast := hclash.last
  have hget : F.Allows (.native_get conn key buf (F.payload k).length) := by
    refine ⟨⟨hconn, fun ck hck => ?_⟩, by omega, by omega⟩
    rw [hkey.reads] at hck
    cases hck
    exact hkey
  -- the writer of the longer pieces completes
  obtain ⟨opA, hA, rA, w₁, binsA, hexecA, hstoredA⟩ := hbig.completes World.empty
  have hstart : Pool.Reachable Expiry FleetOp.prog F.Allows World.empty
      (⟨World.empty, []⟩ : Pool client FleetOp FleetExc FleetResult) :=
    Relation.ReflTransGen.refl
  have hwritten := Pool.reachable_exec hstart opA hA hexecA
  -- the reader comes to its last piece
  have hpaused := comesTo_first_segments hstoredA haddr hkey.reads hshort hn
    (m := big.nseg - 1) (by omega) hbuf
  -- the writer of the shorter pieces overtakes it
  obtain ⟨opB, hB, rB, w₂, binsB, hexecB, hstoredB⟩ := hsmall.completes w₁
  have hfull : (splice 0 ((F.payload k).take ((big.nseg - 1) * big.seg_b)) buf).length
      = (F.payload k).length := by
    rw [length_splice _ _ _ (by rw [List.length_take]; omega), hbuf]
  have hrest := exec_run_perform (conn.get_segments k (F.payload k).length big.seg_b
    ((big.nseg - 1) * big.seg_b)
    (splice 0 ((F.payload k).take ((big.nseg - 1) * big.seg_b)) buf) (big.nseg - 1) 1) w₂
  rw [run_clashing_segment hstoredB haddr hcov hshort hn hn' hclash hfull] at hrest
  have htake : ((F.payload k).take ((big.nseg - 1) * big.seg_b)).length
      = (big.nseg - 1) * big.seg_b := by
    rw [List.length_take]
    omega
  have hjoin := splice_append 0 ((F.payload k).take ((big.nseg - 1) * big.seg_b))
    (slice small.seg_b (big.nseg - 1) (F.payload k)) buf (Nat.zero_le _)
  rw [Nat.zero_add, htake] at hjoin
  rw [hjoin] at hrest
  exact ⟨_, Pool.reachable_overtaken hwritten hget hB
    (Device.comesTo_bind (Device.comesTo_mapError hpaused _) _) hexecB
    (client.exec_bind_ret _ (client.exec_mapError _ hrest)), List.mem_cons_self⟩

/-- **When native readers are safe.**  In a fleet whose members have limits of their own, every
native read of a key that returns was asked for the payload and has copied it, in every
interleaving, if and only if no two cuts of the payload clash: in no two does the last, short
piece of one have the full length of a piece of the other, at an index where the bytes
differ. -/
theorem native_reads_deliver_iff (F : Fleet) (conn : NativeConnector) (key k : Text)
    (hconn : F.connectors conn) (hkey : F.NativeKey conn key k) :
    F.NativeReadsDeliver conn key k ↔ F.NoClash conn.ns conn.set_name k := by
  constructor
  · intro hsafe big small hbig hsmall hn hn' hclash
    have hbuf : (List.replicate (F.payload k).length (0 : UInt8)).length
        = (F.payload k).length := List.length_replicate
    obtain ⟨c, hrun, hmem⟩ := overtaken_reachable hconn hkey hbig hsmall hn hn' hclash hbuf
    obtain ⟨-, heq⟩ := hsafe c hrun _ _ _ hmem
    have hfront : (F.payload k).take ((big.nseg - 1) * big.seg_b)
        ++ slice small.seg_b (big.nseg - 1) (F.payload k) = F.payload k := by
      have hcov := hbig.covers
      have hlength : ((F.payload k).take ((big.nseg - 1) * big.seg_b)
          ++ slice small.seg_b (big.nseg - 1) (F.payload k)).length = (F.payload k).length := by
        have hlast := hclash.last
        have hmul : (big.nseg - 1) * small.seg_b ≤ (big.nseg - 1) * big.seg_b :=
          Nat.mul_le_mul_left _ (le_of_lt hclash.shorter)
        rw [List.length_append, List.length_take, length_slice]
        omega
      have hhead := congrArg (List.take (F.payload k).length) heq
      rwa [splice_zero, splice_zero, List.take_left' hlength, List.take_left' rfl] at hhead
    -- so the piece that was copied is the one that should have been
    apply hclash.differ
    have hback := congrArg (List.drop ((big.nseg - 1) * big.seg_b)) hfront
    have hlast := hclash.last
    rw [List.drop_left' (by rw [List.length_take]; omega)] at hback
    rw [hback, slice, List.take_of_length_le]
    have hshorter := hclash.shorter
    rw [List.length_drop]
    omega
  · intro hclash c hc buf len buf' hcopied
    obtain ⟨-, -, hgathers⟩ := ((fleetProtocol F).reachable fleet_safe (World.each_empty _) hc).2 _
      hcopied buf' k rfl hkey.reads
    exact nativeGetGathers_of_noClash hconn hkey hclash hgathers

/-- The connector of the examples, with segments of `target` bytes. -/
def connectorOf (target : ℕ) (hpos : 0 < target) : NativeConnector :=
  { nativeExample with limits := ⟨target, target, target, hpos, le_rfl, rfl⟩ }

/-- Two connectors that write fourteen bytes, in pieces of five and in pieces of four. -/
def unevenFleet : Fleet where
  payload := fun _ => [0, 1, 2, 3, 4, 5, 6, 7, 8, 9, 10, 11, 12, 13]
  engines := fun _ => False
  connectors := fun conn => conn = connectorOf 5 (by decide) ∨ conn = connectorOf 4 (by decide)
  lawful := fun _ h => h.elim
  names := by
    rintro conn (rfl | rfl) <;> exact ⟨by decide, by decide⟩

theorem unevenFleet_nativeKey {conn : NativeConnector} (hdtype : conn.dtype = nativeExample.dtype) :
    unevenFleet.NativeKey conn "m@01000000@0a".toList "m@1@0@a@bfloat16".toList where
  reads := by
    rw [hdtype]
    decide
  no_nul := by decide
  short := by
    show ([0, 1, 2, 3, 4, 5, 6, 7, 8, 9, 10, 11, 12, 13] : Bytes).length < 2 ^ 32
    decide

/-- The pieces `5 + 5 + 4` and `4 + 4 + 4 + 2` clash at the third, so some interleaving hands a
native reader wrong bytes. -/
theorem native_reads_deliver_iff_uneven :
    ¬ unevenFleet.NativeReadsDeliver (connectorOf 5 (by decide)) "m@01000000@0a".toList
      "m@1@0@a@bfloat16".toList := by
  have hfive : unevenFleet.connectors (connectorOf 5 (by decide)) := Or.inl rfl
  have hfour : unevenFleet.connectors (connectorOf 4 (by decide)) := Or.inr rfl
  rw [native_reads_deliver_iff unevenFleet _ _ _ hfive (unevenFleet_nativeKey rfl)]
  intro hclash
  refine hclash ⟨3, 5⟩ ⟨4, 4⟩ ?_ ?_ (by decide) (by decide) ⟨by decide, by decide, by decide⟩
  · exact .native _ _ hfive rfl rfl (unevenFleet_nativeKey rfl) (by decide)
  · exact .native _ _ hfour rfl rfl (unevenFleet_nativeKey rfl) (by decide)

end FleetCuts
