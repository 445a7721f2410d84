/-
# A put that stops before its meta write

A writer that crashes after some of its segment writes leaves the old meta record over a
mixture of new and old segments.  When both cuts of the payload are the same the mixture
spells the payload; when they differ the pieces do not add up, and a reader that does not
check CRCs returns them all the same, since it never compares `total_written` with
`tot_b` (`interrupted_put_iff`).
-/
import LmcacheAerospike.RoundTrip

/-! ## Where a put may stop -/

/-- The writes of the segments `written` of a put, in the order in which they were applied. -/
def Engine.put_segments (eng : Engine) (ck : Text) (mo : MemoryObj) (pinned : Bool)
    (written : List ℕ) : List Write :=
  match eng.resolved.shard_plan mo.byte_array.length with
  | .ok pl => if pl.nseg = 1 then []
      else (written.filter (· < pl.nseg)).map
        (eng.segment_write ck mo.byte_array pl.seg_b (eng.ttl_value pinned))
  | .error _ => []

/-- The store after the segment writes `written` of a put that went no further. -/
def Engine.put_stopped (eng : Engine) (ck : Text) (mo : MemoryObj) (pinned : Bool)
    (written : List ℕ) (w : World) : World :=
  (eng.put_segments ck mo pinned written).foldl World.applyWrite w

/-- Some items of a batch of writes, performed in any order, are a session of it. -/
theorem micros_writes_at {n : ℕ} (f : ℕ → Write) {written : List ℕ} (hnodup : written.Nodup)
    (hlt : ∀ i ∈ written, i < n) (w : World) :
    ∃ s, client.Micros (.batch_write (((List.range n).map f).map .write))
      (client.start (.batch_write (((List.range n).map f).map .write)), w)
      (s, (written.map f).foldl World.applyWrite w) := by
  have hitems : Op.items (.batch_write (((List.range n).map f).map .write))
      = (List.range n).map fun i => RecOp.write (f i) := by
    simp only [Op.items, List.map_map]
    rfl
  have hplaces : ((written.map fun i => (i, RecOp.write (f i))).map Prod.fst).Nodup := by
    rwa [List.map_map, show Prod.fst ∘ (fun i => (i, RecOp.write (f i))) = id from rfl,
      List.map_id]
  have hsession : ∃ s, client.Micros (.batch_write (((List.range n).map f).map .write))
      (client.start (.batch_write (((List.range n).map f).map .write)), w)
      (s, (written.map fun i => (i, RecOp.write (f i))).foldl
        (fun w x => (x.2.perform w).2) w) := by
    have hperform : ∀ (op : RecOp) (w : World), Faulty op w (op.perform w).1 (op.perform w).2 :=
      fun _ _ => Or.inl rfl
    refine Device.itemwise_micros_at hperform hplaces (fun x hx => ?_) w
    obtain ⟨i, hi, rfl⟩ := List.mem_map.mp hx
    rw [hitems, List.getElem?_map, List.getElem?_range (hlt i hi)]
    rfl
  rw [List.foldl_map] at hsession ⊢
  exact hsession

/-- **A put may crash after any of its segment writes.** -/
theorem put_stopped_reachable {L α : Type} {env : World → World → Prop}
    {prog : L → EngineM α} {allowed : L → Prop} (eng : Engine) (ck : Text) (mo : MemoryObj)
    (pinned : Bool) (f : Unit → EngineM α) (l : L) (ts : List (Thread client L PyExc α))
    {written : List ℕ} (hnodup : written.Nodup) (w : World) :
    Relation.ReflTransGen (Pool.Step env prog allowed)
      ⟨w, .at l ((eng.put ck mo pinned).bind f) :: ts⟩
      ⟨eng.put_stopped ck mo pinned written w, ts⟩ := by
  have hcrash : ∀ p, Relation.ReflTransGen (Pool.Step env prog allowed)
      (⟨w, .at l p :: ts⟩ : Pool client L PyExc α) ⟨w, ts⟩ := fun p =>
    Relation.ReflTransGen.single (Pool.Step.crash (f := []) _)
  unfold Engine.put_stopped Engine.put_segments
  cases hplan : eng.resolved.shard_plan mo.byte_array.length with
  | error e => exact hcrash _
  | ok pl =>
    dsimp only
    by_cases hn : pl.nseg = 1
    · rw [if_pos hn]
      exact hcrash _
    · have htime : client.Outcome .time w w.now w := perform_outcome .time w
      have hbatch : ∃ k, ((eng.put_records ck mo pl pinned w.now).tryCatch
          (Engine.reraise "put" fun _ => eng.put_too_big mo.byte_array.length)).bind f
          = .call (.batch_write ((eng.segment_writes ck mo.byte_array pl
              (eng.ttl_value pinned)).map .write)) k := by
        unfold Engine.put_records
        rw [if_neg hn]
        exact ⟨_, rfl⟩
      obtain ⟨k, hk⟩ := hbatch
      obtain ⟨s, hms⟩ := micros_writes_at
        (eng.segment_write ck mo.byte_array pl.seg_b (eng.ttl_value pinned))
        (hnodup.filter (· < pl.nseg)) (fun i hi => of_decide_eq_true (List.mem_filter.mp hi).2) w
      rw [if_neg hn, put_planned hplan]
      refine (Pool.steps_of_outcome l ts _ htime).trans ?_
      rw [hk]
      exact Pool.steps_of_crash l ts k hms

/-! ## What the stopped put leaves to be read -/

/-- Every `get` of `ck` by an engine of this namespace and set that does not check CRCs
delivers `p`, whenever it returns an object. -/
def DeliversOnly (ns set_name ck : Text) (p : Bytes) (w : World) : Prop :=
  ∀ (reader : Engine) (preallocated : Option MemoryObj) (hit : Hit) (w' : World),
    reader.cfg.ns = ns → reader.cfg.set_name = set_name → reader.cfg.enable_crc32 = false →
    reader.LawfulMemory →
    client.Exec (reader.get ck preallocated) w (.ok (some hit)) w' →
    hit.Delivers reader preallocated p

/-- The pieces of the cut `pl`, where those that are `written` are the ones of `pl'`. -/
def mixedPieces (pl pl' : ShardPlan) (written : List ℕ) (p : Bytes) : List Bytes :=
  (List.range pl.nseg).map fun i =>
    if i ∈ written ∧ i < pl'.nseg then slice pl'.seg_b i p else slice pl.seg_b i p

theorem length_mixedPieces (pl pl' : ShardPlan) (written : List ℕ) (p : Bytes) :
    (mixedPieces pl pl' written p).length = pl.nseg := by
  rw [mixedPieces, List.length_map, List.length_range]

/-- When the first `j` pieces are written, the mixture is a front of the payload and a back
of it. -/
theorem flatten_mixedPieces_range {pl : ShardPlan} {p : Bytes} (hcov : pl.Covers p.length)
    (pl' : ShardPlan) (j : ℕ) :
    (mixedPieces pl pl' (List.range j) p).flatten
      = p.take (min (min j pl'.nseg) pl.nseg * pl'.seg_b)
        ++ p.drop (min (min j pl'.nseg) pl.nseg * pl.seg_b) := by
  rw [mixedPieces, ← List.flatMap_def,
    ← flatMap_slice_mixed _ _ _ _ _ (Nat.min_le_right _ _) hcov.reaches_end]
  apply List.flatMap_congr
  intro i hi
  rw [List.mem_range] at hi
  have hfront : i ∈ List.range j ∧ i < pl'.nseg ↔ i < min (min j pl'.nseg) pl.nseg := by
    rw [List.mem_range]
    omega
  rw [if_congr hfront rfl rfl]

section Stopped

variable {eng₁ eng₂ : Engine} {ck : Text} {mo₂ : MemoryObj} {pinned₂ : Bool}
  {pl₁ pl₂ : ShardPlan} {w' : World} {written : List ℕ}

theorem put_segments_eq (hplan : eng₂.resolved.shard_plan mo₂.byte_array.length = .ok pl₂)
    (hn : pl₂.nseg ≠ 1) :
    eng₂.put_segments ck mo₂ pinned₂ written = (written.filter (· < pl₂.nseg)).map
      (eng₂.segment_write ck mo₂.byte_array pl₂.seg_b (eng₂.ttl_value pinned₂)) := by
  rw [Engine.put_segments, hplan]
  exact if_neg hn

theorem put_segments_keys (hplan : eng₂.resolved.shard_plan mo₂.byte_array.length = .ok pl₂)
    (hn : pl₂.nseg ≠ 1) :
    (eng₂.put_segments ck mo₂ pinned₂ written).map Write.key
      = (written.filter (· < pl₂.nseg)).map (eng₂.segmentKey ck) := by
  rw [put_segments_eq hplan hn, List.map_map]
  rfl

/-- A put of one record has no segments to write. -/
theorem put_stopped_single
    (hplan : ∀ pl, eng₂.resolved.shard_plan mo₂.byte_array.length = .ok pl → pl.nseg = 1) :
    eng₂.put_stopped ck mo₂ pinned₂ written w' = w' := by
  rw [Engine.put_stopped, Engine.put_segments]
  cases hpl : eng₂.resolved.shard_plan mo₂.byte_array.length with
  | error e => rfl
  | ok pl =>
    dsimp only
    rw [if_pos (hplan pl hpl)]
    rfl

/-- The meta record is not touched before the meta write. -/
theorem put_stopped_meta (hplan : eng₂.resolved.shard_plan mo₂.byte_array.length = .ok pl₂)
    (hn : pl₂.nseg ≠ 1) (ns set_name key : Text) :
    (eng₂.put_stopped ck mo₂ pinned₂ written w').records (meta_key ns set_name key)
      = w'.records (meta_key ns set_name key) := by
  apply foldl_applyWrite_of_notMem
  rw [put_segments_keys hplan hn]
  intro hmem
  obtain ⟨i, -, hi⟩ := List.mem_map.mp hmem
  exact meta_key_ne_segment_key _ _ _ _ _ _ _ hi.symm

/-- **What a stopped put leaves**: under the old meta record, the pieces of the old cut, of
which some have been replaced by those of the new one. -/
theorem stopped_holds (hnodup : written.Nodup) {bins : Bins}
    (hns : eng₂.cfg.ns = eng₁.cfg.ns) (hset : eng₂.cfg.set_name = eng₁.cfg.set_name)
    {p : Bytes} (hp : mo₂.byte_array = p)
    (hholds : w'.Holds eng₁.cfg.ns eng₁.cfg.set_name ck (pl₁.pieces p) bins)
    (hplan : eng₂.resolved.shard_plan mo₂.byte_array.length = .ok pl₂)
    (hn₁ : pl₁.nseg ≠ 1) (hn₂ : pl₂.nseg ≠ 1) :
    (eng₂.put_stopped ck mo₂ pinned₂ written w').Holds eng₁.cfg.ns eng₁.cfg.set_name ck
      (mixedPieces pl₁ pl₂ written p) bins where
  found := by
    rw [put_stopped_meta hplan hn₂]
    exact hholds.found
  state := hholds.state
  nseg := by
    rw [length_mixedPieces, ← pl₁.length_pieces p]
    exact hholds.nseg
  inline := fun hn => absurd (by rwa [length_mixedPieces] at hn) hn₁
  segment := fun _ i hi => by
    rw [length_mixedPieces] at hi
    have hkey : segment_key eng₁.cfg.ns eng₁.cfg.set_name ck i = eng₂.segmentKey ck i := by
      rw [Engine.segmentKey, hns, hset]
    simp only [mixedPieces, List.get_eq_getElem, List.getElem_map, List.getElem_range]
    by_cases hwritten : i ∈ written ∧ i < pl₂.nseg
    · -- a segment that the second writer has written
      rw [if_pos hwritten]
      have hkeys : ((eng₂.put_segments ck mo₂ pinned₂ written).map Write.key).Nodup := by
        rw [put_segments_keys hplan hn₂]
        exact (hnodup.filter _).map fun i j hij => (segment_key_inj hij).2
      have hmem : eng₂.segment_write ck mo₂.byte_array pl₂.seg_b (eng₂.ttl_value pinned₂) i
          ∈ eng₂.put_segments ck mo₂ pinned₂ written := by
        rw [put_segments_eq hplan hn₂]
        exact List.mem_map_of_mem (List.mem_filter.mpr ⟨hwritten.1, decide_eq_true hwritten.2⟩)
      have hrecord : (eng₂.put_stopped ck mo₂ pinned₂ written w').records
          (eng₂.segmentKey ck i) = _ := foldl_applyWrite_of_mem _ w' hkeys hmem
      rw [hkey, hrecord]
      refine ⟨_, rfl, ?_⟩
      rw [segment_write_b, hp]
    · -- a segment of the first writer
      rw [if_neg hwritten]
      have hnotMem : segment_key eng₁.cfg.ns eng₁.cfg.set_name ck i
          ∉ (eng₂.put_segments ck mo₂ pinned₂ written).map Write.key := by
        rw [put_segments_keys hplan hn₂]
        intro hmem
        obtain ⟨m, hm, hmi⟩ := List.mem_map.mp hmem
        obtain ⟨-, rfl⟩ := segment_key_inj hmi
        rw [List.mem_filter, decide_eq_true_iff] at hm
        exact hwritten hm
      rw [Engine.put_stopped, foldl_applyWrite_of_notMem _ _ hnotMem]
      have hlen : i < (pl₁.pieces p).length := by rwa [pl₁.length_pieces]
      obtain ⟨r, hr, hb⟩ := hholds.segment (by rwa [pl₁.length_pieces]) i hlen
      refine ⟨r, hr, ?_⟩
      simpa only [ShardPlan.pieces, List.get_eq_getElem, List.getElem_map,
        List.getElem_range] using hb

end Stopped

/-! ## When the mixture is harmless -/

/-- The pieces under the meta record of `LA`, some of them `written` under `LB`, still spell
the payload.  Where one of the two has no segments, none has been replaced. -/
def PiecesSpell (LA LB : ResolvedLimits) (p : Bytes) (written : List ℕ) : Prop :=
  ∀ plA plB, LA.shard_plan p.length = .ok plA → LB.shard_plan p.length = .ok plB →
    plA.nseg ≠ 1 → plB.nseg ≠ 1 → (mixedPieces plA plB written p).flatten = p

/-- The put under `LB` that stops after its first `j` segment writes cannot spoil the one
under `LA`: it wrote nothing, one of the two has no segments, or both make the same cut. -/
def CutsAgree (LA LB : ResolvedLimits) (P j : ℕ) : Prop :=
  j = 0 ∨ ∀ plA plB, LA.shard_plan P = .ok plA → LB.shard_plan P = .ok plB →
    plA.nseg = 1 ∨ plB.nseg = 1 ∨ plA = plB

/-- **When the first segments were written, only equal cuts spell the payload**: the pieces
of two different cuts never add up to its length. -/
theorem piecesSpell_range_iff (LA LB : ResolvedLimits) (p : Bytes) (j : ℕ) :
    PiecesSpell LA LB p (List.range j) ↔ CutsAgree LA LB p.length j := by
  constructor
  · intro hspell
    rcases Nat.eq_zero_or_pos j with hj | hj
    · exact Or.inl hj
    · apply Or.inr
      intro plA plB hA hB
      have hcovA := plan_covers _ _ _ _ _ _ hA
      have hcovB := plan_covers _ _ _ _ _ _ hB
      by_contra hne
      simp only [not_or] at hne
      obtain ⟨hnA, hnB, hne⟩ := hne
      -- if they spelled the payload, they would have its length
      have hlen := congrArg List.length (hspell plA plB hA hB hnA hnB)
      rw [flatten_mixedPieces_range hcovA, List.length_append, List.length_take,
        List.length_drop] at hlen
      have h₁ := hcovA.nseg_pos
      have h₂ := hcovB.nseg_pos
      exact hcovA.mixed_length_ne hcovB hnA hnB hne (by omega) (Nat.min_le_right _ _)
        (by omega) hlen
  · intro hcuts plA plB hA hB hnA hnB
    rw [flatten_mixedPieces_range (plan_covers _ _ _ _ _ _ hA)]
    rcases hcuts with rfl | hcuts
    · rw [Nat.zero_min, Nat.zero_min, Nat.zero_mul, Nat.zero_mul]
      rfl
    · rcases hcuts plA plB hA hB with h | h | rfl
      · exact absurd h hnA
      · exact absurd h hnB
      · exact List.take_append_drop _ _

theorem deliversOnly_of_holds {ns set_name ck : Text} {pieces : List Bytes} {bins : Bins}
    {w : World} (h : w.Holds ns set_name ck pieces bins) :
    DeliversOnly ns set_name ck pieces.flatten w := by
  intro reader preallocated hit w' hns hset _ heng hexec
  subst hns hset
  exact exec_get_delivers h heng hexec

/-- An engine like `eng` over fakes, without the CRC check. -/
def fakeReader (eng : Engine) : Engine :=
  { fakeEngine eng.resolved false false 0 with
    cfg := { eng.cfg with enable_crc32 := false } }

theorem fakeReader_lawful (eng : Engine) : (fakeReader eng).LawfulMemory where
  frombuffer_eq := (fakeEngine_lawful eng.resolved false false 0).frombuffer_eq
  reshape_take := (fakeEngine_lawful eng.resolved false false 0).reshape_take

/-- Some reader without CRC check reads whatever the store holds. -/
theorem fakeReader_hits (eng : Engine) {ck : Text} {pieces : List Bytes} {bins : Bins}
    {w : World} (h : w.Holds eng.cfg.ns eng.cfg.set_name ck pieces bins) :
    ∃ buf hit, client.Exec ((fakeReader eng).get ck (some buf)) w (.ok (some hit)) w ∧
      hit.Fills buf pieces.flatten := by
  have hread : w.Holds (fakeReader eng).cfg.ns (fakeReader eng).cfg.set_name ck pieces bins := h
  have hbuf : (fakeReader eng).receive_buffer bins (some (.zeros pieces.flatten.length))
      = .ok (some (.zeros pieces.flatten.length), false) := rfl
  obtain ⟨hit, hrun, hfills⟩ := run_get_hit hread hbuf ((fakeReader eng).receives_zeros pieces)
    rfl (fun h => by cases h)
  refine ⟨_, hit, ?_, hfills⟩
  have hexec := exec_run_perform ((fakeReader eng).get ck
    (some (.zeros pieces.flatten.length))) w
  rwa [hrun] at hexec

/-- So what every reader delivers is what the records hold. -/
theorem flatten_of_deliversOnly {eng : Engine} {ck : Text} {pieces : List Bytes} {bins : Bins}
    {p : Bytes} {w : World} (h : w.Holds eng.cfg.ns eng.cfg.set_name ck pieces bins)
    (hsafe : DeliversOnly eng.cfg.ns eng.cfg.set_name ck p w) : pieces.flatten = p := by
  obtain ⟨buf, hit, hexec, hfills⟩ := fakeReader_hits eng h
  obtain ⟨_, _, _, _, hdelivers⟩ :=
    hsafe (fakeReader eng) _ _ _ rfl rfl rfl (fakeReader_lawful eng) hexec
  exact hfills.unique hdelivers

section Interrupted

variable {engA engB : Engine} {ck : Text} {moA moB : MemoryObj} {pinnedA pinnedB : Bool}
  {w w' : World}

/-- **Whichever segments the second writer has written**: every `get` delivers the payload if
and only if the pieces under the old meta record still spell it. -/
theorem deliversOnly_stopped_iff (hns : engB.cfg.ns = engA.cfg.ns)
    (hset : engB.cfg.set_name = engA.cfg.set_name) (hp : moB.byte_array = moA.byte_array)
    (hput : client.Exec (engA.put ck moA pinnedA) w (.ok ()) w') {written : List ℕ}
    (hnodup : written.Nodup) :
    DeliversOnly engA.cfg.ns engA.cfg.set_name ck moA.byte_array
        (engB.put_stopped ck moB pinnedB written w') ↔
      PiecesSpell engA.resolved engB.resolved moA.byte_array written := by
  obtain ⟨plA, now, hplanA, hdone⟩ := exec_put_ok hput
  have hcovA := plan_covers _ _ _ _ _ _ hplanA
  have hholds := hdone.holds hcovA
  constructor
  · intro hsafe plA' plB hplanA' hplanB hnA hnB
    obtain rfl : plA = plA' := Except.ok.inj (hplanA.symm.trans hplanA')
    rw [← hp] at hplanB
    exact flatten_of_deliversOnly (stopped_holds hnodup hns hset hp hholds hplanB hnA hnB) hsafe
  · intro hspell
    by_cases hB : ∀ pl, engB.resolved.shard_plan moB.byte_array.length = .ok pl → pl.nseg = 1
    · -- the second writer has nothing to write before its meta record
      rw [put_stopped_single hB, ← hcovA.flatten_pieces]
      exact deliversOnly_of_holds hholds
    · simp only [not_forall] at hB
      obtain ⟨plB, hplanB, hnB⟩ := hB
      by_cases hnA : plA.nseg = 1
      · -- the reader of an inline payload looks at no segment
        have hstopped : (engB.put_stopped ck moB pinnedB written w').Holds engA.cfg.ns
            engA.cfg.set_name ck (plA.pieces moA.byte_array)
            (engA.metaBins ck moA plA pinnedA now w) :=
          hholds.congr (put_stopped_meta hplanB hnB _ _ ck) fun hlen =>
            absurd ((plA.length_pieces moA.byte_array).trans hnA) hlen
        rw [← hcovA.flatten_pieces]
        exact deliversOnly_of_holds hstopped
      · have hstopped : (engB.put_stopped ck moB pinnedB written w').Holds engA.cfg.ns
            engA.cfg.set_name ck (mixedPieces plA plB written moA.byte_array) _ :=
          stopped_holds hnodup hns hset hp hholds hplanB hnA hnB
        rw [hp] at hplanB
        rw [← hspell plA plB hplanA hplanB hnA hnB]
        exact deliversOnly_of_holds hstopped

end Interrupted

/-- **When an interrupted second put leaves a readable first one.**  `engA` completes the put
of a payload, over any store; then `engB` starts the put of the same payload and stops before
its meta write.  Every `get` without CRC check that returns an object delivers the payload if
and only if, when the segment writes were the first `j`, the two cuts agree, and in general,
when they were any of them in any order, the pieces under the meta record still spell it. -/
theorem interrupted_put_iff (engA engB : Engine) (ck : Text)
    (hns : engB.cfg.ns = engA.cfg.ns) (hset : engB.cfg.set_name = engA.cfg.set_name)
    (moA moB : MemoryObj) (hp : moB.byte_array = moA.byte_array) (pinnedA pinnedB : Bool)
    (w w' : World) (hput : client.Exec (engA.put ck moA pinnedA) w (.ok ()) w') :
    (∀ j, DeliversOnly engA.cfg.ns engA.cfg.set_name ck moA.byte_array
        (engB.put_stopped ck moB pinnedB (List.range j) w') ↔
      CutsAgree engA.resolved engB.resolved moA.byte_array.length j) ∧
    ∀ written : List ℕ, written.Nodup →
      (DeliversOnly engA.cfg.ns engA.cfg.set_name ck moA.byte_array
          (engB.put_stopped ck moB pinnedB written w') ↔
        PiecesSpell engA.resolved engB.resolved moA.byte_array written) := by
  constructor
  · intro j
    rw [← piecesSpell_range_iff]
    exact deliversOnly_stopped_iff hns hset hp hput List.nodup_range
  · intro written hnodup
    exact deliversOnly_stopped_iff hns hset hp hput hnodup

/-- After a change of the server's limits that leaves the cut as it was, the interrupted put
is harmless. -/
theorem interrupted_put_same_cut :
    ∃ w', client.Exec ((fakeEngine (.ofTarget 2) false true 8).put "k".toList
        { byte_array := [1, 2, 3, 4] } false) World.empty (.ok ()) w' ∧
      DeliversOnly "lmcache".toList "kv_chunks".toList "k".toList [1, 2, 3, 4]
        ((fakeEngine ⟨100, 3, 3, 2, 2, 1⟩ false true 8).put_stopped "k".toList
          { byte_array := [1, 2, 3, 4] } false [0] w') := by
  have hput : client.Exec ((fakeEngine (.ofTarget 2) false true 8).put "k".toList
      { byte_array := [1, 2, 3, 4] } false) World.empty (.ok ()) _ := exec_run_perform _ _
  refine ⟨_, hput, ((interrupted_put_iff (fakeEngine (.ofTarget 2) false true 8)
    (fakeEngine ⟨100, 3, 3, 2, 2, 1⟩ false true 8) _ rfl rfl _ _ rfl _ _ _ _ hput).1 1).mpr
    (Or.inr fun plA plB hA hB => ?_)⟩
  cases hA
  cases hB
  exact Or.inr (Or.inr rfl)

/-- Four bytes in two pieces of two, and then a put in four pieces of one that stops after
its first segment write: a reader gets a hit of the three bytes `1, 3, 4`. -/
theorem interrupted_put_mixes :
    ∃ w', client.Exec ((fakeEngine (.ofTarget 2) false true 8).put "k".toList
        { byte_array := [1, 2, 3, 4] } false) World.empty (.ok ()) w' ∧
      ¬ DeliversOnly "lmcache".toList "kv_chunks".toList "k".toList [1, 2, 3, 4]
        ((fakeEngine (.ofTarget 1) false true 8).put_stopped "k".toList
          { byte_array := [1, 2, 3, 4] } false [0] w') := by
  have hput : client.Exec ((fakeEngine (.ofTarget 2) false true 8).put "k".toList
      { byte_array := [1, 2, 3, 4] } false) World.empty (.ok ()) _ := exec_run_perform _ _
  refine ⟨_, hput, fun hsafe => ?_⟩
  have hread : ∀ w, client.Exec ((fakeEngine (.ofTarget 2) false true 8).get "k".toList
      (some { byte_array := [0, 0, 0, 0] })) w _ _ := fun w => exec_run_perform _ w
  obtain ⟨_, _, _, _, hdelivers⟩ := hsafe (fakeEngine (.ofTarget 2) false true 8)
    (some { byte_array := [0, 0, 0, 0] })
    ⟨{ byte_array := [1, 3, 4, 0] }, { byte_array := [1, 3, 4, 0] }, 3⟩ _ rfl rfl rfl
    (fakeEngine_lawful _ _ _ _) (hread _)
  exact absurd hdelivers.written (by decide)
