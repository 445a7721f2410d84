/-
# The store after a put

A put without failures applies its writes in order, the meta record last
(`Engine.afterPut`).  A `batched_put` that completes has done so for each of its items, one
after the other, whichever path it took: one `batch_write` of all the meta records, or one
put after the other (`run_batched_put_world`).
-/
import LmcacheAerospike.EngineRuns

/-- The writes of a put, the meta record last. -/
def Engine.put_writes (eng : Engine) (ck : Text) (mo : MemoryObj) (pinned : Bool)
    (pl : ShardPlan) (now : ℕ) : List Write :=
  if pl.nseg = 1 then [eng.meta_write ck mo pl pinned now]
  else eng.segment_writes ck mo.byte_array pl (eng.ttl_value pinned)
    ++ [eng.meta_write ck mo pl pinned now]

/-- The store after a put: unchanged when its payload has no plan. -/
def Engine.afterPut (eng : Engine) (pinned : Bool) (w : World) (item : Text × MemoryObj) :
    World :=
  match eng.resolved.shard_plan item.2.byte_array.length with
  | .ok pl => (eng.put_writes item.1 item.2 pinned pl w.now).foldl World.applyWrite w
  | .error _ => w

theorem foldl_applyWrite_now (ops : List Write) (w : World) :
    (ops.foldl World.applyWrite w).now = w.now := by
  induction ops generalizing w with
  | nil => rfl
  | cons wr ops ih =>
    rw [List.foldl_cons, ih]
    exact w.applyWrite_now wr

section AfterPut

variable {eng : Engine} {ck : Text} {mo : MemoryObj} {pinned : Bool} {w : World}
  {pl : ShardPlan}

theorem afterPut_planned (hplan : eng.resolved.shard_plan mo.byte_array.length = .ok pl) :
    eng.afterPut pinned w (ck, mo)
      = (eng.put_writes ck mo pinned pl w.now).foldl World.applyWrite w := by
  unfold Engine.afterPut
  rw [hplan]

theorem afterPut_now (item : Text × MemoryObj) : (eng.afterPut pinned w item).now = w.now := by
  unfold Engine.afterPut
  cases eng.resolved.shard_plan item.2.byte_array.length with
  | ok pl => exact foldl_applyWrite_now _ w
  | error e => rfl

/-- The keys that a put writes. -/
theorem put_writes_keys (now : ℕ) :
    (eng.put_writes ck mo pinned pl now).map Write.key
      = (if pl.nseg = 1 then [] else (List.range pl.nseg).map (eng.segmentKey ck))
        ++ [eng.metaKey ck] := by
  unfold Engine.put_writes
  by_cases hn : pl.nseg = 1
  · rw [if_pos hn, if_pos hn]
    rfl
  · rw [if_neg hn, if_neg hn, List.map_append, segment_writes_keys]
    rfl

/-- A put writes each record once. -/
theorem put_writes_nodup (now : ℕ) :
    ((eng.put_writes ck mo pinned pl now).map Write.key).Nodup := by
  rw [put_writes_keys]
  by_cases hn : pl.nseg = 1
  · rw [if_pos hn]
    exact List.nodup_singleton _
  · rw [if_neg hn, List.nodup_append]
    refine ⟨List.nodup_range.map fun i j hij => (segment_key_inj hij).2,
      List.nodup_singleton _, ?_⟩
    rintro _ hsegment _ hmeta rfl
    obtain ⟨i, -, hi⟩ := List.mem_map.mp hsegment
    rw [List.mem_singleton] at hmeta
    exact meta_key_ne_segment_key _ _ _ _ _ _ _ (hmeta.symm.trans hi.symm)

/-- A segment key is written exactly by a put with that many segments. -/
theorem segment_mem_put_writes (now : ℕ) (i : ℕ) :
    eng.segmentKey ck i ∈ (eng.put_writes ck mo pinned pl now).map Write.key ↔
      pl.nseg ≠ 1 ∧ i < pl.nseg := by
  have hmeta : eng.segmentKey ck i ≠ eng.metaKey ck :=
    (meta_key_ne_segment_key _ _ _ _ _ _ _).symm
  rw [put_writes_keys, List.mem_append, List.mem_singleton]
  by_cases hn : pl.nseg = 1
  · simp [hn, hmeta]
  · rw [if_neg hn, List.mem_map]
    constructor
    · rintro (⟨j, hj, hkey⟩ | hkey)
      · obtain rfl : j = i := (segment_key_inj hkey).2
        exact ⟨hn, List.mem_range.mp hj⟩
      · exact absurd hkey hmeta
    · exact fun h => Or.inl ⟨i, List.mem_range.mpr h.2, rfl⟩

/-- **The meta record after a put.** -/
theorem afterPut_meta (hplan : eng.resolved.shard_plan mo.byte_array.length = .ok pl) :
    (eng.afterPut pinned w (ck, mo)).records (eng.metaKey ck)
      = some ((eng.meta_write ck mo pl pinned w.now).applyTo w.now
          (w.records (eng.metaKey ck))) := by
  rw [afterPut_planned hplan]
  have hmem : eng.meta_write ck mo pl pinned w.now ∈ eng.put_writes ck mo pinned pl w.now := by
    unfold Engine.put_writes
    split_ifs <;> simp
  exact foldl_applyWrite_of_mem _ w (put_writes_nodup _) hmem

/-- **The segments after a put**: those that it wrote, and those that were there. -/
theorem afterPut_segment (hplan : eng.resolved.shard_plan mo.byte_array.length = .ok pl)
    (i : ℕ) :
    ((eng.afterPut pinned w (ck, mo)).records (eng.segmentKey ck i)).isSome ↔
      (pl.nseg ≠ 1 ∧ i < pl.nseg) ∨ (w.records (eng.segmentKey ck i)).isSome := by
  rw [afterPut_planned hplan]
  by_cases hmem : eng.segmentKey ck i ∈ (eng.put_writes ck mo pinned pl w.now).map Write.key
  · refine iff_of_true ?_ (Or.inl ((segment_mem_put_writes _ i).mp hmem))
    obtain ⟨wr, hwr, hkey⟩ := List.mem_map.mp hmem
    rw [← hkey, foldl_applyWrite_of_mem _ w (put_writes_nodup _) hwr]
    rfl
  · have hwritten : ¬ (pl.nseg ≠ 1 ∧ i < pl.nseg) := fun hi =>
      hmem ((segment_mem_put_writes w.now i).mpr hi)
    rw [foldl_applyWrite_of_notMem _ w hmem, or_iff_right hwritten]

/-- A put leaves the records of other logical keys as they are. -/
theorem afterPut_of_ne (item : Text × MemoryObj) {key : Key} (hmeta : key ≠ eng.metaKey item.1)
    (hsegment : ∀ i, key ≠ eng.segmentKey item.1 i) :
    (eng.afterPut pinned w item).records key = w.records key := by
  obtain ⟨ck, mo⟩ := item
  unfold Engine.afterPut
  cases eng.resolved.shard_plan mo.byte_array.length with
  | error e => rfl
  | ok pl =>
    refine foldl_applyWrite_of_notMem _ w fun hmem => ?_
    rw [put_writes_keys, List.mem_append, List.mem_singleton] at hmem
    rcases hmem with hmem | hmem
    · by_cases hn : pl.nseg = 1
      · rw [if_pos hn] at hmem
        cases hmem
      · rw [if_neg hn] at hmem
        obtain ⟨i, -, hi⟩ := List.mem_map.mp hmem
        exact hsegment i hi.symm
    · exact hmeta hmem

/-! ## The runs -/

theorem run_put_records_world (now : ℕ) :
    (eng.put_records ck mo pl pinned now).run Op.perform w
      = (.ok (), (eng.put_writes ck mo pinned pl now).foldl World.applyWrite w) := by
  unfold Engine.put_records Engine.put_writes
  by_cases hn : pl.nseg = 1
  · rw [if_pos hn, if_pos hn]
    rfl
  · rw [if_neg hn, if_neg hn, List.foldl_append]
    show Prog.run _ (.call (Op.batch_write _) _) w = _
    rw [Prog.run_call, perform_batch_write]
    show Prog.run _ (Prog.bind (Prog.ofExcept (Engine.check_segments _)) _) _ = _
    rw [check_segments_written]
    rfl

/-- **A put whose payload has a plan.** -/
theorem run_put_world (hplan : eng.resolved.shard_plan mo.byte_array.length = .ok pl) :
    (eng.put ck mo pinned).run Op.perform w = (.ok (), eng.afterPut pinned w (ck, mo)) := by
  rw [put_planned hplan, Prog.run_call, perform_time, Prog.run_tryCatch, run_put_records_world,
    afterPut_planned hplan]
  rfl

/-- A put that completes. -/
theorem run_put_ok_world {w' : World} (h : (eng.put ck mo pinned).run Op.perform w = (.ok (), w')) :
    (∃ pl, eng.resolved.shard_plan mo.byte_array.length = .ok pl) ∧
      w' = eng.afterPut pinned w (ck, mo) := by
  obtain ⟨pl, -, hplan, -⟩ := run_put_done h
  rw [run_put_world hplan] at h
  exact ⟨⟨pl, hplan⟩, (congrArg Prod.snd h).symm⟩

end AfterPut

/-! ## Batches -/

section Batches

variable {eng : Engine} {pinned : Bool} {now : ℕ}

/-- One `batch_write` of meta records is one put after the other. -/
theorem foldl_batch {items : List (Text × MemoryObj)} {plans : List PlannedPut}
    (hplans : List.Forall₂ (PlannedPut.Plans eng pinned now) items plans)
    (hsingle : ∀ planned ∈ plans, ¬ planned.p.nseg > 1) {w : World} (hnow : w.now = now) :
    (plans.map PlannedPut.mwrite).foldl World.applyWrite w
      = items.foldl (eng.afterPut pinned) w := by
  induction hplans generalizing w with
  | nil => rfl
  | @cons item planned items plans hitem _ ih =>
    rw [List.forall_mem_cons] at hsingle
    have hpos := (plan_covers _ _ _ _ _ _ hitem.p).nseg_pos
    have hone : planned.p.nseg = 1 := by omega
    have hput : w.applyWrite planned.mwrite = eng.afterPut pinned w item := by
      rw [afterPut_planned hitem.p, Engine.put_writes, if_pos hone, hitem.mwrite, hnow]
      rfl
    rw [List.map_cons, List.foldl_cons, List.foldl_cons, hput]
    exact ih hsingle.2 ((afterPut_now item).trans hnow)

/-- The mixed path. -/
theorem run_put_items_world {items : List (Text × MemoryObj)} {plans : List PlannedPut}
    (hplans : List.Forall₂ (PlannedPut.Plans eng pinned now) items plans) (w : World) :
    ((eng.put_items pinned plans).run Op.perform w).2 = items.foldl (eng.afterPut pinned) w := by
  induction hplans generalizing w with
  | nil => rfl
  | @cons item planned items plans hitem _ ih =>
    have hrest := ih (eng.afterPut pinned w item)
    unfold Engine.put_items
    rw [Prog.bind_eq, Prog.run_bind, hitem.ck, hitem.memory_obj, run_put_item hitem.p,
      Prog.andThen_ok, run_put_world hitem.p, Prog.bind_eq, Prog.run_bind, List.foldl_cons,
      ← hrest]
    rcases (eng.put_items pinned plans).run Op.perform (eng.afterPut pinned w item) with ⟨r, w₁⟩
    cases r with
    | ok rest => rfl
    | error e => rfl

theorem run_batched_put_chunk_world {items : List (Text × MemoryObj)} {flags : List Bool}
    {w w' : World} (h : (eng.batched_put_chunk pinned items).run Op.perform w = (.ok flags, w')) :
    (∀ item ∈ items, ∃ pl, eng.resolved.shard_plan item.2.byte_array.length = .ok pl) ∧
      w' = items.foldl (eng.afterPut pinned) w := by
  unfold Engine.batched_put_chunk at h
  rw [Prog.bind_eq, Prog.run_bind] at h
  rcases hplan : (eng.plan_items pinned items).run Op.perform w with ⟨r, w₁⟩
  rw [hplan] at h
  cases r with
  | error e => cases h
  | ok plans =>
    obtain ⟨rfl, hplans⟩ := run_plan_items hplan
    rw [Prog.andThen_ok] at h
    refine ⟨fun item hitem => ?_, ?_⟩
    · obtain ⟨i, hi, rfl⟩ := List.getElem_of_mem hitem
      exact ⟨_, (hplans.get hi (hplans.length_eq ▸ hi)).p⟩
    · by_cases hany : (plans.any fun item => decide (item.p.nseg > 1)) = true
      · rw [if_pos hany] at h
        rw [← run_put_items_world hplans, h]
      · rw [if_neg hany] at h
        have hbatch := perform_batch_write (plans.map PlannedPut.mwrite) w₁
        rw [List.map_map] at hbatch
        have hrun : Prog.run Op.perform (.call (.batch_write
            (plans.map (BatchOp.write ∘ PlannedPut.mwrite))) _) w₁ = (.ok flags, w') := h
        rw [Prog.run_call, hbatch] at hrun
        rw [← foldl_batch hplans (single_of_not_any hany) rfl]
        exact (congrArg Prod.snd hrun).symm

theorem run_batched_put_chunks_world {chunks : List (List (Text × MemoryObj))}
    {flags : List Bool} {w w' : World}
    (h : (eng.batched_put_chunks pinned chunks).run Op.perform w = (.ok flags, w')) :
    (∀ item ∈ chunks.flatten,
        ∃ pl, eng.resolved.shard_plan item.2.byte_array.length = .ok pl) ∧
      w' = chunks.flatten.foldl (eng.afterPut pinned) w := by
  induction chunks generalizing w flags with
  | nil =>
    cases h
    exact ⟨by simp, rfl⟩
  | cons chunk chunks ih =>
    unfold Engine.batched_put_chunks at h
    rw [Prog.bind_eq, Prog.run_bind] at h
    rcases hchunk : (eng.batched_put_chunk pinned chunk).run Op.perform w with ⟨r, w₁⟩
    rw [hchunk] at h
    cases r with
    | error e => cases h
    | ok results =>
      obtain ⟨hfirst, rfl⟩ := run_batched_put_chunk_world hchunk
      rw [Prog.andThen_ok, Prog.bind_eq, Prog.run_bind] at h
      rcases hrest : (eng.batched_put_chunks pinned chunks).run Op.perform
        (chunk.foldl (eng.afterPut pinned) w) with ⟨r, w₂⟩
      rw [hrest] at h
      cases r with
      | error e => cases h
      | ok rest =>
        cases h
        obtain ⟨hplans, hw⟩ := ih hrest
        rw [List.flatten_cons, List.forall_mem_append, List.foldl_append]
        exact ⟨⟨hfirst, hplans⟩, hw⟩

/-- **A `batched_put` that completes** has put every item, in order. -/
theorem run_batched_put_world {items : List (Text × MemoryObj)} {flags : List Bool}
    {w w' : World} (h : (eng.batched_put items pinned).run Op.perform w = (.ok flags, w')) :
    (∀ item ∈ items, ∃ pl, eng.resolved.shard_plan item.2.byte_array.length = .ok pl) ∧
      w' = items.foldl (eng.afterPut pinned) w := by
  unfold Engine.batched_put at h
  by_cases hnil : items = []
  · rw [if_pos hnil] at h
    cases h
    rw [hnil]
    exact ⟨by simp, rfl⟩
  · rw [if_neg hnil, Prog.run_tryCatch] at h
    rcases hchunks : (eng.batched_put_chunks pinned
      (Engine.chunked items Engine.BATCH_KEYS_CHUNK)).run Op.perform w with ⟨r, w₁⟩
    rw [hchunks] at h
    cases r with
    | error e =>
      have hexec := exec_run_perform
        (Engine.reraise "batched_put" AxError.str e : EngineM (List Bool)) w₁
      rw [show Prog.run Op.perform _ w₁ = _ from h] at hexec
      exact (exec_reraise hexec).elim
    | ok results =>
      cases h
      have hworld := run_batched_put_chunks_world hchunks
      rwa [flatten_chunked items (by decide)] at hworld

end Batches
