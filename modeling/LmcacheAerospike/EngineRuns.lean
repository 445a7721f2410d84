/-
# The engine's functions without failures

What each function of the engine returns, and what it leaves in the store, when no call
fails and nobody else writes.  Presence is the presence of a meta record; the functions
that write do so one record at a time, in list order.
-/
import LmcacheAerospike.CompletedPut
import LmcacheAerospike.FaultFree

/-! ## Presence -/

/-- A meta record of the logical key is there. -/
def World.hasMeta (w : World) (ns set_name ck : Text) : Bool :=
  (w.records (meta_key ns set_name ck)).isSome

section Presence

variable (eng : Engine) (w : World)

/-- `exists` is the presence of the meta record. -/
theorem run_exists (ck : Text) :
    (eng.exists_ ck).run Op.perform w
      = (.ok (w.hasMeta eng.cfg.ns eng.cfg.set_name ck), w) := by
  show Prog.run _ (.call (Op.select _ _) _) w = _
  rw [Prog.run_call, World.hasMeta]
  cases hrec : w.records (eng.metaKey ck) with
  | none =>
    rw [perform_select_absent hrec]
    rfl
  | some r =>
    rw [perform_select_found hrec]
    rfl

theorem count_prefix_eq (recs : List BatchRecord) :
    Engine.count_prefix recs
      = (recs.takeWhile fun rec => decide (rec.result = AEROSPIKE_OK)).length := by
  induction recs with
  | nil => rfl
  | cons rec recs ih =>
    unfold Engine.count_prefix
    by_cases hrec : rec.result = AEROSPIKE_OK
    · rw [if_neg (not_not.mpr hrec), ih, List.takeWhile_cons_of_pos (by simpa using hrec)]
      rfl
    · rw [if_pos hrec, List.takeWhile_cons_of_neg (by simpa using hrec)]
      rfl

/-- The answer of a `batch_read` for a meta record, as presence. -/
theorem readRecord_present (ck : Text) :
    decide ((w.readRecord [] (eng.metaKey ck)).result = AEROSPIKE_OK)
      = w.hasMeta eng.cfg.ns eng.cfg.set_name ck := by
  rw [World.hasMeta, Bool.eq_iff_iff, decide_eq_true_iff, World.readRecord_result]

/-- **`batched_contains` counts the leading keys whose meta record is there.** -/
theorem run_batched_contains (keys : List Text) :
    (eng.batched_contains keys).run Op.perform w
      = (.ok (keys.takeWhile (w.hasMeta eng.cfg.ns eng.cfg.set_name)).length, w) := by
  unfold Engine.batched_contains
  by_cases hnil : keys = []
  · rw [if_pos hnil, hnil]
    rfl
  · rw [if_neg hnil]
    show Prog.run _ (.call (Op.batch_read _ _) _) w = _
    rw [Prog.run_call, perform_batch_read]
    show (Except.ok (Engine.count_prefix _), w) = _
    rw [count_prefix_eq, List.map_map, List.takeWhile_map, List.length_map]
    have hpred : (fun rec => decide (rec.result = AEROSPIKE_OK)) ∘ w.readRecord [] ∘ eng.metaKey
        = w.hasMeta eng.cfg.ns eng.cfg.set_name := funext (readRecord_present eng w)
    rw [hpred]

/-- The counted keys are all there. -/
theorem hasMeta_of_counted {ns set_name ck : Text} {keys : List Text}
    (h : ck ∈ keys.take (keys.takeWhile (w.hasMeta ns set_name)).length) :
    w.hasMeta ns set_name ck = true := by
  have hprefix := List.prefix_iff_eq_take.mp (List.takeWhile_prefix (w.hasMeta ns set_name)
    (l := keys))
  rw [← hprefix] at h
  exact List.all_eq_true.mp List.all_takeWhile ck h

/-- The element after the longest prefix that meets `p` does not meet it. -/
theorem not_of_getElem?_takeWhile {α : Type} {p : α → Bool} {l : List α} {a : α}
    (h : l[(l.takeWhile p).length]? = some a) : p a = false := by
  induction l with
  | nil => cases h
  | cons b l ih =>
    by_cases hb : p b = true
    · rw [List.takeWhile_cons_of_pos hb, List.length_cons, List.getElem?_cons_succ] at h
      exact ih h
    · rw [List.takeWhile_cons_of_neg hb] at h
      cases h
      exact Bool.not_eq_true _ ▸ hb

/-- `batched_exists_mask` is the presence of each meta record. -/
theorem run_batched_exists_mask (keys : List Text) :
    (eng.batched_exists_mask keys).run Op.perform w
      = (.ok (keys.map (w.hasMeta eng.cfg.ns eng.cfg.set_name)), w) := by
  unfold Engine.batched_exists_mask
  by_cases hnil : keys = []
  · rw [if_pos hnil, hnil]
    rfl
  · rw [if_neg hnil]
    show Prog.run _ (.call (Op.batch_read _ _) _) w = _
    rw [Prog.run_call, perform_batch_read]
    show (Except.ok (List.map _ _), w) = _
    rw [List.map_map, List.map_map]
    congr 3
    funext ck
    exact readRecord_present eng w ck

end Presence

/-! ## Writes -/

theorem check_segments_written (writes : List Write) :
    Engine.check_segments (writes.map fun _ => ⟨AEROSPIKE_OK, none⟩) = .ok () := by
  induction writes with
  | nil => rfl
  | cons wr writes ih =>
    rw [List.map_cons, Engine.check_segments, if_neg (not_not.mpr rfl)]
    exact ih

section Puts

variable {eng : Engine} (ck : Text) {mo : MemoryObj} (pinned : Bool) (w : World)

theorem run_put_records (mo : MemoryObj) (pl : ShardPlan) (now : ℕ) :
    ((eng.put_records ck mo pl pinned now).run Op.perform w).1 = .ok () := by
  unfold Engine.put_records
  by_cases hn : pl.nseg = 1
  · rw [if_pos hn]
    rfl
  · rw [if_neg hn]
    show Prod.fst (Prog.run _ (.call (Op.batch_write _) _) w) = _
    rw [Prog.run_call, perform_batch_write]
    show Prod.fst (Prog.run _ (Prog.bind (Prog.ofExcept (Engine.check_segments _)) _) _) = _
    rw [check_segments_written]
    rfl

/-- A put whose payload has a plan completes. -/
theorem run_put_planned {pl : ShardPlan}
    (hplan : eng.resolved.shard_plan mo.byte_array.length = .ok pl) :
    ((eng.put ck mo pinned).run Op.perform w).1 = .ok () := by
  rw [put_planned hplan, Prog.run_call, perform_time, Prog.run_tryCatch]
  have hrecords := @run_put_records eng ck pinned w mo pl w.now
  rcases hrun : (eng.put_records ck mo pl pinned w.now).run Op.perform w with ⟨r, w'⟩
  rw [hrun] at hrecords
  obtain rfl : r = .ok () := hrecords
  rfl

end Puts

section BatchedPuts

variable {eng : Engine} {ck : Text} {mo : MemoryObj} {pinned : Bool} {w : World}

/-- **A put that completes has performed all its writes.** -/
theorem run_put_done {w' : World}
    (h : (eng.put ck mo pinned).run Op.perform w = (.ok (), w')) :
    ∃ pl now, eng.resolved.shard_plan mo.byte_array.length = .ok pl ∧
      eng.PutDone ck mo pinned pl now w w' := by
  have hexec := exec_run_perform (eng.put ck mo pinned) w
  rw [h] at hexec
  exact exec_put_ok hexec

/-- An entry of the list that the first loop of `batched_put` makes at the time `now`. -/
structure PlannedPut.Plans (eng : Engine) (pinned : Bool) (now : ℕ)
    (item : Text × MemoryObj) (planned : PlannedPut) : Prop where
  ck : planned.ck = item.1
  memory_obj : planned.memory_obj = item.2
  p : eng.resolved.shard_plan item.2.byte_array.length = .ok planned.p
  mwrite : planned.mwrite = eng.meta_write item.1 item.2 planned.p pinned now

/-- An entry of that list, whatever the clock showed. -/
def PlannedPut.PlansAnytime (eng : Engine) (pinned : Bool) (item : Text × MemoryObj)
    (planned : PlannedPut) : Prop :=
  ∃ now, PlannedPut.Plans eng pinned now item planned

/-- The items of a chunk that goes into one `batch_write` have one segment. -/
theorem single_of_not_any {plans : List PlannedPut}
    (hany : ¬ (plans.any fun item => decide (item.p.nseg > 1)) = true) :
    ∀ planned ∈ plans, ¬ planned.p.nseg > 1 := fun planned hmem hgt =>
  hany (List.any_eq_true.mpr ⟨planned, hmem, decide_eq_true hgt⟩)

/-- The first loop of `batched_put` plans every item and writes nothing. -/
theorem run_plan_items {items : List (Text × MemoryObj)} {plans : List PlannedPut}
    {w' : World} (h : (eng.plan_items pinned items).run Op.perform w = (.ok plans, w')) :
    w' = w ∧ List.Forall₂ (PlannedPut.Plans eng pinned w.now) items plans := by
  induction items generalizing plans w' with
  | nil =>
    cases h
    exact ⟨rfl, List.Forall₂.nil⟩
  | cons item items ih =>
    obtain ⟨ck, mo⟩ := item
    unfold Engine.plan_items at h
    cases hplan : eng.resolved.shard_plan mo.byte_array.length with
    | error e =>
      rw [hplan] at h
      cases h
    | ok pl =>
      rw [hplan] at h
      have hbind : Prog.andThen Op.perform (fun rest => .ret (⟨ck, mo, pl,
          eng.meta_write ck mo pl pinned w.now⟩ :: rest))
          ((eng.plan_items pinned items).run Op.perform w) = (.ok plans, w') := by
        rw [← Prog.run_bind]
        exact h
      rcases hrest : (eng.plan_items pinned items).run Op.perform w with ⟨r, w₁⟩
      rw [hrest] at hbind
      cases r with
      | error e => cases hbind
      | ok rest =>
        cases hbind
        obtain ⟨hw, hplans⟩ := ih hrest
        exact ⟨hw, List.Forall₂.cons ⟨rfl, rfl, hplan, rfl⟩ hplans⟩

/-- An item of the mixed path is put. -/
theorem run_put_item {pl : ShardPlan}
    (hplan : eng.resolved.shard_plan mo.byte_array.length = .ok pl) :
    (eng.put_item pinned ck mo).run Op.perform w
      = (.ok true, ((eng.put ck mo pinned).run Op.perform w).2) := by
  have hput := run_put_planned ck pinned w hplan
  unfold Engine.put_item
  rw [Prog.run_tryCatch, Prog.run_bind]
  rcases hrun : (eng.put ck mo pinned).run Op.perform w with ⟨r, w'⟩
  rw [hrun] at hput
  obtain rfl : r = .ok () := hput
  rfl

/-- The slices of the chunking spell the items. -/
theorem flatten_chunked {α : Type} (items : List α) {n : ℕ} (hn : 0 < n) :
    (Engine.chunked items n).flatten = items := by
  rw [Engine.chunked, ← List.flatMap_def]
  refine flatMap_slice_of_le _ _ _ ?_
  rw [Nat.mul_comm]
  exact le_smul_ceilDiv hn

end BatchedPuts

/-! ## Pins -/

section Pins

variable (eng : Engine) (w : World)

/-- The store after the pin bin of some keys has been written. -/
def Engine.afterPins (eng : Engine) (keys : List Text) (w : World) : World :=
  (keys.map fun ck => eng.pin_write ck true eng.pin_ttl).foldl World.applyWrite w

theorem run_pin_keys (keys : List Text) :
    (eng.pin_keys keys).run Op.perform w = (.ok (), eng.afterPins keys w) := by
  unfold Engine.pin_keys
  by_cases hnil : keys = []
  · rw [if_pos hnil, hnil]
    rfl
  · rw [if_neg hnil]
    show Prog.run _ (.call (Op.batch_write _) _) w = _
    rw [Prog.run_call]
    have hperform := perform_batch_write (keys.map fun ck => eng.pin_write ck true eng.pin_ttl) w
    rw [List.map_map] at hperform
    show Prog.run _ _ (Prod.snd (Op.perform (.batch_write
      (keys.map (BatchOp.write ∘ fun ck => eng.pin_write ck true eng.pin_ttl))) w)) = _
    rw [hperform]
    rfl

/-- `batched_async_contains` pins exactly the keys that it counts. -/
theorem run_batched_async_contains (keys : List Text) (pin : Bool) {count : ℕ}
    (hcount : count = (keys.takeWhile (w.hasMeta eng.cfg.ns eng.cfg.set_name)).length) :
    (eng.batched_async_contains keys pin).run Op.perform w
      = (.ok count, if pin then eng.afterPins (keys.take count) w else w) := by
  unfold Engine.batched_async_contains
  rw [Prog.bind_eq, Prog.run_bind, run_batched_contains, ← hcount, Prog.andThen_ok]
  by_cases hpin : pin = true ∧ count > 0
  · rw [if_pos hpin, if_pos hpin.1, Prog.bind_eq, Prog.run_bind, run_pin_keys]
    rfl
  · rw [if_neg hpin]
    -- nothing is counted, or nothing is to be pinned
    by_cases hp : pin = true
    · have hzero : count = 0 := by
        by_contra hne
        exact hpin ⟨hp, Nat.pos_of_ne_zero hne⟩
      rw [if_pos hp, hzero, List.take_zero]
      rfl
    · rw [if_neg hp]
      rfl

theorem run_pin (ck : Text) :
    (eng.pin ck).run Op.perform w
      = if w.hasMeta eng.cfg.ns eng.cfg.set_name ck
        then (.ok true, eng.afterPins [ck] w) else (.ok false, w) := by
  unfold Engine.pin
  rw [Prog.bind_eq, Prog.run_bind, run_exists, Prog.andThen_ok]
  by_cases hmeta : w.hasMeta eng.cfg.ns eng.cfg.set_name ck = true
  · rw [if_pos hmeta, if_pos hmeta, Prog.bind_eq, Prog.run_bind, run_pin_keys]
    rfl
  · rw [if_neg hmeta, if_neg hmeta]
    rfl

theorem run_unpin_absent {ck : Text} (h : w.records (eng.metaKey ck) = none) :
    (eng.unpin ck).run Op.perform w = (.ok false, w) := by
  show Prog.run _ (.call (Op.touch _ _) _) w = _
  rw [Prog.run_call, perform_touch_absent h]
  rfl

theorem run_unpin_found {ck : Text} {r : Record} (h : w.records (eng.metaKey ck) = some r) :
    (eng.unpin ck).run Op.perform w
      = (.ok true, (w.setRecord (eng.metaKey ck)
          (some { r with ttl := eng.cfg.default_ttl_seconds, written_at := w.now })).applyWrite
            (eng.pin_write ck false eng.cfg.default_ttl_seconds)) := by
  show Prog.run _ (.call (Op.touch _ _) _) w = _
  rw [Prog.run_call, perform_touch_found h]
  rfl

end Pins

/-! ## Removals -/

section Removals

variable {eng : Engine} {ck : Text} {w : World}

theorem run_remove_absent (h : w.records (eng.metaKey ck) = none) :
    (eng.remove ck).run Op.perform w = (.ok false, w) := by
  show Prog.run _ (.call (Op.select _ _) _) w = _
  rw [Prog.run_call, perform_select_absent h]
  rfl

theorem run_remove_records {r : Record} (h : w.records (eng.metaKey ck) = some r) (nseg : ℤ) :
    (eng.remove_records ck nseg).run Op.perform w
      = (.ok true, if nseg > 1
          then (segment_keys eng.cfg.ns eng.cfg.set_name ck nseg.toNat).foldl
            World.removeRecord (w.removeRecord (eng.metaKey ck))
          else w.removeRecord (eng.metaKey ck)) := by
  show Prog.run _ (.call (Op.remove _) _) w = _
  rw [Prog.run_call, perform_remove_found h]
  by_cases hn : nseg > 1
  · rw [if_pos hn, if_pos hn, ← perform_batch_remove]
    rfl
  · rw [if_neg hn, if_neg hn]
    rfl

/-- **A removal that completes** took away nothing, or the meta record and some segments. -/
theorem run_remove_ok {removed : Bool} {w' : World}
    (h : (eng.remove ck).run Op.perform w = (.ok removed, w')) :
    (w.records (eng.metaKey ck) = none ∧ removed = false ∧ w' = w) ∨
      removed = true ∧ ∃ n, w' = (segment_keys eng.cfg.ns eng.cfg.set_name ck n).foldl
        World.removeRecord (w.removeRecord (eng.metaKey ck)) := by
  -- whichever number of segments was read, only records of `ck` are removed
  have hrecords : ∀ {r : Record} (nseg : ℤ), w.records (eng.metaKey ck) = some r →
      (eng.remove_records ck nseg).run Op.perform w = (.ok removed, w') →
      removed = true ∧ ∃ n, w' = (segment_keys eng.cfg.ns eng.cfg.set_name ck n).foldl
        World.removeRecord (w.removeRecord (eng.metaKey ck)) := by
    intro r nseg hr hrun
    rw [run_remove_records hr] at hrun
    refine ⟨(Except.ok.inj (congrArg Prod.fst hrun)).symm, ?_⟩
    have hw := (congrArg Prod.snd hrun).symm
    dsimp only at hw
    by_cases hn : nseg > 1
    · rw [if_pos hn] at hw
      exact ⟨_, hw⟩
    · rw [if_neg hn] at hw
      exact ⟨0, hw⟩
  cases hr : w.records (eng.metaKey ck) with
  | none =>
    rw [run_remove_absent hr] at h
    cases h
    exact Or.inl ⟨rfl, rfl, rfl⟩
  | some r =>
    right
    change Prog.run _ (.call (Op.select _ _) _) w = _ at h
    rw [Prog.run_call, perform_select_found hr] at h
    dsimp only [Prog.ret_bind] at h
    cases hn : selectBins (some [.nseg]) r.bins .nseg with
    | none =>
      rw [hn] at h
      exact hrecords 1 hr h
    | some value =>
      rw [hn] at h
      dsimp only at h
      cases hv : Engine.pyInt value with
      | error e =>
        rw [hv] at h
        cases h
      | ok nseg =>
        rw [hv] at h
        exact hrecords nseg hr h

end Removals
