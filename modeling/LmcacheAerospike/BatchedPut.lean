/-
# `batched_put` and putting one by one

A batch reads the clock once for every item before it writes anything, a `put` once more when
its turn has come, so the two leave stores that differ in their times.  Everything else is the
same (`batched_put_as_puts`): with the times erased, writes commute with the erasure, and every
function of the engine is followed by the store that its puts leave (`Ends`).
-/
import LmcacheAerospike.Payload
import LmcacheAerospike.PutWorld

/-! ## Stores without their times -/

/-- A bin value, the time in `created_at` erased. -/
def BinVal.timeless (n : BinName) (v : BinVal) : BinVal :=
  if n = .created_at then .int 0 else v

/-- A record without the times of its last write: `created_at` is there or not. -/
def Record.timeless (r : Record) : Record where
  bins := fun n => (r.bins n).map (BinVal.timeless n)
  ttl := r.ttl
  written_at := 0
  user_key := r.user_key

/-- The store, its records without their times and its clock at zero. -/
def World.timeless (w : World) : World where
  records := fun key => (w.records key).map Record.timeless
  now := 0
  ref_downs := w.ref_downs

/-- A write, the time in `created_at` erased. -/
def Write.timeless (wr : Write) : Write :=
  { wr with ops := wr.ops.map fun kv => (kv.1, kv.2.timeless kv.1) }

/-- Merging bins and erasing the times commute. -/
theorem mergeBins_timeless (ops : BinWrites) (bins : Bins) (n : BinName) :
    (mergeBins ops bins n).map (BinVal.timeless n)
      = mergeBins (ops.map fun kv => (kv.1, kv.2.timeless kv.1))
          (fun n => (bins n).map (BinVal.timeless n)) n := by
  induction ops generalizing bins with
  | nil => rfl
  | cons kv ops ih =>
    show (mergeBins ops _ n).map _ = mergeBins (ops.map _) _ n
    rw [ih]
    congr 1
    funext m
    dsimp only
    by_cases hm : m = kv.1
    · subst hm
      rw [Function.update_self, Function.update_self]
      rfl
    · rw [Function.update_of_ne hm, Function.update_of_ne hm]

/-- A write without its times makes the record without its times. -/
theorem applyTo_timeless (wr : Write) (t : ℕ) (old : Option Record) :
    (wr.applyTo t old).timeless = wr.timeless.applyTo 0 (old.map Record.timeless) := by
  have hbins : (wr.applyTo t old).timeless.bins
      = (wr.timeless.applyTo 0 (old.map Record.timeless)).bins := by
    funext n
    refine (mergeBins_timeless wr.ops _ n).trans ?_
    cases old <;> rfl
  have hkey : (wr.applyTo t old).timeless.user_key
      = (wr.timeless.applyTo 0 (old.map Record.timeless)).user_key := by
    cases old <;> rfl
  unfold Record.timeless Write.applyTo at hbins hkey ⊢
  rw [Record.mk.injEq]
  exact ⟨hbins, rfl, rfl, hkey⟩

/-- **A write and the erasure of the times commute.** -/
theorem applyWrite_timeless (w : World) (wr : Write) :
    (w.applyWrite wr).timeless = w.timeless.applyWrite wr.timeless := by
  have hrecords : (w.applyWrite wr).timeless.records
      = (w.timeless.applyWrite wr.timeless).records := by
    funext key
    by_cases hkey : key = wr.key
    · subst hkey
      show ((w.applyWrite wr).records wr.key).map _
        = (w.timeless.applyWrite wr.timeless).records wr.timeless.key
      rw [World.applyWrite_self, World.applyWrite_self, Option.map_some, applyTo_timeless]
      rfl
    · show ((w.applyWrite wr).records key).map _ = _
      rw [World.applyWrite_of_ne w hkey,
        World.applyWrite_of_ne w.timeless (show key ≠ wr.timeless.key from hkey)]
      rfl
  unfold World.timeless World.applyWrite World.setRecord at hrecords ⊢
  rw [World.mk.injEq]
  exact ⟨hrecords, rfl, rfl⟩

/-- Writes that are the same but for their times, on stores that are the same but for
theirs. -/
theorem foldl_applyWrite_timeless {ops ops' : List Write}
    (hops : ops.map Write.timeless = ops'.map Write.timeless) {w w' : World}
    (hw : w.timeless = w'.timeless) :
    (ops.foldl World.applyWrite w).timeless = (ops'.foldl World.applyWrite w').timeless := by
  have hfold : ∀ (ops : List Write) (w : World), (ops.foldl World.applyWrite w).timeless
      = (ops.map Write.timeless).foldl World.applyWrite w.timeless := by
    intro ops
    induction ops with
    | nil => exact fun _ => rfl
    | cons wr ops ih =>
      intro w
      rw [List.foldl_cons, ih, applyWrite_timeless, List.map_cons, List.foldl_cons]
  rw [hfold, hfold, hops, hw]

section Puts

variable {eng : Engine} {pinned : Bool}

/-- The meta write of a put is the same at all times. -/
theorem meta_write_timeless (ck : Text) (mo : MemoryObj) (pl : ShardPlan) (now now' : ℕ) :
    (eng.meta_write ck mo pl pinned now).timeless
      = (eng.meta_write ck mo pl pinned now').timeless := by
  unfold Engine.meta_write Write.timeless meta_bins
  dsimp only
  simp only [List.map_append, List.map_cons, BinVal.timeless, if_true]

end Puts

/-! ## Calls at passing times -/

/-- A call without failures when the clock shows `clock i` at the `i`-th call. -/
def Op.performAt (clock : ℕ → ℕ) (o : Op) (s : World × ℕ) : o.Res × (World × ℕ) :=
  ((o.perform { s.1 with now := clock s.2 }).1,
    (o.perform { s.1 with now := clock s.2 }).2, s.2 + 1)

/-- Calling `put` on the pairs in order. -/
def Engine.put_each (eng : Engine) (pinned : Bool) : List (Text × MemoryObj) → EngineM Unit
  | [] => return ()
  | (ck, memory_obj) :: items => do
    eng.put ck memory_obj pinned
    put_each eng pinned items

/-- The program returns `a` and leaves the store `w`, but for the times. -/
def Ends {α : Type} (clock : ℕ → ℕ) (p : EngineM α) (s : World × ℕ) (a : α) (w : World) : Prop :=
  ∃ s', p.run (Op.performAt clock) s = (.ok a, s') ∧ s'.1.timeless = w.timeless

section Ends

variable {α β : Type} {clock : ℕ → ℕ} {s : World × ℕ} {w w' : World}

theorem ends_ret {a : α} (hs : s.1.timeless = w.timeless) :
    Ends clock (.ret a : EngineM α) s a w := ⟨s, rfl, hs⟩

/-- The sequencing rule. -/
theorem Ends.bind {p : EngineM α} {f : α → EngineM β} {a : α} {b : β} (hp : Ends clock p s a w)
    (hf : ∀ s' : World × ℕ, s'.1.timeless = w.timeless → Ends clock (f a) s' b w') :
    Ends clock (p.bind f) s b w' := by
  obtain ⟨s', hrun, hw⟩ := hp
  obtain ⟨s'', hrun', hw'⟩ := hf s' hw
  refine ⟨s'', ?_, hw'⟩
  rw [Prog.run_bind, hrun, Prog.andThen_ok, hrun']

/-- A guarded program that ends well does not reach its handler. -/
theorem Ends.tryCatch {p : EngineM α} {a : α} (handler : PyExc → EngineM α)
    (hp : Ends clock p s a w) : Ends clock (p.tryCatch handler) s a w := by
  obtain ⟨s', hrun, hw⟩ := hp
  refine ⟨s', ?_, hw⟩
  rw [Prog.run_tryCatch, hrun]
  rfl

/-- Reading the clock. -/
theorem ends_time {k : ℕ → EngineM α} {a : α}
    (hk : ∀ now, ∀ s' : World × ℕ, s'.1.timeless = s.1.timeless → Ends clock (k now) s' a w) :
    Ends clock (.call .time k) s a w := by
  obtain ⟨s', hrun, hw⟩ := hk (clock s.2) ({ s.1 with now := clock s.2 }, s.2 + 1) rfl
  exact ⟨s', hrun, hw⟩

/-- A `put` of the client. -/
theorem ends_client_put {wr wr' : Write} (hwr : wr.timeless = wr'.timeless)
    (hs : s.1.timeless = w.timeless) :
    Ends clock (raising (client_put wr)) s () (w.applyWrite wr') := by
  refine ⟨({ s.1 with now := clock s.2 }.applyWrite wr, s.2 + 1), rfl, ?_⟩
  rw [applyWrite_timeless, applyWrite_timeless, hwr, ← hs]
  rfl

/-- A `batch_write` of the client. -/
theorem ends_client_batch_write {ops ops' : List Write}
    (hops : ops.map Write.timeless = ops'.map Write.timeless) (hs : s.1.timeless = w.timeless) :
    Ends clock (raising (client_batch_write (ops.map .write))) s
      (ops.map fun _ => ⟨AEROSPIKE_OK, none⟩) (ops'.foldl World.applyWrite w) := by
  refine ⟨(ops.foldl World.applyWrite { s.1 with now := clock s.2 }, s.2 + 1), ?_,
    foldl_applyWrite_timeless hops hs⟩
  show Prog.run _ (.call (Op.batch_write _) _) s = _
  rw [Prog.run_call, Op.performAt, perform_batch_write]
  rfl

/-! ## Puts -/

variable {eng : Engine} {pinned : Bool}

/-- The writes of one put, whatever the time that they carry. -/
theorem ends_put_records (ck : Text) (mo : MemoryObj) (pl : ShardPlan) (now : ℕ)
    (hs : s.1.timeless = w.timeless) :
    Ends clock (eng.put_records ck mo pl pinned now) s ()
      ((eng.put_writes ck mo pinned pl w.now).foldl World.applyWrite w) := by
  have hmeta := @meta_write_timeless eng pinned ck mo pl now w.now
  unfold Engine.put_records Engine.put_writes
  by_cases hn : pl.nseg = 1
  · rw [if_pos hn, if_pos hn]
    exact ends_client_put hmeta hs
  · rw [if_neg hn, if_neg hn, List.foldl_append]
    refine (ends_client_batch_write rfl hs).bind fun s₁ hs₁ => ?_
    rw [check_segments_written]
    exact ends_client_put hmeta hs₁

/-- **A put whose payload has a plan**, at any times. -/
theorem ends_put {ck : Text} {mo : MemoryObj} {pl : ShardPlan}
    (hplan : eng.resolved.shard_plan mo.byte_array.length = .ok pl)
    (hs : s.1.timeless = w.timeless) :
    Ends clock (eng.put ck mo pinned) s () (eng.afterPut pinned w (ck, mo)) := by
  rw [put_planned hplan, afterPut_planned hplan]
  exact ends_time fun now s₁ hs₁ =>
    (ends_put_records ck mo pl now (hs₁.trans hs)).tryCatch _

/-- One put after the other. -/
theorem ends_put_each {items : List (Text × MemoryObj)}
    (hplan : ∀ item ∈ items, ∃ pl, eng.resolved.shard_plan item.2.byte_array.length = .ok pl)
    (hs : s.1.timeless = w.timeless) :
    Ends clock (eng.put_each pinned items) s () (items.foldl (eng.afterPut pinned) w) := by
  induction items generalizing s w with
  | nil => exact ends_ret hs
  | cons item items ih =>
    rw [List.forall_mem_cons] at hplan
    obtain ⟨⟨pl, hpl⟩, hrest⟩ := hplan
    exact (ends_put hpl hs).bind fun s₁ hs₁ => ih hrest hs₁

/-! ## The batch -/

/-- The first loop reads the clock for each item. -/
theorem ends_plan_items {items : List (Text × MemoryObj)}
    (hplan : ∀ item ∈ items, ∃ pl, eng.resolved.shard_plan item.2.byte_array.length = .ok pl)
    (hs : s.1.timeless = w.timeless) :
    ∃ plans, Ends clock (eng.plan_items pinned items) s plans w ∧
      List.Forall₂ (PlannedPut.PlansAnytime eng pinned) items plans := by
  induction items generalizing s with
  | nil => exact ⟨[], ends_ret hs, .nil⟩
  | cons item items ih =>
    obtain ⟨ck, mo⟩ := item
    rw [List.forall_mem_cons] at hplan
    obtain ⟨⟨pl, hpl⟩, hrest⟩ := hplan
    -- the rest of the loop reads the clock later
    obtain ⟨plans, hends, hplans⟩ := @ih ({ s.1 with now := clock s.2 }, s.2 + 1) hrest hs
    refine ⟨⟨ck, mo, pl, eng.meta_write ck mo pl pinned (clock s.2)⟩ :: plans, ?_,
      .cons ⟨_, rfl, rfl, hpl, rfl⟩ hplans⟩
    obtain ⟨s', hrun, hw⟩ := hends.bind (f := fun rest => .ret
      (⟨ck, mo, pl, eng.meta_write ck mo pl pinned (clock s.2)⟩ :: rest)) fun _ h => ends_ret h
    refine ⟨s', ?_, hw⟩
    unfold Engine.plan_items
    rw [hpl]
    exact hrun

/-- The mixed path. -/
theorem ends_put_items {items : List (Text × MemoryObj)} {plans : List PlannedPut}
    (hplans : List.Forall₂ (PlannedPut.PlansAnytime eng pinned) items plans)
    (hs : s.1.timeless = w.timeless) :
    Ends clock (eng.put_items pinned plans) s (items.map fun _ => true)
      (items.foldl (eng.afterPut pinned) w) := by
  induction hplans generalizing s w with
  | nil => exact ends_ret hs
  | @cons item planned items plans hitem _ ih =>
    obtain ⟨now, hitem⟩ := hitem
    unfold Engine.put_items
    rw [hitem.ck, hitem.memory_obj]
    have hput : Ends clock ((eng.put item.1 item.2 pinned).bind fun _ => .ret true) s true
        (eng.afterPut pinned w item) := (ends_put hitem.p hs).bind fun s₁ hs₁ => ends_ret hs₁
    exact (hput.tryCatch _).bind fun s₁ hs₁ => (ih hs₁).bind fun s₂ hs₂ => ends_ret hs₂

/-- The meta records of items in one piece are all that their puts write. -/
theorem foldl_mwrite_timeless {items : List (Text × MemoryObj)} {plans : List PlannedPut}
    (hplans : List.Forall₂ (PlannedPut.PlansAnytime eng pinned) items plans)
    (hsingle : ∀ planned ∈ plans, ¬ planned.p.nseg > 1)
    (hw : w.timeless = w'.timeless) :
    ((plans.map PlannedPut.mwrite).foldl World.applyWrite w).timeless
      = (items.foldl (eng.afterPut pinned) w').timeless := by
  induction hplans generalizing w w' with
  | nil => exact hw
  | @cons item planned items plans hitem _ ih =>
    obtain ⟨now, hitem⟩ := hitem
    rw [List.forall_mem_cons] at hsingle
    have hpos := (plan_covers _ _ _ _ _ _ hitem.p).nseg_pos
    have hone : planned.p.nseg = 1 := by omega
    refine ih hsingle.2 ?_
    rw [afterPut_planned hitem.p, Engine.put_writes, if_pos hone, hitem.mwrite]
    show (w.applyWrite _).timeless = (w'.applyWrite _).timeless
    rw [applyWrite_timeless, applyWrite_timeless, hw,
      meta_write_timeless item.1 item.2 planned.p now w'.now]

/-- A chunk ends as its puts do, whichever path it takes. -/
theorem ends_batched_put_chunk {items : List (Text × MemoryObj)}
    (hplan : ∀ item ∈ items, ∃ pl, eng.resolved.shard_plan item.2.byte_array.length = .ok pl)
    (hs : s.1.timeless = w.timeless) :
    Ends clock (eng.batched_put_chunk pinned items) s (items.map fun _ => true)
      (items.foldl (eng.afterPut pinned) w) := by
  obtain ⟨plans, hends, hplans⟩ := @ends_plan_items clock s w eng pinned items hplan hs
  refine hends.bind fun s₁ hs₁ => ?_
  by_cases hany : (plans.any fun item => decide (item.p.nseg > 1)) = true
  · rw [if_pos hany]
    exact ends_put_items hplans hs₁
  · -- every payload is in its meta record: one `batch_write` stores the chunk
    rw [if_neg hany]
    have hbatch : Ends clock _ s₁ _ _ :=
      ends_client_batch_write (Eq.refl ((plans.map PlannedPut.mwrite).map Write.timeless)) hs₁
    obtain ⟨s₂, hrun, hw⟩ := hbatch
    rw [List.map_map, List.map_map] at hrun
    refine ⟨s₂, ?_, hw.trans (foldl_mwrite_timeless hplans (single_of_not_any hany) rfl)⟩
    rw [Prog.bind_eq, Prog.run_bind]
    refine (congrArg (Prog.andThen _ _) hrun).trans ?_
    have hflags : plans.map (fun _ => true) = items.map fun _ => true := by
      rw [List.map_const', List.map_const', hplans.length_eq]
    rw [← hflags]
    show (Except.ok (List.map _ (List.map _ plans)), s₂) = _
    rw [List.map_map]
    rfl

theorem ends_batched_put_chunks {chunks : List (List (Text × MemoryObj))}
    (hplan : ∀ item ∈ chunks.flatten,
      ∃ pl, eng.resolved.shard_plan item.2.byte_array.length = .ok pl)
    (hs : s.1.timeless = w.timeless) :
    Ends clock (eng.batched_put_chunks pinned chunks) s (chunks.flatten.map fun _ => true)
      (chunks.flatten.foldl (eng.afterPut pinned) w) := by
  induction chunks generalizing s w with
  | nil => exact ends_ret hs
  | cons chunk chunks ih =>
    rw [List.flatten_cons, List.forall_mem_append] at hplan
    rw [List.flatten_cons, List.map_append, List.foldl_append]
    exact (ends_batched_put_chunk hplan.1 hs).bind fun s₁ hs₁ =>
      (ih hplan.2 hs₁).bind fun s₂ hs₂ => ends_ret hs₂

theorem ends_batched_put {items : List (Text × MemoryObj)}
    (hplan : ∀ item ∈ items, ∃ pl, eng.resolved.shard_plan item.2.byte_array.length = .ok pl)
    (hs : s.1.timeless = w.timeless) :
    Ends clock (eng.batched_put items pinned) s (items.map fun _ => true)
      (items.foldl (eng.afterPut pinned) w) := by
  unfold Engine.batched_put
  by_cases hnil : items = []
  · subst hnil
    exact ends_ret hs
  · rw [if_neg hnil]
    have hflat := flatten_chunked items (show 0 < Engine.BATCH_KEYS_CHUNK by decide)
    rw [← hflat] at hplan
    have hchunks : Ends clock (eng.batched_put_chunks pinned _) s _ _ :=
      ends_batched_put_chunks hplan hs
    rw [hflat] at hchunks
    exact hchunks.tryCatch _

end Ends

/-- **`batched_put` stores what putting one by one stores.** -/
theorem batched_put_as_puts (eng : Engine) (pinned : Bool) (items : List (Text × MemoryObj))
    (hplan : ∀ item ∈ items, ∃ pl, eng.resolved.shard_plan item.2.byte_array.length = .ok pl)
    (w : World) (clock clock' : ℕ → ℕ) :
    ∃ s s' : World × ℕ,
      (eng.batched_put items pinned).run (Op.performAt clock) (w, 0)
        = (.ok (items.map fun _ => true), s) ∧
      (eng.put_each pinned items).run (Op.performAt clock') (w, 0) = (.ok (), s') ∧
      s.1.timeless = s'.1.timeless := by
  have hbatched : Ends clock (eng.batched_put items pinned) (w, 0) _ _ := ends_batched_put hplan rfl
  have hone_by_one : Ends clock' (eng.put_each pinned items) (w, 0) _ _ := ends_put_each hplan rfl
  obtain ⟨s, hbatch, hs⟩ := hbatched
  obtain ⟨s', heach, hs'⟩ := hone_by_one
  exact ⟨s, s', hbatch, heach, hs.trans hs'.symm⟩

theorem batched_put_as_puts_mixed :
    ∃ s s' : World × ℕ,
      (shortSegments.batched_put [("a".toList, { byte_array := [1, 2, 3] }),
          ("b".toList, { byte_array := [4] })] true).run (Op.performAt id) (.empty, 0)
        = (.ok [true, true], s) ∧
      (shortSegments.put_each true [("a".toList, { byte_array := [1, 2, 3] }),
          ("b".toList, { byte_array := [4] })]).run (Op.performAt fun i => 2 * i)
          (.empty, 0)
        = (.ok (), s') ∧
      s.1.timeless = s'.1.timeless :=
  batched_put_as_puts shortSegments true _
    (List.forall_mem_cons.mpr ⟨⟨⟨2, 2⟩, by decide⟩,
      List.forall_mem_cons.mpr ⟨⟨⟨1, 1⟩, by decide⟩, by simp⟩⟩) .empty id fun i => 2 * i
