/-
# Storing a batch

What `put` and `batched_put` answer, and which meta records they leave, when the server
refuses some of the writes.  A put succeeds exactly when none of its own writes is refused
(`Refusals.puts`), and a batch answers for every item what its own put would
(`run_batched_put`), whether it went out as one `batch_write` or as one put after the other.
-/
import LmcacheAerospike.PutWorld
import LmcacheAerospike.Refusals

/-! ## The writes of one put -/

/-- None of the writes is refused. -/
def Refusals.accepts (R : Refusals) (writes : List Write) : Bool :=
  writes.all fun wr => (R.write wr).isNone

/-- **The put of the item succeeds**: its payload has a plan, and none of its writes is
refused. -/
def Refusals.puts (R : Refusals) (eng : Engine) (pinned : Bool) (now : ℕ)
    (item : Text × MemoryObj) : Bool :=
  match eng.resolved.shard_plan item.2.byte_array.length with
  | .ok pl => R.accepts (eng.put_writes item.1 item.2 pinned pl now)
  | .error _ => false

/-- The same meta records of the engine's namespace and set. -/
def Engine.SameMetas (eng : Engine) (w w' : World) : Prop :=
  ∀ ck, w'.records (eng.metaKey ck) = w.records (eng.metaKey ck)

section Store

variable {R : Refusals} {eng : Engine} {ck : Text} {mo : MemoryObj} {pinned : Bool}
  {w w' : World}

/-! ## The clock -/

theorem call_now (o : Op) (w : World) : (R.call o w).2.now = w.now := by
  have hall : ∀ (ops : List RecOp) (w : World), (R.performAll ops w).2.now = w.now := by
    intro ops
    induction ops with
    | nil => exact fun _ => rfl
    | cons op ops ih =>
      intro w
      exact (ih _).trans (faulty_now (faulty_refusing op w))
  unfold Refusals.call
  cases R.raised o with
  | some x => rfl
  | none => exact hall o.items w

/-- A run takes no time. -/
theorem run_now {α : Type} (p : EngineM α) (w : World) : (p.run R.call w).2.now = w.now :=
  Prog.run_keeps (I := fun w' => w'.now = w.now) (G := fun _ => True)
    (fun o w' _ hw => (call_now o w').trans hw) p p.allCalls_true rfl

/-! ## One put -/

/-- `reraise` raises. -/
theorem run_reraise {α : Type} (op_name : String) (too_big : AxError → String) (e : PyExc)
    (w : World) : ∃ e', (Engine.reraise op_name too_big e : EngineM α).run R.call w
      = (.error e', w) := by
  unfold Engine.reraise
  split
  · split_ifs
    · exact ⟨_, rfl⟩
    · exact ⟨_, rfl⟩
    · exact ⟨_, rfl⟩
    · exact ⟨_, rfl⟩
  · exact ⟨_, rfl⟩

/-- The check of the segments passes exactly when none of them was refused. -/
theorem check_segments_refusing (writes : List Write) :
    (R.accepts writes = true ∧ Engine.check_segments (writes.map R.writeRecord) = .ok ()) ∨
      (R.accepts writes = false ∧
        ∃ e, Engine.check_segments (writes.map R.writeRecord) = .error e) := by
  induction writes with
  | nil => exact Or.inl ⟨rfl, rfl⟩
  | cons wr writes ih =>
    rw [List.map_cons, Engine.check_segments]
    unfold Refusals.accepts at ih ⊢
    rw [List.all_cons]
    cases hwr : R.write wr with
    | some r =>
      right
      have hres : (R.writeRecord wr).result ≠ AEROSPIKE_OK := by
        rw [Ne, writeRecord_result, hwr]
        exact fun h => by cases h
      rw [if_pos hres]
      exact ⟨rfl, _, rfl⟩
    | none =>
      rw [if_neg (not_not.mpr ((writeRecord_result wr).mpr hwr))]
      exact ih

/-- Segment writes leave the meta records as they are. -/
theorem sameMetas_segments (pl : ShardPlan) (ttl : ℤ) (payload : Bytes) :
    eng.SameMetas w ((eng.segment_writes ck payload pl ttl).foldl R.applyWrite w) := by
  have hall : ∀ (writes : List Write), (∀ wr ∈ writes, ∃ i, wr.key = eng.segmentKey ck i) →
      ∀ w, eng.SameMetas w (writes.foldl R.applyWrite w) := by
    intro writes
    induction writes with
    | nil => exact fun _ _ _ => rfl
    | cons wr writes ih =>
      intro hkeys w ck'
      rw [List.forall_mem_cons] at hkeys
      obtain ⟨⟨i, hi⟩, hrest⟩ := hkeys
      rw [List.foldl_cons, ih hrest]
      unfold Refusals.applyWrite
      cases R.write wr with
      | some r => rfl
      | none =>
        refine World.applyWrite_of_ne w ?_
        rw [hi]
        exact meta_key_ne_segment_key _ _ _ _ _ _ _
  refine hall _ (fun wr hwr => ?_) w
  obtain ⟨i, -, rfl⟩ := List.mem_map.mp hwr
  exact ⟨i, rfl⟩

/-- What a put comes to: it succeeds and has written the meta record last, or a write was
refused and the meta records are what they were. -/
def PutEnds (R : Refusals) (eng : Engine) (writes : List Write)
    (meta_write : Write) (w : World) (x : Except PyExc Unit × World) : Prop :=
  (x.1 = .ok () ∧ R.accepts writes = true ∧
      ∃ w₁, eng.SameMetas w w₁ ∧ x.2 = w₁.applyWrite meta_write) ∨
    ((∃ e, x.1 = .error e) ∧ R.accepts writes = false ∧ eng.SameMetas w x.2)

/-- The write of the meta record. -/
theorem run_client_put (wr : Write) (w : World) :
    (R.write wr = none ∧ (raising (client_put wr)).run R.call w = (.ok (), w.applyWrite wr)) ∨
      ∃ r, R.write wr = some r ∧
        (raising (client_put wr)).run R.call w = (.error (.aerospike r.exc), w) := by
  cases hwr : R.write wr with
  | some r =>
    right
    refine ⟨r, rfl, ?_⟩
    show Prog.run _ (.call (Op.put wr) _) w = _
    rw [Prog.run_call, call_put_refused hwr]
    rfl
  | none =>
    left
    refine ⟨rfl, ?_⟩
    show Prog.run _ (.call (Op.put wr) _) w = _
    rw [Prog.run_call, call_put_accepted hwr]
    rfl

theorem run_put_records_refusing (pl : ShardPlan) (now : ℕ) :
    PutEnds R eng (eng.put_writes ck mo pinned pl now) (eng.meta_write ck mo pl pinned now) w
      ((eng.put_records ck mo pl pinned now).run R.call w) := by
  unfold Engine.put_records Engine.put_writes
  by_cases hn : pl.nseg = 1
  · rw [if_pos hn, if_pos hn]
    rcases run_client_put (eng.meta_write ck mo pl pinned now) w with ⟨hwr, hrun⟩ | ⟨r, hwr, hrun⟩
    · refine Or.inl ⟨by rw [hrun], by simp [Refusals.accepts, hwr], w, fun _ => rfl, by rw [hrun]⟩
    · refine Or.inr ⟨⟨_, by rw [hrun]⟩, by simp [Refusals.accepts, hwr], ?_⟩
      rw [hrun]
      exact fun _ => rfl
  · rw [if_neg hn, if_neg hn]
    show PutEnds R eng _ _ w (Prog.run R.call (.call (Op.batch_write _) _) w)
    rw [Prog.run_call, call_batch_write]
    dsimp only [Prog.ret_bind]
    have hsegments : eng.SameMetas w
        ((eng.segment_writes ck mo.byte_array pl (eng.ttl_value pinned)).foldl R.applyWrite w) :=
      sameMetas_segments pl _ _
    rcases check_segments_refusing (R := R)
      (eng.segment_writes ck mo.byte_array pl (eng.ttl_value pinned)) with
        ⟨hacc, hcheck⟩ | ⟨hacc, e, hcheck⟩
    · rw [hcheck]
      show PutEnds R eng _ _ w (Prog.run R.call (raising (client_put _)) _)
      rcases run_client_put (R := R) (eng.meta_write ck mo pl pinned now)
        ((eng.segment_writes ck mo.byte_array pl (eng.ttl_value pinned)).foldl R.applyWrite w)
          with ⟨hwr, hrun⟩ | ⟨r, hwr, hrun⟩
      · refine Or.inl ⟨by rw [hrun], ?_, _, hsegments, by rw [hrun]⟩
        unfold Refusals.accepts at hacc ⊢
        rw [List.all_append, hacc]
        simp [hwr]
      · refine Or.inr ⟨⟨_, by rw [hrun]⟩, ?_, ?_⟩
        · unfold Refusals.accepts at hacc ⊢
          rw [List.all_append, hacc]
          simp [hwr]
        · rw [hrun]
          exact hsegments
    · rw [hcheck]
      refine Or.inr ⟨⟨_, rfl⟩, ?_, hsegments⟩
      unfold Refusals.accepts at hacc ⊢
      rw [List.all_append, hacc]
      rfl

/-- The meta records after some keys have been stored. -/
def Engine.MetasAdded (eng : Engine) (stored : List Text) (w w' : World) : Prop :=
  ∀ ck, w'.hasMeta eng.cfg.ns eng.cfg.set_name ck = true ↔
    w.hasMeta eng.cfg.ns eng.cfg.set_name ck = true ∨ ck ∈ stored

theorem Engine.SameMetas.added (h : eng.SameMetas w w') : eng.MetasAdded [] w w' := by
  intro ck
  unfold World.hasMeta
  rw [h ck]
  simp

/-- A meta record written. -/
theorem metasAdded_write (pl : ShardPlan) (now : ℕ) :
    eng.MetasAdded [ck] w (w.applyWrite (eng.meta_write ck mo pl pinned now)) := by
  intro ck'
  unfold World.hasMeta
  by_cases hck : ck' = ck
  · subst hck
    rw [show meta_key eng.cfg.ns eng.cfg.set_name ck'
      = (eng.meta_write ck' mo pl pinned now).key from rfl, World.applyWrite_self]
    simp
  · rw [World.applyWrite_of_ne w fun heq => hck (meta_key_inj heq)]
    simp [hck]

theorem Engine.MetasAdded.trans {stored stored' : List Text} {w₁ w₂ w₃ : World}
    (h : eng.MetasAdded stored w₁ w₂) (h' : eng.MetasAdded stored' w₂ w₃) :
    eng.MetasAdded (stored ++ stored') w₁ w₃ := by
  intro ck
  rw [h' ck, h ck, List.mem_append, or_assoc]

/-- **What a put comes to when writes may be refused.** -/
theorem run_put_refusing (w : World) :
    (((eng.put ck mo pinned).run R.call w).1 = .ok () ∧
        R.puts eng pinned w.now (ck, mo) = true ∧
        eng.MetasAdded [ck] w ((eng.put ck mo pinned).run R.call w).2) ∨
      ((∃ e, ((eng.put ck mo pinned).run R.call w).1 = .error e) ∧
        R.puts eng pinned w.now (ck, mo) = false ∧
        eng.MetasAdded [] w ((eng.put ck mo pinned).run R.call w).2) := by
  have hsame : eng.SameMetas w w := fun _ => rfl
  unfold Refusals.puts
  cases hplan : eng.resolved.shard_plan mo.byte_array.length with
  | error e =>
    right
    unfold Engine.put
    rw [hplan]
    exact ⟨⟨e, rfl⟩, rfl, hsame.added⟩
  | ok pl =>
    rw [put_planned hplan, Prog.run_call, call_time, Prog.run_tryCatch]
    have hrecords : PutEnds R eng (eng.put_writes ck mo pinned pl w.now)
        (eng.meta_write ck mo pl pinned w.now) w
        ((eng.put_records ck mo pl pinned w.now).run R.call w) :=
      run_put_records_refusing pl w.now
    rcases hrun : (eng.put_records ck mo pl pinned w.now).run R.call w with ⟨r, w₁⟩
    rw [hrun] at hrecords
    rcases hrecords with ⟨hr, hacc, w₂, hmetas, hw⟩ | ⟨⟨e, hr⟩, hacc, hmetas⟩
    · left
      dsimp only at hr hw
      subst hr hw
      refine ⟨rfl, hacc, ?_⟩
      have hwritten : eng.MetasAdded [ck] w₂
          (w₂.applyWrite (eng.meta_write ck mo pl pinned w.now)) := metasAdded_write pl w.now
      have hadded := hmetas.added.trans hwritten
      rwa [List.nil_append] at hadded
    · right
      dsimp only at hr
      subst hr
      obtain ⟨e', hraise⟩ := run_reraise (α := Unit) (R := R) "put"
        (fun _ => eng.put_too_big mo.byte_array.length) e w₁
      have hrun' : Prog.orElse R.call (Engine.reraise "put"
          fun _ => eng.put_too_big mo.byte_array.length) (.error e, w₁) = (.error e', w₁) := hraise
      rw [hrun']
      exact ⟨⟨e', rfl⟩, hacc, hmetas.added⟩

/-! ## A batch -/

/-- **What storing a batch comes to**: the meta records of some of its items are there, each
of them one whose put succeeds; when it returns, it answers for each item what its own put
comes to, and all that succeed are there; and it raises only if the put of some item does not
succeed. -/
def BatchEnds (R : Refusals) (eng : Engine) (pinned : Bool) (items : List (Text × MemoryObj))
    (w : World) (x : Except PyExc (List Bool) × World) : Prop :=
  ∃ stored : List (Text × MemoryObj),
    (∀ item ∈ stored, item ∈ items ∧ R.puts eng pinned w.now item = true) ∧
    eng.MetasAdded (stored.map Prod.fst) w x.2 ∧
    (∀ flags, x.1 = .ok flags →
      flags = items.map (R.puts eng pinned w.now) ∧
        stored = items.filter (R.puts eng pinned w.now)) ∧
    ∀ e, x.1 = .error e → ∃ item ∈ items, R.puts eng pinned w.now item = false

/-- Nothing is stored, and an exception ends the batch. -/
theorem batchEnds_raised {items : List (Text × MemoryObj)} (e : PyExc)
    (hitem : ∃ item ∈ items, R.puts eng pinned w.now item = false) :
    BatchEnds R eng pinned items w (.error e, w) := by
  have hsame : eng.SameMetas w w := fun _ => rfl
  exact ⟨[], by simp, hsame.added, fun flags h => (by cases h), fun _ _ => hitem⟩

/-- An empty batch. -/
theorem batchEnds_nil : BatchEnds R eng pinned [] w (.ok [], w) := by
  have hsame : eng.SameMetas w w := fun _ => rfl
  refine ⟨[], by simp, hsame.added, fun flags h => ?_, fun e h => (by cases h)⟩
  cases h
  exact ⟨rfl, rfl⟩

/-- One batch after the other. -/
theorem BatchEnds.append {items items' : List (Text × MemoryObj)} {flags : List Bool}
    {w₁ : World} {x : Except PyExc (List Bool) × World}
    (h : BatchEnds R eng pinned items w (.ok flags, w₁)) (hnow : w₁.now = w.now)
    (h' : BatchEnds R eng pinned items' w₁ x) :
    BatchEnds R eng pinned (items ++ items') w (x.1.map (flags ++ ·), x.2) := by
  obtain ⟨stored, hmem, hadded, hflags, -⟩ := h
  obtain ⟨stored', hmem', hadded', hflags', herror'⟩ := h'
  rw [hnow] at hmem' hflags' herror'
  refine ⟨stored ++ stored', fun item hitem => ?_, ?_, fun flags' hx => ?_, fun e hx => ?_⟩
  · rcases List.mem_append.mp hitem with hi | hi
    · exact ⟨List.mem_append_left _ (hmem item hi).1, (hmem item hi).2⟩
    · exact ⟨List.mem_append_right _ (hmem' item hi).1, (hmem' item hi).2⟩
  · rw [List.map_append]
    exact hadded.trans hadded'
  · obtain ⟨hfirst, hstored⟩ := hflags flags rfl
    cases hx₁ : x.1 with
    | error e =>
      rw [hx₁] at hx
      cases hx
    | ok rest =>
      rw [hx₁] at hx
      cases hx
      obtain ⟨hrest, hstored'⟩ := hflags' rest hx₁
      rw [hfirst, hrest, hstored, hstored', List.map_append, List.filter_append]
      exact ⟨rfl, rfl⟩
  · cases hx₁ : x.1 with
    | error e' =>
      obtain ⟨item, hitem, hputs⟩ := herror' e' hx₁
      exact ⟨item, List.mem_append_right _ hitem, hputs⟩
    | ok rest =>
      rw [hx₁] at hx
      cases hx

/-- An exception of the rest of a batch. -/
theorem BatchEnds.raised {items items' : List (Text × MemoryObj)} {e : PyExc} {w₁ : World}
    (h : BatchEnds R eng pinned items w (.error e, w₁)) :
    BatchEnds R eng pinned (items ++ items') w (.error e, w₁) := by
  obtain ⟨stored, hmem, hadded, -, herror⟩ := h
  refine ⟨stored, fun item hitem => ?_, hadded, fun flags hx => (by cases hx), fun e' _ => ?_⟩
  · exact ⟨List.mem_append_left _ (hmem item hitem).1, (hmem item hitem).2⟩
  · obtain ⟨item, hitem, hputs⟩ := herror e rfl
    exact ⟨item, List.mem_append_left _ hitem, hputs⟩

/-- An item of the mixed path. -/
theorem run_put_item_refusing (w : World) :
    BatchEnds R eng pinned [(ck, mo)] w
      ((((eng.put_item pinned ck mo).run R.call w).1).map fun flag => [flag],
        ((eng.put_item pinned ck mo).run R.call w).2) := by
  unfold Engine.put_item
  rw [Prog.run_tryCatch, Prog.run_bind]
  have hput := @run_put_refusing R eng ck mo pinned w
  rcases hrun : (eng.put ck mo pinned).run R.call w with ⟨r, w₁⟩
  rw [hrun] at hput
  rcases hput with ⟨hr, hputs, hadded⟩ | ⟨⟨e, hr⟩, hputs, hadded⟩
  · dsimp only at hr
    subst hr
    refine ⟨[(ck, mo)], ?_, hadded, fun flags hx => ?_, fun e hx => (by cases hx)⟩
    · intro item hitem
      rw [List.mem_singleton] at hitem
      subst hitem
      exact ⟨List.mem_singleton_self _, hputs⟩
    · cases hx
      simp [hputs]
  · dsimp only at hr
    subst hr
    -- whatever the handler makes of it, nothing was stored
    have hfalse : ∀ x : Except PyExc Bool × World, x.2 = w₁ → (∀ flag, x.1 = .ok flag →
        flag = false) → BatchEnds R eng pinned [(ck, mo)] w (x.1.map fun flag => [flag], x.2) := by
      rintro ⟨r, w₂⟩ rfl hflag
      refine ⟨[], by simp, hadded, fun flags hx => ?_,
        fun _ _ => ⟨_, List.mem_singleton_self _, hputs⟩⟩
      cases r with
      | error e => cases hx
      | ok flag =>
        cases hx
        rw [hflag flag rfl]
        simp [hputs]
    show BatchEnds R eng pinned [(ck, mo)] w (Except.map _ (Prog.orElse R.call _ (.error e, w₁)).1,
      (Prog.orElse R.call _ (.error e, w₁)).2)
    refine hfalse _ ?_ ?_
    · unfold Prog.orElse
      dsimp only
      split <;> rfl
    · intro flag hx
      unfold Prog.orElse at hx
      dsimp only at hx
      split at hx
      · cases hx; rfl
      · cases hx; rfl
      · cases hx; rfl
      · cases hx; rfl
      · cases hx

/-- Two batches one after the other, as a program. -/
theorem batchEnds_bind {items items' : List (Text × MemoryObj)} {p p' : EngineM (List Bool)}
    (h : BatchEnds R eng pinned items w (p.run R.call w))
    (h' : ∀ w₁, w₁.now = w.now → BatchEnds R eng pinned items' w₁ (p'.run R.call w₁)) :
    BatchEnds R eng pinned (items ++ items') w
      ((p.bind fun flags => p'.bind fun rest => .ret (flags ++ rest)).run R.call w) := by
  have hnow := run_now (R := R) p w
  rw [Prog.run_bind]
  rcases hrun : p.run R.call w with ⟨r, w₁⟩
  rw [hrun] at h hnow
  cases r with
  | error e => exact h.raised
  | ok flags =>
    rw [Prog.andThen_ok, Prog.run_bind]
    have hrest := h.append hnow (h' w₁ hnow)
    rcases hrun' : p'.run R.call w₁ with ⟨r', w₂⟩
    rw [hrun'] at hrest
    cases r' with
    | error e => exact hrest
    | ok rest => exact hrest

/-- The mixed path. -/
theorem run_put_items_refusing {plans : List PlannedPut} :
    ∀ w : World, BatchEnds R eng pinned
      (plans.map fun item => (item.ck, item.memory_obj)) w
      ((eng.put_items pinned plans).run R.call w) := by
  induction plans with
  | nil => exact fun _ => batchEnds_nil
  | cons item plans ih =>
    intro w
    have hone : BatchEnds R eng pinned [(item.ck, item.memory_obj)] w
        (((eng.put_item pinned item.ck item.memory_obj).bind fun ok => .ret [ok]).run
          R.call w) := by
      have hitem : BatchEnds R eng pinned [(item.ck, item.memory_obj)] w
          ((((eng.put_item pinned item.ck item.memory_obj).run R.call w).1).map fun flag => [flag],
            ((eng.put_item pinned item.ck item.memory_obj).run R.call w).2) :=
        run_put_item_refusing w
      rw [Prog.run_bind]
      rcases hrun : (eng.put_item pinned item.ck item.memory_obj).run R.call w with ⟨r, w₁⟩
      rw [hrun] at hitem
      cases r with
      | error e => exact hitem
      | ok flag => exact hitem
    have hrest := batchEnds_bind hone fun w₁ _ => ih w₁
    rw [Prog.bind_assoc] at hrest
    exact hrest

/-- Planning is done without the server. -/
theorem run_plan_items_refusing (items : List (Text × MemoryObj)) (w : World) :
    (eng.plan_items pinned items).run R.call w
      = (eng.plan_items pinned items).run Op.perform w := by
  induction items with
  | nil => rfl
  | cons item items ih =>
    obtain ⟨ck, mo⟩ := item
    unfold Engine.plan_items
    cases hplan : eng.resolved.shard_plan mo.byte_array.length with
    | error e => rfl
    | ok pl =>
      show Prog.run R.call (Prog.bind (eng.plan_items pinned items) _) w
        = Prog.run Op.perform (Prog.bind (eng.plan_items pinned items) _) w
      rw [Prog.run_bind, Prog.run_bind, ih]
      rcases (eng.plan_items pinned items).run Op.perform w with ⟨r, w₁⟩
      cases r with
      | error e => rfl
      | ok rest => rfl

theorem run_plan_items_state (items : List (Text × MemoryObj)) (w : World) :
    ((eng.plan_items pinned items).run Op.perform w).2 = w := by
  induction items with
  | nil => rfl
  | cons item items ih =>
    obtain ⟨ck, mo⟩ := item
    unfold Engine.plan_items
    cases hplan : eng.resolved.shard_plan mo.byte_array.length with
    | error e => rfl
    | ok pl =>
      show (Prog.run Op.perform (Prog.bind (eng.plan_items pinned items) _) w).2 = w
      rw [Prog.run_bind]
      rcases hrun : (eng.plan_items pinned items).run Op.perform w with ⟨r, w₁⟩
      rw [hrun] at ih
      cases r with
      | error e => exact ih
      | ok rest => exact ih

/-- Planning raises only for an item without a plan. -/
theorem puts_of_unplanned {items : List (Text × MemoryObj)} {e : PyExc} {now : ℕ} {w₁ : World}
    (h : (eng.plan_items pinned items).run Op.perform w = (.error e, w₁)) :
    ∃ item ∈ items, R.puts eng pinned now item = false := by
  induction items generalizing e w₁ with
  | nil => cases h
  | cons item items ih =>
    obtain ⟨ck, mo⟩ := item
    unfold Engine.plan_items at h
    cases hplan : eng.resolved.shard_plan mo.byte_array.length with
    | error e' =>
      refine ⟨(ck, mo), List.mem_cons_self, ?_⟩
      unfold Refusals.puts
      rw [hplan]
    | ok pl =>
      rw [hplan] at h
      change Prog.run Op.perform (Prog.bind (eng.plan_items pinned items) _) w = _ at h
      rw [Prog.run_bind] at h
      rcases hrun : (eng.plan_items pinned items).run Op.perform w with ⟨r, w₂⟩
      rw [hrun] at h
      cases r with
      | error e' =>
        obtain ⟨item, hitem, hputs⟩ := ih hrun
        exact ⟨item, List.mem_cons_of_mem _ hitem, hputs⟩
      | ok rest => cases h

/-- Items that are planned as they are. -/
theorem plans_items {items : List (Text × MemoryObj)} {plans : List PlannedPut} {now : ℕ}
    (h : List.Forall₂ (PlannedPut.Plans eng pinned now) items plans) :
    plans.map (fun item => (item.ck, item.memory_obj)) = items := by
  induction h with
  | nil => rfl
  | cons hplan _ ih => rw [List.map_cons, ih, hplan.ck, hplan.memory_obj]

theorem planned_nseg_pos {items : List (Text × MemoryObj)} {plans : List PlannedPut} {now : ℕ}
    (h : List.Forall₂ (PlannedPut.Plans eng pinned now) items plans) :
    ∀ planned ∈ plans, 0 < planned.p.nseg := by
  induction h with
  | nil => simp
  | cons hplan _ ih =>
    rw [List.forall_mem_cons]
    exact ⟨(plan_covers _ _ _ _ _ _ hplan.p).nseg_pos, ih⟩

/-- The only write of an item with the single-record layout. -/
theorem puts_of_plans {item : Text × MemoryObj} {planned : PlannedPut} {now : ℕ}
    (h : PlannedPut.Plans eng pinned now item planned) (hone : planned.p.nseg = 1) :
    R.puts eng pinned now item = (R.write planned.mwrite).isNone := by
  unfold Refusals.puts Engine.put_writes
  rw [h.p, h.mwrite]
  dsimp only
  rw [if_pos hone]
  exact Bool.and_true _

/-- The batch of meta records answers for each item what its own put comes to. -/
theorem flags_batch {items : List (Text × MemoryObj)} {plans : List PlannedPut} {now : ℕ}
    (h : List.Forall₂ (PlannedPut.Plans eng pinned now) items plans)
    (hone : ∀ item ∈ plans, item.p.nseg = 1) :
    (plans.map fun item => decide ((R.writeRecord item.mwrite).result = AEROSPIKE_OK))
      = items.map (R.puts eng pinned now) := by
  induction h with
  | nil => rfl
  | @cons item planned items plans hplan _ ih =>
    rw [List.forall_mem_cons] at hone
    rw [List.map_cons, List.map_cons, ih hone.2, puts_of_plans hplan hone.1]
    congr 1
    cases hwr : R.write planned.mwrite with
    | some r =>
      refine decide_eq_false fun hres => ?_
      rw [writeRecord_result, hwr] at hres
      cases hres
    | none => exact decide_eq_true ((writeRecord_result _).mpr hwr)

/-- The batch of meta records has stored those that were not refused. -/
theorem metasAdded_batch {items : List (Text × MemoryObj)} {plans : List PlannedPut} {now : ℕ}
    (h : List.Forall₂ (PlannedPut.Plans eng pinned now) items plans)
    (hone : ∀ item ∈ plans, item.p.nseg = 1) (w : World) :
    eng.MetasAdded ((items.filter (R.puts eng pinned now)).map Prod.fst) w
      ((plans.map PlannedPut.mwrite).foldl R.applyWrite w) := by
  induction h generalizing w with
  | nil =>
    have hsame : eng.SameMetas w w := fun _ => rfl
    exact hsame.added
  | @cons item planned items plans hplan _ ih =>
    rw [List.forall_mem_cons] at hone
    rw [List.map_cons, List.foldl_cons]
    have hrest := ih hone.2 (R.applyWrite w planned.mwrite)
    have hputs := puts_of_plans (R := R) hplan hone.1
    unfold Refusals.applyWrite at hrest ⊢
    cases hwr : R.write planned.mwrite with
    | some r =>
      rw [hwr] at hrest hputs
      rw [List.filter_cons_of_neg (by rw [hputs]; exact Bool.false_ne_true)]
      exact hrest
    | none =>
      rw [hwr] at hrest hputs
      rw [List.filter_cons_of_pos (by rw [hputs]; rfl), List.map_cons]
      have hfirst : eng.MetasAdded [item.1] w (w.applyWrite planned.mwrite) := by
        rw [hplan.mwrite]
        exact metasAdded_write planned.p now
      exact hfirst.trans hrest

/-- **A chunk.** -/
theorem run_batched_put_chunk (items : List (Text × MemoryObj)) (w : World) :
    BatchEnds R eng pinned items w ((eng.batched_put_chunk pinned items).run R.call w) := by
  unfold Engine.batched_put_chunk
  rw [Prog.bind_eq, Prog.run_bind, run_plan_items_refusing]
  rcases hrun : (eng.plan_items pinned items).run Op.perform w with ⟨r, w₁⟩
  cases r with
  | error e =>
    -- planning takes no call but the clock
    have hw : w₁ = w := by
      have hstate : ((eng.plan_items pinned items).run Op.perform w).2 = w :=
        run_plan_items_state items w
      rwa [hrun] at hstate
    subst hw
    exact batchEnds_raised e (puts_of_unplanned hrun)
  | ok plans =>
    obtain ⟨rfl, hplans⟩ := run_plan_items hrun
    rw [Prog.andThen_ok]
    by_cases hany : plans.any (fun item => item.p.nseg > 1) = true
    · rw [if_pos hany]
      have hput : BatchEnds R eng pinned (plans.map fun item => (item.ck, item.memory_obj)) w₁
          ((eng.put_items pinned plans).run R.call w₁) := run_put_items_refusing w₁
      rwa [plans_items hplans] at hput
    · rw [if_neg hany]
      have hone : ∀ item ∈ plans, item.p.nseg = 1 := by
        intro item hitem
        have hle := single_of_not_any hany item hitem
        have hpos := planned_nseg_pos hplans item hitem
        omega
      have hmap : (plans.map fun item => BatchOp.write item.mwrite)
          = (plans.map PlannedPut.mwrite).map .write := by
        rw [List.map_map]
        rfl
      rw [hmap]
      show BatchEnds R eng pinned items w₁ (Prog.run R.call (.call (Op.batch_write _) _) w₁)
      rw [Prog.run_call, call_batch_write]
      refine ⟨items.filter (R.puts eng pinned w₁.now), fun item hitem => ?_,
        metasAdded_batch hplans hone w₁, fun flags hflags => ?_, fun e he => (by cases he)⟩
      · exact ⟨List.mem_of_mem_filter hitem, List.of_mem_filter hitem⟩
      · have hanswer : flags = ((plans.map PlannedPut.mwrite).map R.writeRecord).map
            fun rec => decide (rec.result = AEROSPIKE_OK) := by
          cases hflags
          rfl
        rw [hanswer, List.map_map, List.map_map]
        exact ⟨flags_batch hplans hone, rfl⟩

/-- The loop over the chunks. -/
theorem run_batched_put_chunks (chunks : List (List (Text × MemoryObj))) :
    ∀ w : World, BatchEnds R eng pinned chunks.flatten w
      ((eng.batched_put_chunks pinned chunks).run R.call w) := by
  induction chunks with
  | nil => exact fun _ => batchEnds_nil
  | cons chunk chunks ih =>
    intro w
    exact batchEnds_bind (run_batched_put_chunk chunk w) fun w₁ _ => ih w₁

/-- **A batch that returns answers for each item what its own put comes to**, in the order of
the items. -/
theorem run_batched_put (items : List (Text × MemoryObj)) (w : World) :
    BatchEnds R eng pinned items w ((eng.batched_put items pinned).run R.call w) := by
  unfold Engine.batched_put
  by_cases hnil : items = []
  · subst hnil
    exact batchEnds_nil
  · rw [if_neg hnil, Prog.run_tryCatch]
    have hchunks : BatchEnds R eng pinned (Engine.chunked items Engine.BATCH_KEYS_CHUNK).flatten w
        ((eng.batched_put_chunks pinned
          (Engine.chunked items Engine.BATCH_KEYS_CHUNK)).run R.call w) :=
      run_batched_put_chunks _ w
    rw [flatten_chunked items (by decide)] at hchunks
    rcases hrun : (eng.batched_put_chunks pinned
      (Engine.chunked items Engine.BATCH_KEYS_CHUNK)).run R.call w with ⟨r, w₁⟩
    rw [hrun] at hchunks
    cases r with
    | ok flags => exact hchunks
    | error e =>
      obtain ⟨e', hraise⟩ := run_reraise (α := List Bool) (R := R) "batched_put" AxError.str e w₁
      have hrun' : Prog.orElse R.call (Engine.reraise "batched_put" AxError.str) (.error e, w₁)
          = ((.error e', w₁) : Except PyExc (List Bool) × World) := hraise
      rw [hrun']
      obtain ⟨stored, hmem, hadded, -, herror⟩ := hchunks
      exact ⟨stored, hmem, hadded, fun flags h => (by cases h), fun _ _ => herror e rfl⟩

end Store
