/-
# What the engine may ask of the client

Every client call that an engine function can make, whatever the answers it gets, is
made of the single-record operations listed in `EngineRecOp`: reads, and a handful of
writes each of which is the write of one planned put, of a pin bin, or a removal.
What an operation can do to the store is said here once; the invariants of the store
are proved about this list and not about the functions.
-/
import LmcacheAerospike.Engine

/-- The operations of an engine that only reads the logical keys in `K`. -/
inductive EngineReadOp (eng : Engine) (K : Text → Prop) : RecOp → Prop
  | read_meta {ck : Text} {bins : Option (List BinName)} : K ck →
      EngineReadOp eng K (.read (eng.metaKey ck) bins)
  | read_segment {ck : Text} {i : ℕ} : K ck →
      EngineReadOp eng K (.read (eng.segmentKey ck i) (some [.b]))
  | ref_count_down : EngineReadOp eng K .ref_count_down

/-- The single-record operations of an engine that works on the logical keys in `K` and
puts the objects in `P`. -/
inductive EngineRecOp (eng : Engine) (K : Text → Prop) (P : Text → MemoryObj → Prop) :
    RecOp → Prop
  | of_read {op : RecOp} : EngineReadOp eng K op → EngineRecOp eng K P op
  | write_segment {ck : Text} {mo : MemoryObj} {p : ShardPlan} {ttl : ℤ} {i : ℕ} :
      P ck mo → eng.resolved.shard_plan mo.byte_array.length = .ok p → p.nseg ≠ 1 →
      i < p.nseg →
      EngineRecOp eng K P (.write (eng.segment_write ck mo.byte_array p.seg_b ttl i))
  | write_meta {ck : Text} {mo : MemoryObj} {p : ShardPlan} {pinned : Bool} {now : ℕ} :
      P ck mo → eng.resolved.shard_plan mo.byte_array.length = .ok p →
      EngineRecOp eng K P (.write (eng.meta_write ck mo p pinned now))
  | write_pin {ck : Text} {v : Bool} {ttl : ℤ} : K ck →
      EngineRecOp eng K P (.write (eng.pin_write ck v ttl))
  | touch_meta {ck : Text} {ttl : ℤ} : K ck →
      EngineRecOp eng K P (.touch (eng.metaKey ck) ttl)
  | remove_meta {ck : Text} : K ck → EngineRecOp eng K P (.remove (eng.metaKey ck))
  | remove_segment {ck : Text} {i : ℕ} : K ck →
      EngineRecOp eng K P (.remove (eng.segmentKey ck i))
  | clock : EngineRecOp eng K P .clock

/-- A call that only reads. -/
def EngineReadCall (eng : Engine) (K : Text → Prop) (o : Op) : Prop :=
  ∀ i ∈ o.items, EngineReadOp eng K i

/-- A call made of the engine's operations only. -/
def EngineCall (eng : Engine) (K : Text → Prop) (P : Text → MemoryObj → Prop) (o : Op) :
    Prop :=
  ∀ i ∈ o.items, EngineRecOp eng K P i

section Calls

variable {eng : Engine} {K : Text → Prop} {P : Text → MemoryObj → Prop}

/-! ## Single calls -/

/-- A call with one operation. -/
theorem engineCall_single {o : Op} {i : RecOp} (ho : o.items = [i])
    (hi : EngineRecOp eng K P i) : EngineCall eng K P o := by
  intro j hj
  rw [ho, List.mem_singleton] at hj
  rw [hj]
  exact hi

/-- A reading call with one operation. -/
theorem engineReadCall_single {o : Op} {i : RecOp} (ho : o.items = [i])
    (hi : EngineReadOp eng K i) : EngineReadCall eng K o := by
  intro j hj
  rw [ho, List.mem_singleton] at hj
  rw [hj]
  exact hi

/-- A call that only reads is a call of the engine. -/
theorem engineCall_of_read {o : Op} (h : EngineReadCall eng K o) : EngineCall eng K P o :=
  fun i hi => .of_read (h i hi)

/-- A program that only reads makes calls of the engine only. -/
theorem allCalls_of_read {α : Type} {p : EngineM α} (hp : p.AllCalls (EngineReadCall eng K)) :
    p.AllCalls (EngineCall eng K P) :=
  Prog.allCalls_mono (fun _ => engineCall_of_read) p hp

/-- A `batch_read` of meta records. -/
theorem engineCall_read_metas {keys : List Text} {bins : List BinName}
    (hk : ∀ ck ∈ keys, K ck) :
    EngineReadCall eng K (.batch_read (keys.map eng.metaKey) bins) := by
  intro i hi
  simp only [Op.items, List.map_map, List.mem_map, Function.comp] at hi
  obtain ⟨ck, hck, rfl⟩ := hi
  exact .read_meta (hk ck hck)

/-- A `batch_read` of segment records. -/
theorem engineCall_read_segments {ck : Text} (n : ℕ) (hk : K ck) :
    EngineReadCall eng K
      (.batch_read (segment_keys eng.cfg.ns eng.cfg.set_name ck n) [.b]) := by
  intro i hi
  simp only [Op.items, segment_keys, List.map_map, List.mem_map, Function.comp] at hi
  obtain ⟨j, -, rfl⟩ := hi
  exact .read_segment hk

/-- The `batch_write` of the segments of a put. -/
theorem engineCall_write_segments {ck : Text} {mo : MemoryObj} {p : ShardPlan} {ttl : ℤ}
    (hp : P ck mo) (hplan : eng.resolved.shard_plan mo.byte_array.length = .ok p)
    (hn : p.nseg ≠ 1) :
    EngineCall eng K P
      (.batch_write ((eng.segment_writes ck mo.byte_array p ttl).map .write)) := by
  intro i hi
  simp only [Op.items, Engine.segment_writes, List.map_map, List.mem_map, List.mem_range,
    Function.comp] at hi
  obtain ⟨j, hj, rfl⟩ := hi
  exact .write_segment hp hplan hn hj

/-- The `batch_write` that removes segments. -/
theorem engineCall_remove_segments {ck : Text} (n : ℕ) (hk : K ck) :
    EngineCall eng K P
      (.batch_write ((segment_keys eng.cfg.ns eng.cfg.set_name ck n).map .remove)) := by
  intro i hi
  simp only [Op.items, segment_keys, List.map_map, List.mem_map, Function.comp] at hi
  obtain ⟨j, -, rfl⟩ := hi
  exact .remove_segment hk

/-- The `batch_write` of pins. -/
theorem engineCall_pins {keys : List Text} (hk : ∀ ck ∈ keys, K ck) :
    EngineCall eng K P
      (.batch_write (keys.map fun ck => .write (eng.pin_write ck true eng.pin_ttl))) := by
  intro i hi
  simp only [Op.items, List.map_map, List.mem_map, Function.comp] at hi
  obtain ⟨ck, hck, rfl⟩ := hi
  exact .write_pin (hk ck hck)

/-! ## Functions -/

open Prog

/-- A client call whose exception is raised in Python. -/
theorem allCalls_raising {α : Type} {o : Op} {k : o.Res → EngineM (Except AxError α)}
    {G : Op → Prop} (ho : G o) (hk : ∀ x, (k x).AllCalls G) :
    (raising (.call o k)).AllCalls G :=
  ⟨ho, fun x => allCalls_bind _ _ (hk x) fun r => by cases r <;> trivial⟩

/-- `exists` reads one meta record. -/
theorem exists_calls (ck : Text) (hk : K ck) :
    (eng.exists_ ck).AllCalls (EngineReadCall eng K) := by
  refine ⟨engineReadCall_single rfl (.read_meta hk), fun x => ?_⟩
  cases x with
  | ok bins => trivial
  | error exc =>
    show Prog.AllCalls _ (if _ then _ else _)
    split_ifs <;> trivial

/-- What `get` calls: the meta record, its segments, and the release of the buffer. -/
structure GetCalls (eng : Engine) (ck : Text) (G : Op → Prop) : Prop where
  read_meta : G (.get (eng.metaKey ck))
  read_segments : ∀ n, G (.batch_read (segment_keys eng.cfg.ns eng.cfg.set_name ck n) [.b])
  release : G .ref_count_down

section Get

variable {ck : Text} {G : Op → Prop} (hG : GetCalls eng ck G)

include hG

/-- The payload is read from the meta record itself or by one `batch_read` of the segments. -/
theorem read_payload_calls (bins : Bins) (nseg : ℤ) (mo : MemoryObj) :
    (eng.read_payload ck bins nseg mo).AllCalls G := by
  unfold Engine.read_payload
  split_ifs with hn
  · cases bins .b with
    | none => trivial
    | some payload =>
      exact allCalls_bind _ _ (allCalls_ofExcept _) fun _ => trivial
  · refine allCalls_bind _ _
      (allCalls_raising (hG.read_segments _) fun _ => trivial) fun recs => ?_
    apply allCalls_bind _ _ (allCalls_ofExcept _)
    intro filled
    cases filled with
    | some filled => trivial
    | none => exact ⟨hG.release, fun _ => trivial⟩

theorem fill_calls (bins : Bins) (nseg : ℤ) (mo : MemoryObj) (expect_reshape : Bool) :
    (eng.fill ck bins nseg mo expect_reshape).AllCalls G := by
  apply allCalls_bind _ _ (read_payload_calls hG bins nseg mo)
  intro filled
  cases filled with
  | none => trivial
  | some filled =>
    show Prog.AllCalls _ (if _ then _ else _)
    split_ifs
    · exact allCalls_bind _ _ (allCalls_ofExcept _) fun _ => trivial
    · trivial
    · exact ⟨hG.release, fun _ => trivial⟩

theorem get_with_meta_calls (preallocated : Option MemoryObj) (bins : Bins) :
    (eng.get_with_meta ck preallocated bins).AllCalls G := by
  unfold Engine.get_with_meta
  split_ifs with hstate
  · trivial
  · cases bins .nseg with
    | none => trivial
    | some value =>
      apply allCalls_bind _ _ (allCalls_ofExcept _)
      intro nseg
      apply allCalls_bind _ _ (allCalls_ofExcept _)
      intro buffer
      obtain ⟨mo, expect_reshape⟩ := buffer
      cases mo with
      | none => trivial
      | some mo =>
        exact allCalls_tryCatch _ _ (fill_calls hG bins nseg mo expect_reshape)
          fun _ => ⟨hG.release, fun _ => trivial⟩

theorem get_calls_of (preallocated : Option MemoryObj) :
    (eng.get ck preallocated).AllCalls G := by
  refine ⟨hG.read_meta, fun x => ?_⟩
  cases x with
  | ok bins => exact get_with_meta_calls hG preallocated bins
  | error exc =>
    show Prog.AllCalls _ (if _ then _ else _)
    split_ifs <;> trivial

end Get

/-- **`get` reads** the records of its key only. -/
theorem get_calls (ck : Text) (preallocated : Option MemoryObj) (hk : K ck) :
    (eng.get ck preallocated).AllCalls (EngineReadCall eng K) :=
  get_calls_of ⟨engineReadCall_single rfl (.read_meta hk), fun n => engineCall_read_segments n hk,
    engineReadCall_single rfl .ref_count_down⟩ preallocated

/-- A planned put writes its segments, and then its meta record. -/
theorem put_records_calls (ck : Text) (mo : MemoryObj) (p : ShardPlan) (pinned : Bool)
    (now : ℕ) (hp : P ck mo)
    (hplan : eng.resolved.shard_plan mo.byte_array.length = .ok p) :
    (eng.put_records ck mo p pinned now).AllCalls (EngineCall eng K P) := by
  have hmeta : (raising (client_put (eng.meta_write ck mo p pinned now))).AllCalls
      (EngineCall eng K P) :=
    allCalls_raising (engineCall_single rfl (.write_meta hp hplan)) fun _ => trivial
  unfold Engine.put_records
  split_ifs with hn
  · exact hmeta
  · refine allCalls_bind _ _
      (allCalls_raising (engineCall_write_segments hp hplan hn) fun _ => trivial) fun recs => ?_
    exact allCalls_bind _ _ (allCalls_ofExcept _) fun _ => hmeta

theorem reraise_calls {α : Type} (G : Op → Prop) (op_name : String)
    (too_big : AxError → String) (e : PyExc) :
    (Engine.reraise op_name too_big e : EngineM α).AllCalls G := by
  unfold Engine.reraise
  split
  · split_ifs <;> trivial
  · trivial

/-- **`put` writes what it has planned**, after reading the clock. -/
theorem put_calls (ck : Text) (mo : MemoryObj) (pinned : Bool) (hp : P ck mo) :
    (eng.put ck mo pinned).AllCalls (EngineCall eng K P) := by
  unfold Engine.put
  cases hplan : eng.resolved.shard_plan mo.byte_array.length with
  | error e => trivial
  | ok p =>
    refine ⟨engineCall_single rfl .clock, fun now => ?_⟩
    exact allCalls_tryCatch _ _ (put_records_calls ck mo p pinned now hp hplan)
      fun e => reraise_calls _ _ _ e

/-- An item of a batch as `plan_items` makes it. -/
def PlannedPut.Planned (eng : Engine) (P : Text → MemoryObj → Prop) (pinned : Bool)
    (item : PlannedPut) : Prop :=
  P item.ck item.memory_obj ∧
    eng.resolved.shard_plan item.memory_obj.byte_array.length = .ok item.p ∧
    ∃ now, item.mwrite = eng.meta_write item.ck item.memory_obj item.p pinned now

/-- Going on from the plans of a batch. -/
theorem plan_items_bind_calls {β : Type} (pinned : Bool)
    (items : List (Text × MemoryObj)) (hp : ∀ item ∈ items, P item.1 item.2)
    (f : List PlannedPut → EngineM β)
    (hf : ∀ plans : List PlannedPut, (∀ item ∈ plans, item.Planned eng P pinned) →
      (f plans).AllCalls (EngineCall eng K P)) :
    ((eng.plan_items pinned items).bind f).AllCalls (EngineCall eng K P) := by
  induction items generalizing f with
  | nil => exact hf [] (by simp)
  | cons item items ih =>
    obtain ⟨ck, mo⟩ := item
    simp only [List.forall_mem_cons] at hp
    unfold Engine.plan_items
    cases hplan : eng.resolved.shard_plan mo.byte_array.length with
    | error e => trivial
    | ok p =>
      refine ⟨engineCall_single rfl .clock, fun now => ?_⟩
      have hrest := ih hp.2 (fun rest => f (⟨ck, mo, p, eng.meta_write ck mo p pinned now⟩ :: rest))
        fun rest hr => hf _ (by
          simp only [List.forall_mem_cons]
          exact ⟨⟨hp.1, hplan, now, rfl⟩, hr⟩)
      simpa only [Prog.bind_eq, Prog.pure_eq, Prog.bind, Prog.bind_assoc] using hrest

/-- The puts of a chunk one by one, which a plan with segments makes necessary. -/
theorem put_items_calls (pinned : Bool) (plans : List PlannedPut)
    (hp : ∀ item ∈ plans, P item.ck item.memory_obj) :
    (eng.put_items pinned plans).AllCalls (EngineCall eng K P) := by
  induction plans with
  | nil => trivial
  | cons item plans ih =>
    simp only [List.forall_mem_cons] at hp
    refine allCalls_bind _ _ ?_ fun ok => ?_
    · refine allCalls_tryCatch _ _
        (allCalls_bind _ _ (put_calls item.ck item.memory_obj pinned hp.1) fun _ => trivial)
        fun e => ?_
      split <;> trivial
    · exact allCalls_bind _ _ (ih hp.2) fun _ => trivial

/-- A chunk of puts: all meta records in one `batch_write`, or one put after the other. -/
theorem batched_put_chunk_calls (pinned : Bool) (items : List (Text × MemoryObj))
    (hp : ∀ item ∈ items, P item.1 item.2) :
    (eng.batched_put_chunk pinned items).AllCalls (EngineCall eng K P) := by
  apply plan_items_bind_calls pinned items hp _
  intro plans hplans
  show Prog.AllCalls _ (if _ then _ else _)
  split_ifs with hany
  · exact put_items_calls pinned plans fun item hi => (hplans item hi).1
  · refine allCalls_bind _ _ (allCalls_raising ?_ fun _ => trivial) fun _ => trivial
    intro i hi
    simp only [Op.items, List.map_map, List.mem_map, Function.comp] at hi
    obtain ⟨item, hitem, rfl⟩ := hi
    obtain ⟨hput, hplan, now, hw⟩ := hplans item hitem
    show EngineRecOp eng K P (.write item.mwrite)
    rw [hw]
    exact .write_meta hput hplan

/-- **`batched_put` writes what it has planned** for its items. -/
theorem batched_put_calls (items : List (Text × MemoryObj)) (pinned : Bool)
    (hp : ∀ item ∈ items, P item.1 item.2) :
    (eng.batched_put items pinned).AllCalls (EngineCall eng K P) := by
  have hchunks : ∀ chunks : List (List (Text × MemoryObj)),
      (∀ chunk ∈ chunks, ∀ item ∈ chunk, P item.1 item.2) →
      (eng.batched_put_chunks pinned chunks).AllCalls (EngineCall eng K P) := by
    intro chunks hc
    induction chunks with
    | nil => trivial
    | cons chunk chunks ih =>
      simp only [List.forall_mem_cons] at hc
      exact allCalls_bind _ _ (batched_put_chunk_calls pinned chunk hc.1) fun _ =>
        allCalls_bind _ _ (ih hc.2) fun _ => trivial
  unfold Engine.batched_put
  split_ifs with hnil
  · trivial
  · refine allCalls_tryCatch _ _ (hchunks _ fun chunk hchunk item hitem => ?_)
      fun e => reraise_calls _ _ _ e
    simp only [Engine.chunked, List.mem_map] at hchunk
    obtain ⟨j, -, rfl⟩ := hchunk
    exact hp item (List.mem_of_mem_drop (List.mem_of_mem_take hitem))

/-- `batched_contains` reads the meta records of its keys. -/
theorem batched_contains_calls (keys : List Text) (hk : ∀ ck ∈ keys, K ck) :
    (eng.batched_contains keys).AllCalls (EngineReadCall eng K) := by
  unfold Engine.batched_contains
  split_ifs with hnil
  · trivial
  · exact ⟨engineCall_read_metas hk, fun x => by cases x <;> trivial⟩

theorem get_multi_seg_calls (results : List (Option MemoryObj))
    (multi_seg : List (ℕ × Text × MemoryObj)) :
    (eng.get_multi_seg results multi_seg).AllCalls (EngineReadCall eng fun _ => True) := by
  induction multi_seg generalizing results with
  | nil => trivial
  | cons x multi_seg ih =>
    obtain ⟨i, ck, mo⟩ := x
    apply allCalls_bind _ _ (allCalls_attempt _ (get_calls ck (some mo) trivial))
    intro r
    cases r with
    | error e => trivial
    | ok hit =>
      cases hit with
      | none => exact ih _
      | some hit => exact ih _

/-- The chunks of a load: a `batch_read` of meta records, and then the items with segments. -/
theorem batched_get_chunks_calls (results : List (Option MemoryObj)) (offset : ℕ)
    (chunks : List (List (Text × MemoryObj))) :
    (eng.batched_get_preallocated_chunks results offset chunks).AllCalls
      (EngineReadCall eng fun _ => True) := by
  induction chunks generalizing results offset with
  | nil => trivial
  | cons chunk chunks ih =>
    refine allCalls_bind _ _ ⟨?_, fun x => ?_⟩ fun r => ?_
    · intro i hi
      simp only [Op.items, List.map_map, List.mem_map, Function.comp] at hi
      obtain ⟨item, -, rfl⟩ := hi
      exact .read_meta trivial
    · cases x with
      | error exc => trivial
      | ok recs =>
        dsimp only [Prog.ret_bind]
        rcases eng.read_meta_records offset ⟨results, []⟩ recs chunk with ⟨st, raised⟩
        cases raised with
        | some e => trivial
        | none => exact get_multi_seg_calls _ _
    · obtain ⟨results', raised⟩ := r
      cases raised with
      | some e => trivial
      | none => exact ih _ _

/-- **`batched_get_preallocated` reads only**. -/
theorem batched_get_preallocated_calls (items : List (Text × MemoryObj)) :
    (eng.batched_get_preallocated items).AllCalls (EngineReadCall eng fun _ => True) := by
  unfold Engine.batched_get_preallocated
  split_ifs with hnil
  · trivial
  · apply allCalls_bind _ _ (batched_get_chunks_calls _ _ _)
    intro r
    obtain ⟨results, raised⟩ := r
    cases raised with
    | none => trivial
    | some e =>
      cases e with
      | aerospike exc =>
        show Prog.AllCalls _ (if _ then _ else _)
        split_ifs <;> trivial
      | connector kind text => trivial
      | builtin err => trivial

theorem pin_keys_calls (keys : List Text) (hk : ∀ ck ∈ keys, K ck) :
    (eng.pin_keys keys).AllCalls (EngineCall eng K P) := by
  unfold Engine.pin_keys
  split_ifs with hnil
  · trivial
  · exact ⟨engineCall_pins hk, fun _ => trivial⟩

theorem batched_async_contains_calls (keys : List Text) (pin : Bool)
    (hk : ∀ ck ∈ keys, K ck) :
    (eng.batched_async_contains keys pin).AllCalls (EngineCall eng K P) := by
  apply allCalls_bind _ _ (allCalls_of_read (batched_contains_calls keys hk))
  intro count
  split_ifs with hpin
  · exact allCalls_bind _ _
      (pin_keys_calls _ fun ck hck => hk ck (List.mem_of_mem_take hck)) fun _ => trivial
  · trivial

theorem unpin_calls (ck : Text) (hk : K ck) :
    (eng.unpin ck).AllCalls (EngineCall eng K P) := by
  refine ⟨engineCall_single rfl (.touch_meta hk), fun x => ?_⟩
  cases x with
  | error exc => trivial
  | ok u =>
    refine ⟨engineCall_single rfl (.write_pin hk), fun y => ?_⟩
    cases y <;> trivial

theorem pin_calls (ck : Text) (hk : K ck) :
    (eng.pin ck).AllCalls (EngineCall eng K P) := by
  apply allCalls_bind _ _ (allCalls_of_read (exists_calls ck hk))
  intro found
  cases found with
  | false => trivial
  | true => exact allCalls_bind _ _ (pin_keys_calls [ck] (by simpa using hk)) fun _ => trivial

theorem remove_records_calls (ck : Text) (nseg : ℤ) (hk : K ck) :
    (eng.remove_records ck nseg).AllCalls (EngineCall eng K P) := by
  refine ⟨engineCall_single rfl (.remove_meta hk), fun x => ?_⟩
  cases x with
  | error exc =>
    show Prog.AllCalls _ (if _ then _ else _)
    split_ifs <;> trivial
  | ok u =>
    show Prog.AllCalls _ (if _ then _ else _)
    split_ifs
    · exact ⟨engineCall_remove_segments _ hk, fun _ => trivial⟩
    · trivial

theorem remove_calls (ck : Text) (hk : K ck) :
    (eng.remove ck).AllCalls (EngineCall eng K P) := by
  refine ⟨engineCall_single rfl (.of_read (.read_meta hk)), fun x => ?_⟩
  cases x with
  | error exc =>
    show Prog.AllCalls _ (if _ then _ else _)
    split_ifs
    · trivial
    · exact remove_records_calls ck 1 hk
  | ok bins =>
    dsimp only [Prog.ret_bind]
    cases bins .nseg with
    | none => exact remove_records_calls ck 1 hk
    | some value =>
      exact allCalls_bind _ _ (allCalls_ofExcept _) fun nseg =>
        remove_records_calls ck nseg hk

end Calls

/-! ## Client operations -/

/-- The engine of an operation. -/
def ClientOp.eng : ClientOp → Engine
  | .get eng _ _ | .put eng _ _ _ | .batched_put eng _ _ | .exists_ eng _
  | .batched_contains eng _ | .batched_async_contains eng _ _ | .pin_keys eng _
  | .unpin eng _ | .pin eng _ | .remove eng _ => eng

/-- The operation works on keys in `K` and puts objects in `P`. -/
def ClientOp.Within (K : Text → Prop) (P : Text → MemoryObj → Prop) : ClientOp → Prop
  | .get _ ck _ | .exists_ _ ck | .unpin _ ck | .pin _ ck | .remove _ ck => K ck
  | .put _ ck mo _ => P ck mo
  | .batched_put _ items _ => ∀ item ∈ items, P item.1 item.2
  | .batched_contains _ keys | .batched_async_contains _ keys _ | .pin_keys _ keys =>
    ∀ ck ∈ keys, K ck

/-- **Every call of every operation** is made of the operations listed. -/
theorem ClientOp.prog_calls {K : Text → Prop} {P : Text → MemoryObj → Prop}
    (op : ClientOp) (h : op.Within K P) : op.prog.AllCalls (EngineCall op.eng K P) := by
  cases op with
  | get eng ck pre =>
    exact Prog.allCalls_bind _ _ (allCalls_of_read (get_calls ck pre h)) fun _ => trivial
  | put eng ck mo pinned =>
    exact Prog.allCalls_bind _ _ (put_calls ck mo pinned h) fun _ => trivial
  | batched_put eng items pinned =>
    exact Prog.allCalls_bind _ _ (batched_put_calls items pinned h) fun _ => trivial
  | exists_ eng ck =>
    exact Prog.allCalls_bind _ _ (allCalls_of_read (exists_calls ck h)) fun _ => trivial
  | batched_contains eng keys =>
    exact Prog.allCalls_bind _ _ (allCalls_of_read (batched_contains_calls keys h))
      fun _ => trivial
  | batched_async_contains eng keys pin =>
    exact Prog.allCalls_bind _ _ (batched_async_contains_calls keys pin h) fun _ => trivial
  | pin_keys eng keys => exact Prog.allCalls_bind _ _ (pin_keys_calls keys h) fun _ => trivial
  | unpin eng ck => exact Prog.allCalls_bind _ _ (unpin_calls ck h) fun _ => trivial
  | pin eng ck => exact Prog.allCalls_bind _ _ (pin_calls ck h) fun _ => trivial
  | remove eng ck => exact Prog.allCalls_bind _ _ (remove_calls ck h) fun _ => trivial
