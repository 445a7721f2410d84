/-
# The fleet refines a cache

Python engines and native connectors of any configurations work on one store, one operation
after the other and without failures.  Every operation then answers what a cache with CRCs and
metadata answers, and changes the store as it changes the cache (`fleet_refines_cache`): the two
planners, the record layout and left-over segments cannot be seen from outside.

What can be seen is in the cache itself.  A writer that records no CRC or no metadata, as native
ones and engines so configured, leaves those of an earlier payload in place: readers that check
CRCs then miss, and readers that allocate by the metadata get their buffer from the old ones.
`pin_keys` on a key that is not there makes it present without a value.  Only where a value is
longer than its receive buffer do the pieces show: in the text of what `get` raises, and in
whether a batched load raises it or leaves the item out.
-/
import LmcacheAerospike.BatchedStore
import LmcacheAerospike.CacheReads
import LmcacheAerospike.Fleet
import LmcacheAerospike.PlannersAgree

/-! ## What the operations answer -/

/-- Every payload has a plan. -/
def Engine.Plans (eng : Engine) (items : List (Text × MemoryObj)) : Prop :=
  ∀ item ∈ items, ∃ pl, eng.resolved.shard_plan item.2.byte_array.length = .ok pl

/-- The position of the first payload without a plan, and what planning it raises. -/
def Engine.unplanned (eng : Engine) : List (Text × MemoryObj) → Option (ℕ × PyExc)
  | [] => none
  | item :: items =>
    match eng.resolved.shard_plan item.2.byte_array.length with
    | .error e => some (0, e)
    | .ok _ => (eng.unplanned items).map fun found => (found.1 + 1, found.2)

/-- The answer of a Python operation to the cache `c`, and what becomes of the cache. -/
def ClientOp.Answers (c c' : PayloadCache) : ClientOp → Except PyExc OpResult → Prop
  | .get eng ck preallocated, r => c' = c ∧
      ∃ text, r = (eng.cachedGet c text ck preallocated).map .got
  | .put eng ck mo _, r =>
      match eng.resolved.shard_plan mo.byte_array.length with
      | .ok _ => r = .ok .done ∧ c' = c.store (eng.metaKey ck) (eng.cacheWrite mo)
      | .error e => r = .error e ∧ c' = c
  | .batched_put eng items _, r =>
      match eng.unplanned items with
      | none => r = .ok (.flags (items.map fun _ => true)) ∧
          c' = c.storeAll (eng.cacheItems items)
      -- the chunks before that of the payload without a plan have been stored
      | some (i, e) => r = .error e ∧ c' = c.storeAll (eng.cacheItems
          (items.take (i / Engine.BATCH_KEYS_CHUNK * Engine.BATCH_KEYS_CHUNK)))
  | .exists_ eng ck, r => r = .ok (.flag (c.present (eng.metaKey ck))) ∧ c' = c
  | .batched_contains eng keys, r =>
      r = .ok (.count (keys.takeWhile fun ck => c.present (eng.metaKey ck)).length) ∧ c' = c
  | .batched_async_contains eng keys _, r =>
      r = .ok (.count (keys.takeWhile fun ck => c.present (eng.metaKey ck)).length) ∧ c' = c
  | .pin_keys eng keys, r => r = .ok .done ∧
      c' = keys.foldl (fun c ck => c.mark (eng.metaKey ck)) c
  | .unpin eng ck, r => r = .ok (.flag (c.present (eng.metaKey ck))) ∧ c' = c
  | .pin eng ck, r => r = .ok (.flag (c.present (eng.metaKey ck))) ∧ c' = c
  | .remove eng ck, r => r = .ok (.flag (c.present (eng.metaKey ck))) ∧
      c' = c.drop (eng.metaKey ck)

/-- What a native operation does on a key that stands for a logical one, given as a meta key; a
malformed key throws. -/
def NativeConnector.OnKey (conn : NativeConnector) (key : Text) (c c' : PayloadCache)
    (r : Except FleetExc FleetResult) (does : Key → Prop) : Prop :=
  match native_key_to_cache_engine_key key conn.dtype with
  | .ok ck => does (meta_key conn.ns conn.set_name ck)
  | .error e => r = .error (.native e) ∧ c' = c

/-- The answer of an operation of the fleet. -/
def FleetOp.Answers (c c' : PayloadCache) : FleetOp → Except FleetExc FleetResult → Prop
  | .python op, r => ∃ r₀, op.Answers c c' r₀ ∧ r = (r₀.map .python).mapError .python
  | .load eng items, r => c' = c ∧
      (r = .ok (.loaded (items.map (eng.cachedLoad c))) ∨
        ∃ text, ∃ item ∈ items, c.Misfits eng item ∧
          r = .error (.python (.connector .internal text)))
  | .native_get conn key buf len, r => conn.OnKey key c c' r fun k => c' = c ∧
      ((∀ p, c.value k = some p → p.length < 2 ^ 32) →
        r = ((c.cachedRead k buf len).map .copied).mapError fun e => .native e.1)
  | .native_set conn key buf, r => conn.OnKey key c c' r fun k =>
      r = .ok .done ∧ c' = c.store k { value := buf }
  | .native_exists conn key, r => conn.OnKey key c c' r fun k =>
      r = .ok (.flag (c.present k)) ∧ c' = c
  | .native_delete conn key, r => conn.OnKey key c c' r fun k =>
      r = .ok (.flag (c.present k)) ∧ c' = c.drop k

/-! ## The two systems -/

/-- The connector does not cut the names short as C strings. -/
def NativeConnector.PlainNames (conn : NativeConnector) (key : Text) : Prop :=
  '\x00' ∉ conn.ns ∧ '\x00' ∉ conn.set_name ∧
    ∀ ck, native_key_to_cache_engine_key key conn.dtype = .ok ck → '\x00' ∉ ck

/-- Torch reads every buffer but the empty one, allocators look at the metadata, native names are
plain, native payloads are shorter than `2^32`, and the buffer of a native read has the length
that it is said to have. -/
def FleetOp.Admissible : FleetOp → Prop
  | .python op => op.eng.TorchReads ∧ op.eng.AllocatesByMetadata
  | .load eng _ => eng.TorchReads ∧ eng.TorchRaises
  | .native_set conn key buf => conn.PlainNames key ∧ buf.length < 2 ^ 32
  | .native_get conn key buf len =>
    conn.PlainNames key ∧ len ≤ buf.length ∧ buf.length < 2 ^ 64
  | .native_exists conn key | .native_delete conn key => conn.PlainNames key

/-- An operation has run and come to `r`, or time has passed. -/
inductive FleetEvent : Type where
  | ran (op : FleetOp) (r : Except FleetExc FleetResult)
  | ticked (t : ℕ)

/-- What happens to the store: operations run one after the other, and nothing expires. -/
def fleetStep (w : World) : FleetEvent → World → Prop
  | .ran op r, w' => op.Admissible ∧ op.prog.run Op.perform w = (r, w')
  | .ticked t, w' => w' = { w with now := t }

/-- What happens to the cache. -/
def cacheStep (c : PayloadCache) : FleetEvent → PayloadCache → Prop
  | .ran op r, c' => op.Answers c c' r
  | .ticked _, c' => c' = c

section Runs

variable {w : World} {c : PayloadCache}

/-- The run of an operation whose result and exceptions are wrapped. -/
theorem run_wrapped {E E' α β : Type} (f : E → E') (g : α → β) (p : Prog Op Op.Res E α)
    (w : World) :
    ((p.mapError f).bind fun a => .ret (g a)).run Op.perform w
      = (((p.run Op.perform w).1.map g).mapError f, (p.run Op.perform w).2) := by
  rw [Prog.run_bind, Prog.run_mapError]
  rcases p.run Op.perform w with ⟨r, w'⟩
  cases r <;> rfl

/-- The run of an operation whose result is wrapped. -/
theorem run_wrapped_result {α β : Type} (g : α → β) (p : EngineM α) (w : World) :
    (p.bind fun a => .ret (g a)).run Op.perform w
      = ((p.run Op.perform w).1.map g, (p.run Op.perform w).2) := by
  rw [Prog.run_bind]
  rcases p.run Op.perform w with ⟨r, w'⟩
  cases r <;> rfl

/-! ## Batched puts -/

section BatchedPuts

variable {eng : Engine} {pinned : Bool} {items : List (Text × MemoryObj)}

/-- Without refusals the put of an item succeeds exactly when its payload has a plan. -/
theorem puts_nothing_iff (now : ℕ) (item : Text × MemoryObj) :
    Refusals.nothing.puts eng pinned now item = true ↔
      ∃ pl, eng.resolved.shard_plan item.2.byte_array.length = .ok pl := by
  unfold Refusals.puts
  cases eng.resolved.shard_plan item.2.byte_array.length with
  | ok pl => simp [Refusals.accepts, Refusals.nothing]
  | error e => simp

/-- A batch of planned payloads is stored. -/
theorem run_batched_put_plans (hplans : eng.Plans items) (w : World) :
    (eng.batched_put items pinned).run Op.perform w
      = (.ok (items.map fun _ => true), items.foldl (eng.afterPut pinned) w) := by
  have hends : BatchEnds Refusals.nothing eng pinned items w _ := run_batched_put items w
  rw [call_nothing] at hends
  obtain ⟨stored, -, -, hflags, herror⟩ := hends
  rcases hrun : (eng.batched_put items pinned).run Op.perform w with ⟨r, w'⟩
  rw [hrun] at hflags herror
  cases r with
  | error e =>
    obtain ⟨item, hitem, hputs⟩ := herror e rfl
    rw [(puts_nothing_iff w.now item).mpr (hplans item hitem)] at hputs
    cases hputs
  | ok flags =>
    obtain ⟨-, hworld⟩ := run_batched_put_world hrun
    have hall : items.map (Refusals.nothing.puts eng pinned w.now) = items.map fun _ => true :=
      List.map_congr_left fun item hitem => (puts_nothing_iff w.now item).mpr (hplans item hitem)
    rw [hworld, (hflags flags rfl).1, hall]

/-! ### A payload without a plan -/

/-- Planning raises no exception of the client. -/
theorem shard_plan_error_ne {r : ResolvedLimits} {P : ℕ} {e : PyExc}
    (h : r.shard_plan P = .error e) (exc : AxError) : e ≠ .aerospike exc := by
  unfold ResolvedLimits.shard_plan plan at h
  dsimp only at h
  split_ifs at h
  all_goals
    cases h
    exact nofun

theorem unplanned_eq_none_iff : eng.unplanned items = none ↔ eng.Plans items := by
  unfold Engine.Plans
  induction items with
  | nil => exact iff_of_true rfl fun item hitem => by cases hitem
  | cons item items ih =>
    rw [Engine.unplanned, List.forall_mem_cons, ← ih]
    cases eng.resolved.shard_plan item.2.byte_array.length <;> simp

theorem unplanned_append (items items' : List (Text × MemoryObj)) :
    eng.unplanned (items ++ items') = (eng.unplanned items).or
      ((eng.unplanned items').map fun found => (items.length + found.1, found.2)) := by
  induction items with
  | nil => simp [Engine.unplanned]
  | cons item items ih =>
    rw [List.cons_append, Engine.unplanned, Engine.unplanned, ih]
    cases eng.resolved.shard_plan item.2.byte_array.length with
    | error e => rfl
    | ok pl =>
      cases eng.unplanned items with
      | some found => rfl
      | none =>
        cases eng.unplanned items' with
        | none => rfl
        | some found =>
          simp only [Option.none_or, Option.map_some, Option.map_none, List.length_cons]
          congr 2
          omega

/-- Planning the items raises there, and the payload is one of theirs. -/
theorem run_plan_items_unplanned {i : ℕ} {e : PyExc} (h : eng.unplanned items = some (i, e))
    (pinned : Bool) (w : World) : i < items.length ∧ (∀ exc, e ≠ .aerospike exc) ∧
      (eng.plan_items pinned items).run Op.perform w = (.error e, w) := by
  induction items generalizing i with
  | nil => cases h
  | cons item items ih =>
    obtain ⟨ck, mo⟩ := item
    rw [Engine.unplanned] at h
    unfold Engine.plan_items
    cases hplan : eng.resolved.shard_plan mo.byte_array.length with
    | error e' =>
      rw [hplan] at h
      cases h
      exact ⟨Nat.succ_pos _, shard_plan_error_ne hplan, rfl⟩
    | ok pl =>
      rw [hplan] at h
      obtain ⟨⟨j, e'⟩, hfound, heq⟩ := Option.map_eq_some_iff.mp h
      cases heq
      obtain ⟨hlt, hne, hrun⟩ := ih hfound
      refine ⟨Nat.succ_lt_succ hlt, hne, ?_⟩
      show Prog.run _ (Prog.bind (eng.plan_items pinned items) _) w = _
      rw [Prog.run_bind, hrun]
      rfl

/-- A chunk with such a payload raises before it stores anything. -/
theorem run_batched_put_chunk_unplanned {i : ℕ} {e : PyExc}
    (h : eng.unplanned items = some (i, e)) (w : World) :
    (eng.batched_put_chunk pinned items).run Op.perform w = (.error e, w) := by
  unfold Engine.batched_put_chunk
  rw [Prog.bind_eq, Prog.run_bind, (run_plan_items_unplanned h pinned w).2.2]
  rfl

/-- A chunk whose payloads have plans is stored. -/
theorem run_batched_put_chunk_plans (hplans : eng.Plans items) (pinned : Bool) (w : World) :
    ∃ flags, (eng.batched_put_chunk pinned items).run Op.perform w
      = (.ok flags, items.foldl (eng.afterPut pinned) w) := by
  have hends : BatchEnds Refusals.nothing eng pinned items w _ := run_batched_put_chunk items w
  rw [call_nothing] at hends
  obtain ⟨-, -, -, -, herror⟩ := hends
  rcases hrun : (eng.batched_put_chunk pinned items).run Op.perform w with ⟨r, w'⟩
  rw [hrun] at herror
  cases r with
  | error e =>
    obtain ⟨item, hitem, hputs⟩ := herror e rfl
    rw [(puts_nothing_iff w.now item).mpr (hplans item hitem)] at hputs
    cases hputs
  | ok flags =>
    rw [(run_batched_put_chunk_world hrun).2]
    exact ⟨flags, rfl⟩

/-- The chunks before that of the payload are stored. -/
theorem run_batched_put_chunks_unplanned {chunks : List (List (Text × MemoryObj))} {i : ℕ}
    {e : PyExc} (h : eng.unplanned chunks.flatten = some (i, e)) (w : World) :
    ∃ k, k ≤ chunks.length ∧ (chunks.take k).flatten.length ≤ i ∧
      i < (chunks.take (k + 1)).flatten.length ∧ eng.Plans (chunks.take k).flatten ∧
      (eng.batched_put_chunks pinned chunks).run Op.perform w
        = (.error e, (chunks.take k).flatten.foldl (eng.afterPut pinned) w) := by
  induction chunks generalizing i w with
  | nil => cases h
  | cons chunk chunks ih =>
    rw [List.flatten_cons, unplanned_append] at h
    unfold Engine.batched_put_chunks
    rw [Prog.bind_eq, Prog.run_bind]
    cases hchunk : eng.unplanned chunk with
    | some found =>
      rw [hchunk] at h
      cases h
      rw [run_batched_put_chunk_unplanned hchunk]
      refine ⟨0, Nat.zero_le _, Nat.zero_le _, ?_, fun item hitem => (by cases hitem), rfl⟩
      rw [List.take_succ_cons, List.flatten_cons, List.length_append]
      exact Nat.lt_add_right _ (run_plan_items_unplanned hchunk pinned w).1
    | none =>
      rw [hchunk, Option.none_or] at h
      obtain ⟨⟨j, e'⟩, hfound, heq⟩ := Option.map_eq_some_iff.mp h
      cases heq
      have hplans := unplanned_eq_none_iff.mp hchunk
      obtain ⟨flags, hrun⟩ := run_batched_put_chunk_plans hplans pinned w
      obtain ⟨k, hk, hle, hlt, hrest, hruns⟩ :=
        ih hfound (chunk.foldl (eng.afterPut pinned) w)
      rw [hrun, Prog.andThen_ok, Prog.bind_eq, Prog.run_bind, hruns]
      refine ⟨k + 1, Nat.succ_le_succ hk, ?_, ?_, ?_, ?_⟩
      · rw [List.take_succ_cons, List.flatten_cons, List.length_append]
        omega
      · rw [List.take_succ_cons, List.flatten_cons, List.length_append]
        omega
      · rw [List.take_succ_cons, List.flatten_cons]
        exact List.forall_mem_append.mpr ⟨hplans, hrest⟩
      · rw [List.take_succ_cons, List.flatten_cons, List.foldl_append]
        rfl

/-- **A batch with a payload without a plan** raises what planning it raises, with the chunks
before it stored. -/
theorem run_batched_put_unplanned {i : ℕ} {e : PyExc} (h : eng.unplanned items = some (i, e))
    (pinned : Bool) (w : World) :
    eng.Plans (items.take (i / Engine.BATCH_KEYS_CHUNK * Engine.BATCH_KEYS_CHUNK)) ∧
      (eng.batched_put items pinned).run Op.perform w = (.error e,
        (items.take (i / Engine.BATCH_KEYS_CHUNK * Engine.BATCH_KEYS_CHUNK)).foldl
          (eng.afterPut pinned) w) := by
  have hne : items ≠ [] := by
    rintro rfl
    cases h
  obtain ⟨hlt, hclient, -⟩ := run_plan_items_unplanned h pinned w
  obtain ⟨k, hk, hfirst, hlast, hplans, hrun⟩ := @run_batched_put_chunks_unplanned eng pinned
    (Engine.chunked items Engine.BATCH_KEYS_CHUNK) i e
    (by rwa [flatten_chunked items (by decide)]) w
  have hchunk : i / Engine.BATCH_KEYS_CHUNK = k := by
    have hnext : k + 1 ≤ (Engine.chunked items Engine.BATCH_KEYS_CHUNK).length := by
      by_contra hlong
      rw [List.take_of_length_le (by omega), flatten_chunked items (by decide)] at hfirst
      omega
    rw [take_chunked items k hk, List.length_take] at hfirst
    rw [take_chunked items (k + 1) hnext, List.length_take] at hlast
    refine Nat.div_eq_of_lt_le ?_ ?_ <;> omega
  rw [take_chunked items k hk] at hplans hrun
  rw [hchunk]
  refine ⟨hplans, ?_⟩
  unfold Engine.batched_put
  rw [if_neg hne, Prog.run_tryCatch, hrun]
  cases e with
  | aerospike exc => exact absurd rfl (hclient exc)
  | connector kind text => rfl
  | builtin err => rfl

end BatchedPuts

/-! ## Removals -/

/-- A removal of a meta record that is there: the number of segments is known, unless the record
is only a mark. -/
theorem run_remove_found (h : w.Caches c) (eng : Engine) {ck : Text} {r : Record}
    (hr : w.records (eng.metaKey ck) = some r) :
    ∃ n : ℤ, (eng.remove ck).run Op.perform w = (eng.remove_records ck n).run Op.perform w := by
  cases hvalue : c.value (eng.metaKey ck) with
  | some p =>
    obtain ⟨pl, bins, hstored, -⟩ := h.stored hvalue
    obtain ⟨r', hr', rfl⟩ := hstored.holds.found
    obtain rfl : r = r' := Option.some.inj (hr.symm.trans hr')
    refine ⟨(pl.pieces p).length, ?_⟩
    show Prog.run _ (.call (Op.select _ _) _) w = _
    rw [Prog.run_call, perform_select_found hr]
    have hselect : selectBins (some [.nseg]) r.bins .nseg
        = some (.int (pl.pieces p).length) := hstored.holds.nseg
    dsimp only [Prog.ret_bind]
    rw [hselect]
    rfl
  | none =>
    obtain ⟨-, habsent⟩ | ⟨_, r', -, -, hr', -, hnseg⟩ := h.unready hvalue
    · cases hr.symm.trans habsent
    · obtain rfl : r = r' := Option.some.inj (hr.symm.trans hr')
      refine ⟨1, ?_⟩
      show Prog.run _ (.call (Op.select _ _) _) w = _
      rw [Prog.run_call, perform_select_found hr]
      have hselect : selectBins (some [.nseg]) r.bins .nseg = none := hnseg
      dsimp only [Prog.ret_bind]
      rw [hselect]

/-- **A removal** takes the entry away, and says whether there was one. -/
theorem remove_answers (h : w.Caches c) (eng : Engine) (ck : Text) :
    ∃ w', (eng.remove ck).run Op.perform w = (.ok (c.present (eng.metaKey ck)), w') ∧
      w'.Caches (c.drop (eng.metaKey ck)) := by
  have hpresent : c.present (eng.metaKey ck) = w.hasMeta eng.cfg.ns eng.cfg.set_name ck :=
    h.present_eq ..
  rw [hpresent, World.hasMeta]
  cases hr : w.records (meta_key eng.cfg.ns eng.cfg.set_name ck) with
  | none => exact ⟨w, run_remove_absent hr, caches_drop_absent h hr⟩
  | some r =>
    obtain ⟨n, hn⟩ := run_remove_found h eng hr
    rw [hn, run_remove_records hr]
    refine ⟨_, rfl, ?_⟩
    split_ifs
    · refine caches_removed h _ _ _ fun key hkey => ?_
      obtain ⟨i, -, rfl⟩ := List.mem_map.mp hkey
      exact ⟨i, rfl⟩
    · have hnone : ∀ key ∈ ([] : List Key),
          ∃ i, key = segment_key eng.cfg.ns eng.cfg.set_name ck i := by simp
      exact caches_removed h _ _ _ hnone

/-! ## Unpins -/

/-- **An unpin** says whether there is an entry, and leaves it. -/
theorem unpin_answers (h : w.Caches c) (eng : Engine) (ck : Text) :
    ∃ w', (eng.unpin ck).run Op.perform w = (.ok (c.present (eng.metaKey ck)), w') ∧
      w'.Caches c := by
  have hpresent : c.present (eng.metaKey ck) = w.hasMeta eng.cfg.ns eng.cfg.set_name ck :=
    h.present_eq ..
  rw [hpresent, World.hasMeta]
  cases hr : w.records (meta_key eng.cfg.ns eng.cfg.set_name ck) with
  | none => exact ⟨w, run_unpin_absent eng w hr, h⟩
  | some r =>
    exact ⟨_, run_unpin_found eng w hr, h.of_data
      ((data_pin_write (World.setRecord_self ..) false _).trans (data_setRecord hr rfl))⟩

/-! ## Python operations -/

/-- Presence is presence in the cache, for a list of keys. -/
theorem hasMeta_eq_present (h : w.Caches c) (eng : Engine) :
    w.hasMeta eng.cfg.ns eng.cfg.set_name = fun ck => c.present (eng.metaKey ck) := by
  funext ck
  exact (h.present_eq ..).symm

/-- **The step lemma for Python operations.** -/
theorem python_answers (h : w.Caches c) {op : ClientOp} (htorch : op.eng.TorchReads)
    (halloc : op.eng.AllocatesByMetadata) :
    ∃ c', op.Answers c c' (op.prog.run Op.perform w).1 ∧
      (op.prog.run Op.perform w).2.Caches c' := by
  cases op with
  | get eng ck preallocated =>
    rw [ClientOp.prog, run_wrapped_result]
    obtain ⟨text, hget⟩ : ∃ text, ((eng.get ck preallocated).run Op.perform w).1
        = eng.cachedGet c text ck preallocated := get_answers h htorch fun _ => halloc
    rw [hget]
    exact ⟨c, ⟨rfl, text, rfl⟩, h.of_records (run_get_records eng ck preallocated w)⟩
  | put eng ck mo pinned =>
    rw [ClientOp.prog, run_wrapped_result]
    cases hplan : eng.resolved.shard_plan mo.byte_array.length with
    | ok pl =>
      rw [run_put_world hplan]
      refine ⟨_, ?_, caches_put h hplan⟩
      simp only [ClientOp.Answers, hplan]
      exact ⟨rfl, trivial⟩
    | error e =>
      have hrun : (eng.put ck mo pinned).run Op.perform w = (.error e, w) := by
        unfold Engine.put
        rw [hplan]
        rfl
      rw [hrun]
      refine ⟨c, ?_, h⟩
      simp only [ClientOp.Answers, hplan]
      exact ⟨rfl, trivial⟩
  | batched_put eng items pinned =>
    rw [ClientOp.prog, run_wrapped_result]
    cases hunplanned : eng.unplanned items with
    | none =>
      have hplans := unplanned_eq_none_iff.mp hunplanned
      rw [run_batched_put_plans hplans]
      refine ⟨_, ?_, caches_puts hplans h⟩
      simp only [ClientOp.Answers, hunplanned]
      exact ⟨rfl, trivial⟩
    | some found =>
      obtain ⟨i, e⟩ := found
      obtain ⟨hplanned, hrun⟩ := run_batched_put_unplanned hunplanned pinned w
      rw [hrun]
      refine ⟨_, ?_, caches_puts hplanned h⟩
      simp only [ClientOp.Answers, hunplanned]
      exact ⟨rfl, trivial⟩
  | exists_ eng ck =>
    rw [ClientOp.prog, run_wrapped_result, run_exists, hasMeta_eq_present h]
    exact ⟨c, ⟨rfl, rfl⟩, h⟩
  | batched_contains eng keys =>
    rw [ClientOp.prog, run_wrapped_result, run_batched_contains, hasMeta_eq_present h]
    exact ⟨c, ⟨rfl, rfl⟩, h⟩
  | batched_async_contains eng keys pin =>
    rw [ClientOp.prog, run_wrapped_result, run_batched_async_contains eng w keys pin rfl]
    refine ⟨c, ⟨by rw [hasMeta_eq_present h]; rfl, rfl⟩, ?_⟩
    -- only keys that were counted are pinned
    dsimp only
    split_ifs
    · exact h.of_data (data_afterPins eng fun ck hck => hasMeta_of_counted w hck)
    · exact h
  | pin_keys eng keys =>
    rw [ClientOp.prog, run_wrapped_result, run_pin_keys]
    exact ⟨_, ⟨rfl, rfl⟩, caches_pins eng h⟩
  | unpin eng ck =>
    rw [ClientOp.prog, run_wrapped_result]
    obtain ⟨w', hrun, hcaches⟩ := unpin_answers h eng ck
    rw [hrun]
    exact ⟨_, ⟨rfl, rfl⟩, hcaches⟩
  | pin eng ck =>
    rw [ClientOp.prog, run_wrapped_result, run_pin, hasMeta_eq_present h]
    refine ⟨c, ?_⟩
    by_cases hpresent : c.present (eng.metaKey ck) = true
    · rw [if_pos hpresent]
      refine ⟨⟨by rw [hpresent]; rfl, rfl⟩, h.of_data (data_afterPins eng fun ck' hck' => ?_)⟩
      rw [List.mem_singleton.mp hck', hasMeta_eq_present h]
      exact hpresent
    · rw [if_neg hpresent]
      exact ⟨⟨by rw [Bool.not_eq_true _ |>.mp hpresent]; rfl, rfl⟩, h⟩
  | remove eng ck =>
    rw [ClientOp.prog, run_wrapped_result]
    obtain ⟨w', hrun, hcaches⟩ := remove_answers h eng ck
    rw [hrun]
    exact ⟨_, ⟨rfl, rfl⟩, hcaches⟩

/-! ## Batched loads -/

/-- **The step lemma for batched loads.** -/
theorem load_step (h : w.Caches c) {eng : Engine} (htorch : eng.TorchReads)
    (hraises : eng.TorchRaises) (items : List (Text × MemoryObj)) :
    (FleetOp.load eng items).Answers c c
        ((FleetOp.load eng items).prog.run Op.perform w).1 ∧
      ((FleetOp.load eng items).prog.run Op.perform w).2.Caches c := by
  rw [FleetOp.prog, run_wrapped]
  constructor
  · obtain hrun | ⟨text, item, hitem, hmisfit, hrun⟩ := load_answers h htorch hraises items
    · rw [hrun]
      exact ⟨rfl, .inl rfl⟩
    · rw [hrun]
      exact ⟨rfl, .inr ⟨text, item, hitem, hmisfit, rfl⟩⟩
  · have hcalls : (eng.batched_get_preallocated items).AllCalls
        (EngineReadCall eng fun _ => True) := batched_get_preallocated_calls items
    exact h.of_records (records_of_reads _
      (Prog.allCalls_mono (fun _ ho i hi => isRead_of_read (ho i hi)) _ hcalls) w)

/-! ## Native operations -/

section Native

variable {conn : NativeConnector} {ck key : Text}

theorem NativeConnector.PlainNames.addresses (h : conn.PlainNames key)
    (hkey : native_key_to_cache_engine_key key conn.dtype = .ok ck) :
    conn.Addresses conn.ns conn.set_name ck :=
  addresses_of_notMem h.1 h.2.1 (h.2.2 ck hkey)

/-- A native write of fewer than `2^32` bytes has a plan. -/
theorem exists_native_plan (l : NativeLimits) {P : ℕ} (hP : P < 2 ^ 32) :
    ∃ pl, l.plan P = .ok pl := by
  rcases Nat.lt_or_ge l.target_segment_bytes P with hlong | hshort
  · exact ⟨_, native_plan_of_long hlong hP⟩
  · exact ⟨_, plan_of_short hshort⟩

/-- **A native removal** takes the entry away, and says whether there was one. -/
theorem delete_answers (h : w.Caches c)
    (hkey : native_key_to_cache_engine_key key conn.dtype = .ok ck)
    (haddr : conn.Addresses conn.ns conn.set_name ck) :
    ∃ w', (conn.do_single_delete key).run Op.perform w
        = (.ok (c.present (meta_key conn.ns conn.set_name ck)), w') ∧
      w'.Caches (c.drop (meta_key conn.ns conn.set_name ck)) := by
  rw [run_do_single_delete hkey, h.present_eq, World.hasMeta, haddr.meta_eq]
  cases hr : w.records (meta_key conn.ns conn.set_name ck) with
  | none => exact ⟨w, rfl, caches_drop_absent h hr⟩
  | some r =>
    refine ⟨_, rfl, caches_removed h _ _ _ fun k hk => ?_⟩
    obtain ⟨i, -, rfl⟩ := List.mem_map.mp hk
    exact ⟨i, haddr.segment_eq i⟩

/-- The program of a malformed native key throws at once. -/
theorem onKey_of_malformed {does : Key → Prop} {e : RuntimeError}
    (hkey : native_key_to_cache_engine_key key conn.dtype = .error e) :
    conn.OnKey key c c (.error (.native e)) does := by
  unfold NativeConnector.OnKey
  rw [hkey]
  exact ⟨rfl, rfl⟩

theorem onKey_of_key {does : Key → Prop} {c' : PayloadCache} {r : Except FleetExc FleetResult}
    (hkey : native_key_to_cache_engine_key key conn.dtype = .ok ck)
    (h : does (meta_key conn.ns conn.set_name ck)) : conn.OnKey key c c' r does := by
  unfold NativeConnector.OnKey
  rw [hkey]
  exact h

/-- **The step lemma for native reads.** -/
theorem native_get_step (h : w.Caches c) (hnames : conn.PlainNames key) {buf : Bytes} {len : ℕ}
    (hlen : len ≤ buf.length) (hbuf : buf.length < 2 ^ 64) :
    (FleetOp.native_get conn key buf len).Answers c c
        ((FleetOp.native_get conn key buf len).prog.run Op.perform w).1 ∧
      ((FleetOp.native_get conn key buf len).prog.run Op.perform w).2.Caches c := by
  simp only [FleetOp.prog, run_wrapped, FleetOp.Answers]
  cases hkey : native_key_to_cache_engine_key key conn.dtype with
  | error e =>
    have hrun : (conn.do_single_get key buf len).run Op.perform w = (.error (e, buf), w) := by
      unfold NativeConnector.do_single_get
      rw [hkey]
      rfl
    rw [hrun]
    exact ⟨onKey_of_malformed hkey, h⟩
  | ok ck =>
    have haddr := hnames.addresses hkey
    refine ⟨onKey_of_key hkey ⟨trivial, fun hshort => ?_⟩, ?_⟩
    · rw [native_get_answers h hkey haddr hshort hlen (by omega)]
    · exact h.of_records (run_do_single_get_records hkey buf len w)

/-- **The step lemma for native writes.** -/
theorem native_set_step (h : w.Caches c) (hnames : conn.PlainNames key) {buf : Bytes}
    (hbuf : buf.length < 2 ^ 32) :
    ∃ c', (FleetOp.native_set conn key buf).Answers c c'
        ((FleetOp.native_set conn key buf).prog.run Op.perform w).1 ∧
      ((FleetOp.native_set conn key buf).prog.run Op.perform w).2.Caches c' := by
  simp only [FleetOp.prog, run_wrapped, FleetOp.Answers]
  cases hkey : native_key_to_cache_engine_key key conn.dtype with
  | error e =>
    have hrun : (conn.do_single_set key buf).run Op.perform w = (.error e, w) := by
      unfold NativeConnector.do_single_set
      rw [hkey]
      rfl
    rw [hrun]
    exact ⟨c, onKey_of_malformed hkey, h⟩
  | ok ck =>
    obtain ⟨pl, hplan⟩ := exists_native_plan conn.limits hbuf
    rw [run_do_single_set hkey hplan]
    exact ⟨_, onKey_of_key hkey ⟨rfl, rfl⟩, caches_set h (hnames.addresses hkey) hbuf hplan⟩

/-- **The step lemma for native presence checks.** -/
theorem native_exists_step (h : w.Caches c) (hnames : conn.PlainNames key) :
    (FleetOp.native_exists conn key).Answers c c
        ((FleetOp.native_exists conn key).prog.run Op.perform w).1 ∧
      ((FleetOp.native_exists conn key).prog.run Op.perform w).2.Caches c := by
  simp only [FleetOp.prog, run_wrapped, FleetOp.Answers]
  cases hkey : native_key_to_cache_engine_key key conn.dtype with
  | error e =>
    have hrun : (conn.do_single_exists key).run Op.perform w = (.error e, w) := by
      unfold NativeConnector.do_single_exists
      rw [hkey]
      rfl
    rw [hrun]
    exact ⟨onKey_of_malformed hkey, h⟩
  | ok ck =>
    rw [run_do_single_exists hkey, (hnames.addresses hkey).meta_eq]
    refine ⟨onKey_of_key hkey ⟨?_, trivial⟩, h⟩
    rw [h.present_eq]
    rfl

/-- **The step lemma for native removals.** -/
theorem native_delete_step (h : w.Caches c) (hnames : conn.PlainNames key) :
    ∃ c', (FleetOp.native_delete conn key).Answers c c'
        ((FleetOp.native_delete conn key).prog.run Op.perform w).1 ∧
      ((FleetOp.native_delete conn key).prog.run Op.perform w).2.Caches c' := by
  simp only [FleetOp.prog, run_wrapped, FleetOp.Answers]
  cases hkey : native_key_to_cache_engine_key key conn.dtype with
  | error e =>
    have hrun : (conn.do_single_delete key).run Op.perform w = (.error e, w) := by
      unfold NativeConnector.do_single_delete
      rw [hkey]
      rfl
    rw [hrun]
    exact ⟨c, onKey_of_malformed hkey, h⟩
  | ok ck =>
    obtain ⟨w', hrun, hcaches⟩ := delete_answers h hkey (hnames.addresses hkey)
    rw [hrun]
    exact ⟨_, onKey_of_key hkey ⟨rfl, rfl⟩, hcaches⟩

end Native

end Runs

/-! ## The refinement -/

/-- **The step lemma**: every operation answers what the cache answers, and changes the store as
it changes the cache. -/
theorem fleet_answers {w : World} {c : PayloadCache} (h : w.Caches c) {op : FleetOp}
    (hop : op.Admissible) :
    ∃ c', op.Answers c c' (op.prog.run Op.perform w).1 ∧
      (op.prog.run Op.perform w).2.Caches c' := by
  cases op with
  | python op =>
    obtain ⟨c', hanswers, hcaches⟩ := python_answers h hop.1 hop.2
    rw [FleetOp.prog, run_wrapped]
    exact ⟨c', ⟨_, hanswers, rfl⟩, hcaches⟩
  | load eng items => exact ⟨c, load_step h hop.1 hop.2 items⟩
  | native_get conn key buf len => exact ⟨c, native_get_step h hop.1 hop.2.1 hop.2.2⟩
  | native_set conn key buf => exact native_set_step h hop.1 hop.2
  | native_exists conn key => exact ⟨c, native_exists_step h hop⟩
  | native_delete conn key => exact native_delete_step h hop

/-- Every step of the store is a step of the cache. -/
theorem fleet_simulates : Simulates fleetStep cacheStep World.Caches := by
  intro w event w' c hcaches hstep
  cases event with
  | ticked t =>
    subst hstep
    exact ⟨c, rfl, hcaches.of_records rfl⟩
  | ran op r =>
    obtain ⟨hop, hrun⟩ := hstep
    have hanswers := fleet_answers hcaches hop
    rwa [hrun] at hanswers

/-- **The fleet refines a cache.**  Whatever operations Python engines and native connectors of
any configurations perform one after the other on an empty store, without failures and expiry,
each returns or raises what the cache does, and the store goes on to stand for the cache. -/
theorem fleet_refines_cache (events : List FleetEvent) (w : World)
    (h : Run fleetStep World.empty events w) :
    ∃ c, Run cacheStep CheckedCache.empty events c ∧ w.Caches c :=
  h.simulated fleet_simulates caches_empty

theorem nativeExample_plainNames : nativeExample.PlainNames "m@01000000@0a".toList := by
  refine ⟨by decide, by decide, fun ck hkey => ?_⟩
  have hck : native_key_to_cache_engine_key "m@01000000@0a".toList nativeExample.dtype
      = .ok "m@1@0@a@bfloat16".toList := by decide
  rw [hck] at hkey
  cases hkey
  decide

/-- An operation that has come to `r`. -/
theorem fleetStep_ran {w : World} {op : FleetOp} {r : Except FleetExc FleetResult}
    (hop : op.Admissible) (hr : (op.prog.run Op.perform w).1 = r) :
    fleetStep w (.ran op r) (op.prog.run Op.perform w).2 := ⟨hop, Prod.ext hr rfl⟩

theorem fakeEngine_allocates (limits : ResolvedLimits) (crc save : Bool) (n : ℕ) :
    (fakeEngine limits crc save n).AllocatesByMetadata := by
  intro bins bins' h
  unfold fakeEngine
  dsimp only
  exact allocate_for_read_congr h

/-- A Python engine that checks CRCs, on the namespace and set of `nativeExample`. -/
abbrev cacheReader : Engine := fakeEngine (.ofTarget 2) true true 8

/-- One such run: what a native connector has written in two segments, the Python engine gets,
loads, and the native connector reads. -/
theorem fleet_refines_cache_run :
    ∃ (w : World) (c : PayloadCache),
      Run cacheStep CheckedCache.empty
        [.ran (.native_set nativeExample "m@01000000@0a".toList [1, 2, 3]) (.ok .done),
         .ran (.python (.get cacheReader "m@1@0@a@bfloat16".toList none))
          (.ok (.python (.got (some ⟨{ byte_array := [1, 2, 3, 0, 0, 0, 0, 0] },
            { byte_array := [1, 2, 3, 0, 0, 0, 0, 0] }, 3⟩)))),
         .ran (.load cacheReader [("m@1@0@a@bfloat16".toList, { byte_array := [9, 9, 9, 9] })])
          (.ok (.loaded [some { byte_array := [1, 2, 3, 9] }])),
         .ran (.native_get nativeExample "m@01000000@0a".toList [9, 9, 9, 9] 3)
          (.ok (.copied [1, 2, 3, 9]))] c ∧
      w.Caches c := by
  have hkey : native_key_to_cache_engine_key "m@01000000@0a".toList nativeExample.dtype
      = .ok "m@1@0@a@bfloat16".toList := by decide
  have hplan : nativeExample.limits.plan ([1, 2, 3] : Bytes).length = .ok ⟨2, 2⟩ := by decide
  have haddr := nativeExample_plainNames.addresses hkey
  have htorch : cacheReader.TorchReads := fakeEngine_torchReads _ _ _ _
  have hraises : cacheReader.TorchRaises := (fakeEngine_raisesLocally _ _ _ _).torch
  have hgets : (FleetOp.python (.get cacheReader "m@1@0@a@bfloat16".toList none)).Admissible :=
    ⟨htorch, fakeEngine_allocates _ _ _ _⟩
  have hloads : (FleetOp.load cacheReader [("m@1@0@a@bfloat16".toList,
      { byte_array := [9, 9, 9, 9] })]).Admissible := ⟨htorch, hraises⟩
  have hreads : (FleetOp.native_get nativeExample "m@01000000@0a".toList
      [9, 9, 9, 9] 3).Admissible := ⟨nativeExample_plainNames, by decide, by decide⟩
  -- the write
  have hset : fleetStep World.empty
      (.ran (.native_set nativeExample "m@01000000@0a".toList [1, 2, 3]) (.ok .done))
      (nativeExample.afterSet "m@1@0@a@bfloat16".toList ⟨2, 2⟩ [1, 2, 3] World.empty) := by
    refine ⟨⟨nativeExample_plainNames, by decide⟩, ?_⟩
    rw [FleetOp.prog, run_wrapped, run_do_single_set hkey hplan]
    rfl
  -- the cache after it, which the reads leave as it is
  let c₁ : PayloadCache :=
    CheckedCache.empty.store (meta_key nativeExample.ns nativeExample.set_name
      "m@1@0@a@bfloat16".toList) { value := [1, 2, 3] }
  have hcaches : World.Caches _ c₁ := caches_set caches_empty haddr (by decide) hplan
  have hvalue : c₁.value (meta_key nativeExample.ns nativeExample.set_name
      "m@1@0@a@bfloat16".toList) = some [1, 2, 3] := rfl
  -- `get`, into a buffer of its own
  have hgot : ∀ text, cacheReader.cachedGet c₁ text "m@1@0@a@bfloat16".toList none
      = .ok (some ⟨{ byte_array := [1, 2, 3, 0, 0, 0, 0, 0] },
          { byte_array := [1, 2, 3, 0, 0, 0, 0, 0] }, 3⟩) := fun text => rfl
  obtain ⟨_, ⟨_, ⟨rfl, text, rfl⟩, hget⟩, hcaches⟩ := fleet_answers hcaches hgets
  rw [hgot] at hget
  -- the load
  have hloaded : cacheReader.cachedLoad c₁ ("m@1@0@a@bfloat16".toList,
      { byte_array := [9, 9, 9, 9] }) = some { byte_array := [1, 2, 3, 9] } := rfl
  obtain ⟨_, ⟨rfl, hload⟩, hcaches⟩ := fleet_answers hcaches hloads
  have hload := hload.resolve_right (by
    rintro ⟨_, item, hitem, ⟨p, hp, hroom⟩, -⟩
    rw [List.mem_singleton.mp hitem] at hp hroom
    cases hvalue.symm.trans hp
    exact absurd hroom (by decide))
  rw [List.map_singleton, hloaded] at hload
  -- the native read
  have hread : c₁.cachedRead (meta_key nativeExample.ns nativeExample.set_name
      "m@1@0@a@bfloat16".toList) [9, 9, 9, 9] 3 = .ok [1, 2, 3, 9] := rfl
  obtain ⟨_, hanswers, -⟩ := fleet_answers hcaches hreads
  simp only [FleetOp.Answers, NativeConnector.OnKey, hkey] at hanswers
  have hcopied := hanswers.2 fun p hp => by
    cases hvalue.symm.trans hp
    decide
  rw [hread] at hcopied
  exact ⟨_, fleet_refines_cache _ _ ((((Run.start.step hset).step (fleetStep_ran hgets hget)).step
    (fleetStep_ran hloads hload)).step (fleetStep_ran hreads hcopied))⟩
