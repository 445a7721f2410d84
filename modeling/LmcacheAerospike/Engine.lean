/-
# The storage engine

`AerospikeStorageEngine` of `engine.py` as programs of client calls.  A `try` around
one client call is a case split on its answer; a `try` around several is
`Prog.tryCatch`.  Metrics timers and log lines are left out.

A memory object the engine was given or has allocated is a value that it rebinds;
`ref_count_down()` is a call of its own, so that a run shows how often it was made.
-/
import LmcacheAerospike.Config
import LmcacheAerospike.Keys
import LmcacheAerospike.PyText
import LmcacheAerospike.Serde

/-- A function of the package: client calls, and Python exceptions. -/
abbrev EngineM (α : Type) := Prog Op Op.Res PyExc α

/-- An engine: its configuration, and what LMCache and torch contribute. -/
structure Engine : Type where
  cfg : AerospikeConfig
  metadata : EngineMetadata
  resolved : ResolvedLimits
  /-- `reshape_partial_chunk`. -/
  reshape : MemoryObj → ℕ → Except PyExc MemoryObj
  /-- `allocate_for_read`. -/
  allocate_for_read : Bins → Except PyExc (Option MemoryObj × Bool)
  /-- `RemoteMetadata.serialize`. -/
  serialize : RemoteMetadata → Bytes
  /-- `torch.frombuffer`. -/
  frombuffer : Bytes → Except PyExc Bytes
  /-- The constructor argument `pin_ttl_seconds`. -/
  pin_ttl_seconds : Option ℤ := none

/-- What `get` returns on a hit: the object, with the object as filled before
`reshape_partial_chunk` and the local `total_written` at that point. -/
structure Hit : Type where
  mo : MemoryObj
  filled : MemoryObj
  total_written : ℕ
  deriving DecidableEq, Repr

/-- An item of `batched_put` with its plan and meta write. -/
structure PlannedPut : Type where
  ck : Text
  memory_obj : MemoryObj
  p : ShardPlan
  mwrite : Write

/-- What `batched_get_preallocated` makes of one meta record: the buffer filled from an inline
payload, if it was, or nothing yet. -/
inductive MetaRead : Type where
  | result (filled : Option MemoryObj)
  | multi_seg

/-- The locals of `batched_get_preallocated`: for each item the filled buffer, where the
list `results` has `True`, and the items left to `get`. -/
structure LoadState : Type where
  results : List (Option MemoryObj)
  multi_seg : List (ℕ × Text × MemoryObj)

/-- `AEROSPIKE_OK`. -/
def AEROSPIKE_OK : ℤ := 0

/-! ## Client calls -/

def client_get (key : Key) : EngineM (Except AxError Bins) := .call (.get key) .ret

def client_select (key : Key) (bins : List BinName) : EngineM (Except AxError Bins) :=
  .call (.select key bins) .ret

def client_put (w : Write) : EngineM (Except AxError Unit) := .call (.put w) .ret

def client_operate (w : Write) : EngineM (Except AxError Unit) := .call (.operate w) .ret

def client_touch (key : Key) (ttl : ℤ) : EngineM (Except AxError Unit) :=
  .call (.touch key ttl) .ret

def client_remove (key : Key) : EngineM (Except AxError Unit) := .call (.remove key) .ret

def client_batch_read (keys : List Key) (bins : List BinName) :
    EngineM (Except AxError (List BatchRecord)) :=
  .call (.batch_read keys bins) .ret

def client_batch_write (ops : List BatchOp) :
    EngineM (Except AxError (List BatchRecord)) :=
  .call (.batch_write ops) .ret

/-- `time.time()`. -/
def time_time : EngineM ℕ := .call .time .ret

/-- `mo.ref_count_down()`. -/
def ref_count_down : EngineM Unit := .call .ref_count_down .ret

/-- A client call outside any `try` of its own: its exception goes on. -/
def raising {α : Type} (c : EngineM (Except AxError α)) : EngineM α :=
  c.bind fun
    | .ok a => .ret a
    | .error exc => .raise (.aerospike exc)

namespace Engine

variable (eng : Engine)

/-! ## Time to live -/

/-- `pin_ttl_seconds or max(default * 2, default)`, where `0` counts as absent. -/
def pin_ttl : ℤ :=
  match eng.pin_ttl_seconds with
  | some 0 | none => max (eng.cfg.default_ttl_seconds * 2) eng.cfg.default_ttl_seconds
  | some ttl => ttl

def ttl_value (pinned : Bool) : ℤ := if pinned then -1 else eng.cfg.default_ttl_seconds

/-- The meta key of a logical key. -/
abbrev metaKey (ck : Text) : Key := meta_key eng.cfg.ns eng.cfg.set_name ck

/-- The key of a segment of a logical key. -/
abbrev segmentKey (ck : Text) (i : ℕ) : Key :=
  segment_key eng.cfg.ns eng.cfg.set_name ck i

/-! ## `exists` -/

def exists_ (ck : Text) : EngineM Bool := do
  match ← client_select (eng.metaKey ck) [.state] with
  | .ok _ => return true
  | .error exc =>
    if exc.kind = .RecordNotFound then return false
    else if classify (.ax exc) = .timeout then return false
    else throw (map_aerospike_error "exists" (.ax exc))

/-! ## `get` -/

/-- The exponent field of a double. -/
def doubleExponent (bits : UInt64) : ℕ := bits.toNat / 2 ^ 52 % 2 ^ 11

/-- The fraction field of a double. -/
def doubleFraction (bits : UInt64) : ℕ := bits.toNat % 2 ^ 52

/-- The absolute value of a finite double, in units of `2 ^ -1075`. -/
def doubleUnits (bits : UInt64) : ℕ :=
  if doubleExponent bits = 0 then doubleFraction bits * 2
  else (2 ^ 52 + doubleFraction bits) * 2 ^ doubleExponent bits

/-- `int()` of a double: what is left without its fractional part. -/
def doubleInt (bits : UInt64) : Except PyExc ℤ :=
  if doubleExponent bits = 2047 then
    .error (.builtin (if doubleFraction bits = 0 then .OverflowError else .ValueError))
  else
    let n : ℤ := (doubleUnits bits / 2 ^ 1075 : ℕ)
    .ok (if bits.toNat < 2 ^ 63 then n else -n)

/-- `actual == expected` for a double `expected`. -/
def doubleEq (bits : UInt64) (actual : ℕ) : Bool :=
  doubleExponent bits ≠ 2047 ∧ doubleUnits bits = actual * 2 ^ 1075 ∧
    (bits.toNat < 2 ^ 63 ∨ actual = 0)

/-- `int(value)`. -/
def pyInt : BinVal → Except PyExc ℤ
  | .int i => .ok i
  | .bool v => .ok (if v then 1 else 0)
  | .str s => (PyText.integer s.toList).elim (.error (.builtin .ValueError)) .ok
  | .blob b =>
    -- bytes are read as ASCII
    if b.all fun x => x < 128 then
      (PyText.integer (b.map fun x => Char.ofNat x.toNat)).elim
        (.error (.builtin .ValueError)) .ok
    else .error (.builtin .ValueError)
  | .double bits => doubleInt bits
  | .collection _ | .geojson => .error (.builtin .TypeError)

/-- An integer that a double equals is what `int()` makes of it. -/
theorem doubleInt_of_doubleEq {bits : UInt64} {n : ℕ} (h : doubleEq bits n = true) :
    doubleInt bits = .ok n := by
  obtain ⟨hfinite, hunits, hsign⟩ := of_decide_eq_true h
  rw [doubleInt, if_neg hfinite, hunits, Nat.mul_div_cancel _ (Nat.two_pow_pos 1075)]
  dsimp only
  rcases hsign with hpos | rfl
  · rw [if_pos hpos]
  · simp

example : (pyInt (.double 0x3FF8000000000000), pyInt (.double 0xFFF0000000000000),
    pyInt (.blob [11, 50, 10])) = (.ok 1, .error (.builtin .OverflowError), .ok 2) := by
  decide +kernel

/-- `actual != expected` for a stored value `expected`, negated. -/
def pyEqInt (expected : BinVal) (actual : ℕ) : Bool :=
  match expected with
  | .int i => i = actual
  | .bool v => (if v then 1 else 0) = actual
  | .double bits => doubleEq bits actual
  | _ => false

/-- The loop over `brs.batch_records`: `none` for a missing or in-flight segment. -/
def write_segments (mo : MemoryObj) (offset total_written : ℕ) :
    List BatchRecord → Except PyExc (Option (MemoryObj × ℕ))
  | [] => .ok (some (mo, total_written))
  | rec :: recs =>
    if rec.result ≠ AEROSPIKE_OK then .ok none
    else match rec.record with
      | none => .ok none
      | some bins =>
        match bins .b with
        | none => .error (.builtin .KeyError)
        | some chunk =>
          match write_payload_into eng.frombuffer mo chunk offset with
          | .error e => .error e
          | .ok (mo', n) => write_segments mo' (offset + n) (total_written + n) recs

/-- The payload into the receive buffer: inline, or from the segment records.  `none`
is a miss, after a `ref_count_down()` when a segment is missing. -/
def read_payload (ck : Text) (bins : Bins) (nseg : ℤ) (mo : MemoryObj) :
    EngineM (Option (MemoryObj × ℕ)) := do
  if nseg = 1 then
    match bins .b with
    -- no `ref_count_down()` here: the buffer of an empty meta record is not released
    | none => return none
    | some payload =>
      let filled ← .ofExcept (write_payload_into eng.frombuffer mo payload 0)
      return some filled
  else
    let recs ← raising (client_batch_read
      (segment_keys eng.cfg.ns eng.cfg.set_name ck nseg.toNat) [.b])
    match ← .ofExcept (eng.write_segments mo 0 0 recs) with
    | some filled => return some filled
    | none =>
      ref_count_down
      return none

/-- The optional check of the whole payload: an absent `crc32` bin passes. -/
def crc_matches (bins : Bins) (mo : MemoryObj) (total_written : ℕ) : Bool :=
  if eng.cfg.enable_crc32 then
    match bins .crc32 with
    | none => true
    | some expected => pyEqInt expected (crc32 (mo.byte_array.take total_written))
  else true

/-- What `get` does once the payload is in the buffer. -/
def finish (bins : Bins) (filled : MemoryObj) (total_written : ℕ) (expect_reshape : Bool) :
    EngineM (Option Hit) := do
  if eng.crc_matches bins filled total_written then
    if expect_reshape then
      let shaped ← .ofExcept (eng.reshape filled total_written)
      return some ⟨shaped, filled, total_written⟩
    else return some ⟨filled, filled, total_written⟩
  else
    ref_count_down
    return none

/-- The body of `get` inside its `try`. -/
def fill (ck : Text) (bins : Bins) (nseg : ℤ) (mo : MemoryObj) (expect_reshape : Bool) :
    EngineM (Option Hit) := do
  match ← eng.read_payload ck bins nseg mo with
  | none => return none
  | some (filled, total_written) => eng.finish bins filled total_written expect_reshape

/-- `except Exception: mo.ref_count_down(); raise`. -/
def release {α : Type} (exc : PyExc) : EngineM α := do
  ref_count_down
  throw exc

/-- The receive buffer: the caller's, or one allocated for these bins. -/
def receive_buffer (bins : Bins) (preallocated : Option MemoryObj) :
    Except PyExc (Option MemoryObj × Bool) :=
  match preallocated with
  | some mo => .ok (some mo, false)
  | none => eng.allocate_for_read bins

/-- What `get` does with the meta record it has read. -/
def get_with_meta (ck : Text) (preallocated : Option MemoryObj) (bins : Bins) :
    EngineM (Option Hit) := do
  if bins .state ≠ some (.str "ready") then return none
  else match bins .nseg with
    | none => throw (.builtin .KeyError)
    | some value =>
      let nseg ← .ofExcept (pyInt value)
      match ← .ofExcept (eng.receive_buffer bins preallocated) with
      | (none, _) => return none
      | (some mo, expect_reshape) =>
        -- only from here on does an exception release the buffer
        (eng.fill ck bins nseg mo expect_reshape).tryCatch release

/-- Read a chunk into a new or preallocated `MemoryObj`. -/
def get (ck : Text) (preallocated : Option MemoryObj) : EngineM (Option Hit) := do
  match ← client_get (eng.metaKey ck) with
  | .ok bins => eng.get_with_meta ck preallocated bins
  | .error exc =>
    if exc.kind = .RecordNotFound then return none
    else if classify (.ax exc) = .timeout then return none
    else if classify (.ax exc) = .connection then throw (.connector .connection exc.str)
    else throw (map_aerospike_error "get" (.ax exc))

/-! ## `put` -/

/-- The write of segment `i`, its own CRC beside it when CRCs are on. -/
def segment_write (ck : Text) (payload : Bytes) (seg_b : ℕ) (ttl : ℤ) (i : ℕ) : Write where
  key := eng.segmentKey ck i
  ops := (.b, .blob (slice seg_b i payload)) ::
    if eng.cfg.enable_crc32 then
      [(.crc32, .int (crc32 (slice seg_b i payload)))] else []
  ttl := ttl
  policy := write_policy eng.cfg

/-- The list `writes` of a multi-segment put. -/
def segment_writes (ck : Text) (payload : Bytes) (p : ShardPlan) (ttl : ℤ) : List Write :=
  (List.range p.nseg).map (eng.segment_write ck payload p.seg_b ttl)

/-- The write of the meta record. -/
def meta_write (ck : Text) (memory_obj : MemoryObj) (p : ShardPlan) (pinned : Bool)
    (now : ℕ) : Write where
  key := eng.metaKey ck
  ops := meta_bins eng.serialize p memory_obj eng.metadata.save_chunk_meta
    eng.cfg.enable_crc32 pinned now
  ttl := eng.ttl_value pinned
  policy := write_policy eng.cfg

/-- The loop over `batch.batch_records` after the segment writes. -/
def check_segments : List BatchRecord → Except PyExc Unit
  | [] => .ok ()
  | rec :: recs =>
    if rec.result ≠ AEROSPIKE_OK then
      .error (map_aerospike_error "put-segment" (result_to_exc rec.result))
    else check_segments recs

/-- The `except` clauses of `put` and `batched_put`. -/
def reraise {α : Type} (op_name : String) (too_big : AxError → String) : PyExc → EngineM α
  | .aerospike exc =>
    if exc.kind = .RecordTooBig then throw (.connector .recordTooBig (too_big exc))
    else if classify (.ax exc) = .forbidden_ttl then throw (.connector .ttlConfig exc.str)
    else if classify (.ax exc) = .busy then throw (.connector .busy exc.str)
    else throw (map_aerospike_error op_name (.ax exc))
  | exc => throw exc

/-- The client calls of `put`: the segments, checked, and then the meta record. -/
def put_records (ck : Text) (memory_obj : MemoryObj) (p : ShardPlan) (pinned : Bool)
    (now : ℕ) : EngineM Unit := do
  if p.nseg = 1 then
    raising (client_put (eng.meta_write ck memory_obj p pinned now))
  else
    let recs ← raising (client_batch_write
      ((eng.segment_writes ck memory_obj.byte_array p (eng.ttl_value pinned)).map .write))
    .ofExcept (check_segments recs)
    raising (client_put (eng.meta_write ck memory_obj p pinned now))

/-- The text of the error for a record that the server finds too big. -/
def put_too_big (total : ℕ) : String :=
  let max_segment := eng.resolved.max_segment_bytes
  s!"put payload {total} bytes exceeds server limits (max_segment={max_segment})"

def put (ck : Text) (memory_obj : MemoryObj) (pinned : Bool) : EngineM Unit := do
  let p ← .ofExcept (eng.resolved.shard_plan memory_obj.byte_array.length)
  let now ← time_time
  (eng.put_records ck memory_obj p pinned now).tryCatch
    (reraise "put" fun _ => eng.put_too_big memory_obj.byte_array.length)

/-! ## `batched_put` -/

/-- `_BATCH_KEYS_CHUNK`. -/
def BATCH_KEYS_CHUNK : ℕ := 32

/-- `_chunked`: `items[i : i + chunk_size]` for `i` in `range(0, len(items), chunk_size)`. -/
def chunked {α : Type} (items : List α) (chunk_size : ℕ) : List (List α) :=
  (List.range (items.length ⌈/⌉ chunk_size)).map fun j => slice chunk_size j items

/-- The first loop of `_batched_put_chunk`. -/
def plan_items (pinned : Bool) : List (Text × MemoryObj) → EngineM (List PlannedPut)
  | [] => return []
  | (ck, memory_obj) :: items => do
    let p ← .ofExcept (eng.resolved.shard_plan memory_obj.byte_array.length)
    let now ← time_time
    let rest ← plan_items pinned items
    return ⟨ck, memory_obj, p, eng.meta_write ck memory_obj p pinned now⟩ :: rest

/-- One `put` of the mixed path, its typed failures turned into `False`. -/
def put_item (pinned : Bool) (ck : Text) (memory_obj : MemoryObj) : EngineM Bool :=
  ((eng.put ck memory_obj pinned).bind fun _ => .ret true).tryCatch fun
    | .connector .recordTooBig _ | .connector .ttlConfig _ | .connector .busy _ => return false
    | .aerospike _ => return false
    | exc => throw exc

/-- The second loop of `_batched_put_chunk`, when some item has several segments. -/
def put_items (pinned : Bool) : List PlannedPut → EngineM (List Bool)
  | [] => return []
  | item :: items => do
    let ok ← eng.put_item pinned item.ck item.memory_obj
    let rest ← put_items pinned items
    return ok :: rest

def batched_put_chunk (pinned : Bool) (items : List (Text × MemoryObj)) :
    EngineM (List Bool) := do
  let plans ← eng.plan_items pinned items
  -- one item of several segments sends the whole chunk through `put`
  if plans.any fun item => item.p.nseg > 1 then eng.put_items pinned plans
  else
    let recs ← raising (client_batch_write (plans.map fun item => .write item.mwrite))
    return recs.map fun rec => rec.result = AEROSPIKE_OK

/-- The loop over the chunks. -/
def batched_put_chunks (pinned : Bool) : List (List (Text × MemoryObj)) → EngineM (List Bool)
  | [] => return []
  | chunk :: chunks => do
    let results ← eng.batched_put_chunk pinned chunk
    let rest ← batched_put_chunks pinned chunks
    return results ++ rest

/-- Store multiple keys, in chunks; one `batch_write` for a chunk whose items all have
the single-record layout. -/
def batched_put (items : List (Text × MemoryObj)) (pinned : Bool) : EngineM (List Bool) :=
  if items = [] then return []
  else (eng.batched_put_chunks pinned (chunked items BATCH_KEYS_CHUNK)).tryCatch
    (reraise "batched_put" AxError.str)

/-! ## `batched_get_preallocated` -/

/-- `_META_READ_BINS`. -/
def META_READ_BINS : List BinName := [.state, .nseg, .b, .crc32]

/-- The `try` around an inline payload, whose exceptions are only logged. -/
def read_inline (bins : Bins) (payload : BinVal) (mo : MemoryObj) : Option MemoryObj :=
  match write_payload_into eng.frombuffer mo payload 0 with
  | .error _ => none
  | .ok (filled, total_written) =>
    if eng.crc_matches bins filled total_written then some filled else none

/-- One turn of the loop over `brs.batch_records`. -/
def read_meta_record (rec : BatchRecord) (mo : MemoryObj) : Except PyExc MetaRead :=
  if rec.result ≠ AEROSPIKE_OK then .ok (.result none)
  else match rec.record with
    | none => .ok (.result none)
    | some bins =>
      if bins .state ≠ some (.str "ready") then .ok (.result none)
      else match bins .nseg with
        | none => .error (.builtin .KeyError)
        | some value =>
          match pyInt value with
          | .error e => .error e
          | .ok nseg =>
            if nseg ≠ 1 then .ok .multi_seg
            else match bins .b with
              | none => .ok (.result none)
              | some payload => .ok (.result (eng.read_inline bins payload mo))

/-- The loop, from index `i` of `results` on; what it raises leaves `results` as they are. -/
def read_meta_records (i : ℕ) (st : LoadState) :
    List BatchRecord → List (Text × MemoryObj) → LoadState × Option PyExc
  | [], _ => (st, none)
  | _ :: _, [] => (st, some (.builtin .IndexError))
  | rec :: recs, (ck, mo) :: items =>
    match eng.read_meta_record rec mo with
    | .error e => (st, some e)
    | .ok .multi_seg =>
      read_meta_records (i + 1) { st with multi_seg := st.multi_seg ++ [(i, ck, mo)] } recs items
    | .ok (.result none) => read_meta_records (i + 1) st recs items
    | .ok (.result (some filled)) =>
      read_meta_records (i + 1) { st with results := st.results.set i (some filled) } recs items

/-- The loop over `multi_seg`. -/
def get_multi_seg (results : List (Option MemoryObj)) :
    List (ℕ × Text × MemoryObj) → EngineM (List (Option MemoryObj) × Option PyExc)
  | [] => return (results, none)
  | (i, ck, mo) :: multi_seg => do
    match ← (eng.get ck (some mo)).attempt with
    | .error e => return (results, some e)
    | .ok none => get_multi_seg results multi_seg
    | .ok (some hit) => get_multi_seg (results.set i (some hit.mo)) multi_seg

/-- `_batched_get_preallocated_chunk`: the results, and what it raises. -/
def batched_get_preallocated_chunk (items : List (Text × MemoryObj))
    (results : List (Option MemoryObj)) (offset : ℕ) :
    EngineM (List (Option MemoryObj) × Option PyExc) := do
  match ← client_batch_read (items.map fun item => eng.metaKey item.1) META_READ_BINS with
  | .error exc => return (results, some (.aerospike exc))
  | .ok recs =>
    match eng.read_meta_records offset ⟨results, []⟩ recs items with
    | (st, some e) => return (st.results, some e)
    | (st, none) => eng.get_multi_seg st.results st.multi_seg

/-- The loop over the chunks. -/
def batched_get_preallocated_chunks (results : List (Option MemoryObj)) (offset : ℕ) :
    List (List (Text × MemoryObj)) → EngineM (List (Option MemoryObj) × Option PyExc)
  | [] => return (results, none)
  | chunk :: chunks => do
    match ← eng.batched_get_preallocated_chunk chunk results offset with
    | (results, some e) => return (results, some e)
    | (results, none) =>
      batched_get_preallocated_chunks results (offset + chunk.length) chunks

/-- Read multiple keys into preallocated buffers, in chunks; a timeout returns what there
is. -/
def batched_get_preallocated (items : List (Text × MemoryObj)) :
    EngineM (List (Option MemoryObj)) := do
  if items = [] then return []
  else match ← eng.batched_get_preallocated_chunks (items.map fun _ => none) 0
        (chunked items BATCH_KEYS_CHUNK) with
    | (results, none) => return results
    | (results, some (.aerospike exc)) =>
      if classify (.ax exc) = .timeout then return results
      else if classify (.ax exc) = .connection then throw (.connector .connection exc.str)
      else throw (map_aerospike_error "batched_get" (.ax exc))
    | (_, some e) => throw e

/-! ## Presence -/

/-- The number of leading results that are `AEROSPIKE_OK`. -/
def count_prefix : List BatchRecord → ℕ
  | [] => 0
  | rec :: recs => if rec.result ≠ AEROSPIKE_OK then 0 else count_prefix recs + 1

def batched_contains (keys : List Text) : EngineM ℕ := do
  if keys = [] then return 0
  else match ← client_batch_read (keys.map eng.metaKey) [] with
    | .error _ => return 0
    | .ok recs => return count_prefix recs

def batched_exists_mask (keys : List Text) : EngineM (List Bool) := do
  if keys = [] then return []
  else match ← client_batch_read (keys.map eng.metaKey) [] with
    | .error _ => return keys.map fun _ => false
    | .ok recs => return recs.map fun rec => rec.result = AEROSPIKE_OK

/-! ## Pins -/

/-- A write of the pin bin alone. -/
def pin_write (ck : Text) (v : Bool) (ttl : ℤ) : Write where
  key := eng.metaKey ck
  ops := [(.pin, .bool v)]
  ttl := ttl
  policy := write_policy eng.cfg

/-- Refresh the TTL and set the pin bin on prefix hits; failures are only logged. -/
def pin_keys (keys : List Text) : EngineM Unit := do
  if keys = [] then return ()
  else
    let _ ← client_batch_write (keys.map fun ck => .write (eng.pin_write ck true eng.pin_ttl))
    return ()

def unpin (ck : Text) : EngineM Bool := do
  match ← client_touch (eng.metaKey ck) eng.cfg.default_ttl_seconds with
  | .error _ => return false
  | .ok () =>
    -- a second round trip: the record that was touched may be gone by now
    match ← client_operate (eng.pin_write ck false eng.cfg.default_ttl_seconds) with
    | .error _ => return false
    | .ok () => return true

def pin (ck : Text) : EngineM Bool := do
  if ← eng.exists_ ck then
    eng.pin_keys [ck]
    return true
  else return false

/-- `batched_async_contains` of the connector and of the storage plugin. -/
def batched_async_contains (keys : List Text) (pin : Bool) : EngineM ℕ := do
  let count ← eng.batched_contains keys
  if pin ∧ count > 0 then eng.pin_keys (keys.take count)
  return count

/-! ## `remove` -/

/-- Delete the meta record, and then the segments that it named. -/
def remove_records (key : Text) (nseg : ℤ) : EngineM Bool := do
  match ← client_remove (eng.metaKey key) with
  | .error exc =>
    if exc.kind = .RecordNotFound then return false
    else throw (map_aerospike_error "remove" (.ax exc))
  | .ok () =>
    if nseg > 1 then
      -- a failure to remove segments is only logged
      let _ ← client_batch_write
        ((segment_keys eng.cfg.ns eng.cfg.set_name key nseg.toNat).map .remove)
    return true

def remove (key : Text) : EngineM Bool := do
  match ← client_select (eng.metaKey key) [.nseg] with
  | .error exc =>
    if exc.kind = .RecordNotFound then return false
    -- only logged: the meta record goes, its segments stay behind
    else eng.remove_records key 1
  | .ok bins =>
    match bins .nseg with
    | none => eng.remove_records key 1
    | some value =>
      let nseg ← .ofExcept (pyInt value)
      eng.remove_records key nseg

end Engine

/-! ## Client operations -/

/-- An operation that a client starts, with the engine it uses. -/
inductive ClientOp : Type where
  | get (eng : Engine) (ck : Text) (preallocated : Option MemoryObj)
  | put (eng : Engine) (ck : Text) (memory_obj : MemoryObj) (pinned : Bool)
  | batched_put (eng : Engine) (items : List (Text × MemoryObj)) (pinned : Bool)
  | exists_ (eng : Engine) (ck : Text)
  | batched_contains (eng : Engine) (keys : List Text)
  | batched_async_contains (eng : Engine) (keys : List Text) (pin : Bool)
  | pin_keys (eng : Engine) (keys : List Text)
  | unpin (eng : Engine) (ck : Text)
  | pin (eng : Engine) (ck : Text)
  | remove (eng : Engine) (ck : Text)

/-- What an operation returns. -/
inductive OpResult : Type where
  | got (hit : Option Hit)
  | done
  | flag (v : Bool)
  | flags (vs : List Bool)
  | count (n : ℕ)
  deriving DecidableEq, Repr

/-- The engine call of an operation. -/
def ClientOp.prog : ClientOp → EngineM OpResult
  | .get eng ck preallocated => (eng.get ck preallocated).bind fun r => .ret (.got r)
  | .put eng ck mo pinned => (eng.put ck mo pinned).bind fun _ => .ret .done
  | .batched_put eng items pinned => (eng.batched_put items pinned).bind fun r => .ret (.flags r)
  | .exists_ eng ck => (eng.exists_ ck).bind fun r => .ret (.flag r)
  | .batched_contains eng keys => (eng.batched_contains keys).bind fun r => .ret (.count r)
  | .batched_async_contains eng keys withPin =>
    (eng.batched_async_contains keys withPin).bind fun r => .ret (.count r)
  | .pin_keys eng keys => (eng.pin_keys keys).bind fun _ => .ret .done
  | .unpin eng ck => (eng.unpin ck).bind fun r => .ret (.flag r)
  | .pin eng ck => (eng.pin ck).bind fun r => .ret (.flag r)
  | .remove eng ck => (eng.remove ck).bind fun r => .ret (.flag r)
