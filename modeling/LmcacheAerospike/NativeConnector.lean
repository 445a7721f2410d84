/-
# The native connector

The four operations of `connector.cpp` on one key, as programs of the same client calls
as the Python engine's, with the arithmetic of `size_t` and `uint32_t` written out.  The
worker's queue is left out.

A buffer that the caller passed is the list of its bytes; a copy past its end would make the
list longer.
-/
import LmcacheAerospike.Engine
import LmcacheAerospike.NativeKeys

/-- A function of the connector: client calls, and `std::runtime_error`s. -/
abbrev NativeM (α : Type) := Prog Op Op.Res RuntimeError α

/-- A function that writes into a buffer: what it throws comes with the buffer as it is then. -/
abbrev BufferM (α : Type) := Prog Op Op.Res (RuntimeError × Bytes) α

/-! ## Machine arithmetic and C strings -/

/-- `a - b` in `size_t`. -/
def size_sub (a b : ℕ) : ℕ := (a + 2 ^ 64 - b) % 2 ^ 64

/-- `static_cast<uint32_t>`. -/
def to_uint32 (n : ℕ) : ℕ := n % 2 ^ 32

/-- `static_cast<size_t>` of an `int64_t`. -/
def int64_to_size (i : ℤ) : ℕ := (i % 2 ^ 64).toNat

/-- `static_cast<uint32_t>` of an `int64_t`. -/
def int64_to_uint32 (i : ℤ) : ℕ := (i % 2 ^ 32).toNat

/-- A `size_t` as an `int64_t`. -/
def size_to_int64 (n : ℕ) : ℤ := Int.bmod n (2 ^ 64)

/-- What a C function sees of a `std::string`: the characters before the first NUL. -/
def c_str (s : Text) : Text := s.takeWhile fun c => c ≠ '\x00'

/-- `memcpy(buf + offset, src, src.size())`. -/
def memcpy (buf : Bytes) (offset : ℕ) (src : Bytes) : Bytes := splice offset src buf

/-! ## Limits -/

/-- `kSafetyMarginBytes`. -/
def kSafetyMarginBytes : ℕ := 64 * 1024

/-- The limits of a connector, as its constructor leaves them. -/
structure NativeLimits : Type where
  max_record_bytes : ℕ
  target_segment_bytes : ℕ
  single_record_threshold_bytes : ℕ
  target_pos : 0 < target_segment_bytes
  target_le : target_segment_bytes ≤ max_record_bytes
  threshold_eq : single_record_threshold_bytes = target_segment_bytes

/-- The limits that the constructor sets for a discovered record cap. -/
def native_limits (target_segment_bytes discovered : ℕ) : Except RuntimeError NativeLimits :=
  if h : discovered ≤ kSafetyMarginBytes then .error ⟨"Aerospike record cap is too small"⟩
  else
    let max_record_bytes := discovered - kSafetyMarginBytes
    let target := if target_segment_bytes = 0 then max_record_bytes
      else min target_segment_bytes max_record_bytes
    .ok {
      max_record_bytes := max_record_bytes
      target_segment_bytes := target
      single_record_threshold_bytes := target
      target_pos := by
        have hmax : 0 < max_record_bytes := Nat.sub_pos_of_lt (Nat.lt_of_not_le h)
        show 0 < ite _ _ _
        split_ifs <;> omega
      target_le := by
        show ite _ _ _ ≤ _
        split_ifs <;> omega
      threshold_eq := rfl }

/-- The plan for a payload, all arithmetic in `size_t`. -/
def NativeLimits.plan (l : NativeLimits) (payload_bytes : ℕ) : Except RuntimeError ShardPlan :=
  if payload_bytes ≤ l.single_record_threshold_bytes ∧ payload_bytes ≤ l.max_record_bytes then
    .ok ⟨1, payload_bytes⟩
  else
    let nseg := to_uint32
      (size_sub ((payload_bytes + l.target_segment_bytes) % 2 ^ 64) 1 / l.target_segment_bytes)
    let seg_b := size_sub ((payload_bytes + nseg) % 2 ^ 64) 1 / nseg
    if seg_b > l.max_record_bytes then
      .error ⟨"payload cannot be sharded within record cap"⟩
    else .ok ⟨nseg, seg_b⟩

/-! ## The connector -/

/-- A connector with its connection. -/
structure NativeConnector : Type where
  ns : Text
  set_name : Text
  dtype : Text
  write_timeout_ms : ℕ
  default_ttl_seconds : ℕ
  limits : NativeLimits

def meta_user_key (cache_key : Text) : Text := cache_key ++ ['|', 'm']

def segment_user_key (cache_key : Text) (index : ℕ) : Text :=
  cache_key ++ ['|', 's', '|'] ++ Nat.toDigits 10 index

/-- The text of an error status. -/
def status_message (err : AxError) : String :=
  let status := err.code
  let message := err.message
  if message = "" then s!"Aerospike status {status}"
  else s!"Aerospike status {status}: {message}"

/-- What `throw_status` throws. -/
def status_error (op : String) (err : AxError) : RuntimeError :=
  let text := if err.code = AEROSPIKE_ERR_RECORD_NOT_FOUND then "record not found"
    else status_message err
  ⟨s!"{op}: {text}"⟩

def aerospike_key_get {E : Type} (key : Key) : Prog Op Op.Res E (Except AxError Bins) :=
  .call (.get key) .ret

def aerospike_key_put (w : Write) : NativeM (Except AxError Unit) := .call (.put w) .ret

/-- A read of no bins. -/
def aerospike_key_exists (key : Key) : NativeM (Except AxError Bins) := .call (.select key []) .ret

def aerospike_key_remove (key : Key) : NativeM (Except AxError Unit) := .call (.remove key) .ret

/-! ### Bins of a record -/

def as_record_get_int64 (rec : Bins) (bin : BinName) (fallback : ℤ) : ℤ :=
  match rec bin with
  | some (.int i) => i
  | _ => fallback

def as_record_get_str (rec : Bins) (bin : BinName) : Option Text :=
  match rec bin with
  | some (.str s) => some (c_str s.toList)
  | _ => none

def as_record_get_bytes (rec : Bins) (bin : BinName) : Option Bytes :=
  match rec bin with
  | some (.blob bytes) => some bytes
  | _ => none

def positive_int_bin (rec : Bins) (bin : BinName) (fallback : ℤ) : ℤ :=
  let value := as_record_get_int64 rec bin fallback
  if value > 0 then value else fallback

namespace NativeConnector

variable (conn : NativeConnector)

/-- `as_key_init_str` on the connection's namespace and set. -/
def as_key (user_key : Text) : Key := ⟨c_str conn.ns, c_str conn.set_name, c_str user_key⟩

/-- The write policy of the connection. -/
def write_policy : WritePolicy where
  total_timeout := conn.write_timeout_ms
  socket_timeout := conn.write_timeout_ms
  commit_level := .all
  key := .digest
  max_retries := 0

/-! ## Writing -/

/-- The write of a segment record. -/
def payload_write (user_key : Text) (buf : Bytes) (len : ℕ) : Write where
  key := conn.as_key user_key
  ops := [(.b, .blob (buf.take (to_uint32 len)))]
  ttl := conn.default_ttl_seconds
  policy := conn.write_policy

def put_payload_record (user_key : Text) (buf : Bytes) (len : ℕ) : NativeM Unit := do
  match ← aerospike_key_put (conn.payload_write user_key buf len) with
  | .ok () => return ()
  | .error err => throw (status_error "put-payload" err)

/-- The write of a meta record; `inline_buf` is null for several segments. -/
def native_meta_write (user_key : Text) (shard : ShardPlan) (total_bytes : ℕ)
    (inline_buf : Option Bytes) (now : ℕ) : Write where
  key := conn.as_key user_key
  ops := [(.ver, .int 1), (.state, .str "ready"), (.nseg, .int shard.nseg),
      (.seg_b, .int (size_to_int64 shard.seg_b)), (.tot_b, .int (size_to_int64 total_bytes)),
      (.created_at, .int now), (.pin, .bool false)]
    ++ match inline_buf with
      | none => []
      | some buf => [(.b, .blob (buf.take (to_uint32 total_bytes)))]
  ttl := conn.default_ttl_seconds
  policy := conn.write_policy

def put_meta_record (user_key : Text) (shard : ShardPlan) (total_bytes : ℕ)
    (inline_buf : Option Bytes) : NativeM Unit := do
  let now ← Prog.call .time .ret
  match ← aerospike_key_put (conn.native_meta_write user_key shard total_bytes inline_buf now) with
  | .ok () => return ()
  | .error err => throw (status_error "put-meta" err)

/-- The loop of `do_single_set` from segment `i` on, `n` segments to go. -/
def set_segments (cache_key : Text) (shard : ShardPlan) (buf : Bytes) (len : ℕ) :
    ℕ → ℕ → NativeM Unit
  | _, 0 => return ()
  | i, n + 1 => do
    -- `size_t` arithmetic: the start and the rest may wrap
    let start := i * shard.seg_b % 2 ^ 64
    let chunk_len := min shard.seg_b (size_sub len start)
    conn.put_payload_record (segment_user_key cache_key i) (buf.drop start) chunk_len
    set_segments cache_key shard buf len (i + 1) n

def do_single_set (key : Text) (buf : Bytes) : NativeM Unit := do
  let len := buf.length
  let cache_key ← .ofExcept (native_key_to_cache_engine_key key conn.dtype)
  let shard ← .ofExcept (conn.limits.plan len)
  if shard.nseg = 1 then
    conn.put_meta_record (meta_user_key cache_key) shard len (some buf)
  else
    conn.set_segments cache_key shard buf len 0 shard.nseg
    conn.put_meta_record (meta_user_key cache_key) shard len none

/-! ## Reading -/

/-- Read one segment into the buffer at `offset`; `false` when it is missing or of another
size. -/
def read_payload_record (user_key : Text) (buf : Bytes) (offset len : ℕ) :
    BufferM (Bool × Bytes) := do
  match ← aerospike_key_get (conn.as_key user_key) with
  | .error err =>
    if err.code = AEROSPIKE_ERR_RECORD_NOT_FOUND then return (false, buf)
    else throw (status_error "get-payload" err, buf)
  | .ok rec =>
    match as_record_get_bytes rec .b with
    | none => return (false, buf)
    | some payload =>
      if payload.length = len then return (true, memcpy buf offset payload)
      else return (false, buf)

/-- The loop of `do_single_get` from segment `i` on, `n` segments to go. -/
def get_segments (cache_key : Text) (len seg_b : ℕ) : ℕ → Bytes → ℕ → ℕ → BufferM Bytes
  | _, buf, _, 0 => return buf
  | offset, buf, i, n + 1 => do
    let chunk_len := min seg_b (size_sub len offset)
    match ← conn.read_payload_record (segment_user_key cache_key i) buf offset chunk_len with
    | (false, buf) => throw (⟨"missing segment payload"⟩, buf)
    | (true, buf) => get_segments cache_key len seg_b ((offset + chunk_len) % 2 ^ 64) buf (i + 1) n

/-- What `do_single_get` does with the meta record it has read. -/
def get_with_record (cache_key : Text) (buf : Bytes) (len : ℕ) (rec : Bins) :
    BufferM Bytes := do
  if as_record_get_str rec .state ≠ some "ready".toList then
    throw (⟨"meta record is not ready"⟩, buf)
  else
    -- a missing or non-positive bin counts as its fallback
    let nseg := int64_to_uint32 (positive_int_bin rec .nseg 1)
    let seg_b := int64_to_size (positive_int_bin rec .seg_b (size_to_int64 len))
    let total_b := int64_to_size (positive_int_bin rec .tot_b (size_to_int64 len))
    if total_b ≠ len then throw (⟨"meta record total size mismatch"⟩, buf)
    else if nseg = 1 then
      match as_record_get_bytes rec .b with
      | none => throw (⟨"single-record payload size mismatch"⟩, buf)
      | some payload =>
        if payload.length ≠ len then throw (⟨"single-record payload size mismatch"⟩, buf)
        else return memcpy buf 0 payload
    else conn.get_segments cache_key len seg_b 0 buf 0 nseg

/-- Read a chunk of `len` bytes into `buf`, and return the buffer. -/
def do_single_get (key : Text) (buf : Bytes) (len : ℕ) : BufferM Bytes := do
  match native_key_to_cache_engine_key key conn.dtype with
  | .error e => throw (e, buf)
  | .ok cache_key =>
    match ← aerospike_key_get (conn.as_key (meta_user_key cache_key)) with
    | .error err => throw (status_error "get-meta" err, buf)
    | .ok rec => conn.get_with_record cache_key buf len rec

/-! ## Presence and removal -/

def do_single_exists (key : Text) : NativeM Bool := do
  let cache_key ← .ofExcept (native_key_to_cache_engine_key key conn.dtype)
  match ← aerospike_key_exists (conn.as_key (meta_user_key cache_key)) with
  | .ok _ => return true
  | .error err =>
    if err.code = AEROSPIKE_ERR_RECORD_NOT_FOUND then return false
    else throw (status_error "exists" err)

/-- The loop of `do_single_delete` from segment `i` on, `n` segments to go: what comes of a
removal is not looked at. -/
def delete_segments (cache_key : Text) : ℕ → ℕ → NativeM Unit
  | _, 0 => return ()
  | i, n + 1 => do
    let _ ← aerospike_key_remove (conn.as_key (segment_user_key cache_key i))
    delete_segments cache_key (i + 1) n

/-- What `do_single_delete` does once it has the number of segments. -/
def delete_records (cache_key : Text) (nseg : ℕ) : NativeM Bool := do
  match ← aerospike_key_remove (conn.as_key (meta_user_key cache_key)) with
  | .error err =>
    if err.code = AEROSPIKE_ERR_RECORD_NOT_FOUND then return false
    else throw (status_error "delete-meta" err)
  | .ok () =>
    conn.delete_segments cache_key 0 nseg
    return true

def do_single_delete (key : Text) : NativeM Bool := do
  let cache_key ← .ofExcept (native_key_to_cache_engine_key key conn.dtype)
  match ← aerospike_key_get (conn.as_key (meta_user_key cache_key)) with
  | .error err =>
    if err.code = AEROSPIKE_ERR_RECORD_NOT_FOUND then return false
    else throw (status_error "delete-read-meta" err)
  | .ok rec =>
    -- a chunk of one record still has the record of segment 0 removed
    conn.delete_records cache_key (int64_to_uint32 (positive_int_bin rec .nseg 1))

end NativeConnector
