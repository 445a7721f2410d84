/-
# Metadata bins and payload assembly

`serde.py`: the bins of a meta record, the receive buffer of a read, and the copy of
one payload into it.  What LMCache and torch contribute is a parameter: the
serialized form of a `RemoteMetadata`, the allocator of the CPU backend, and
`torch.frombuffer`.
-/
import LmcacheAerospike.Crc32
import LmcacheAerospike.Sharding

/-! ## Memory objects -/

/-- What `RemoteMetadata` records of a memory object. -/
structure RemoteMetadata : Type where
  length : ℕ
  shapes : List (List ℕ)
  dtypes : List String
  fmt : String
  deriving DecidableEq, Repr

/-- A `MemoryObj`: its `byte_array`, whether its `raw_data` is a `torch.Tensor`, and what
that tensor has past the bytes of the `byte_array`. -/
structure MemoryObj : Type where
  byte_array : Bytes
  raw_is_tensor : Bool := false
  shapes : List (List ℕ) := []
  dtypes : List String := []
  fmt : String := "KV_2LTD"
  padding : Bytes := []
  deriving DecidableEq, Repr

/-- The raw memory of the object; its `byte_array` is the front of it. -/
def MemoryObj.raw_data (mo : MemoryObj) : Bytes := mo.byte_array ++ mo.padding

/-- The size of the buffer that a payload is copied into: `buf_bytes.numel()` of a tensor,
`len(buf)` of other memory. -/
def MemoryObj.room (mo : MemoryObj) : ℕ :=
  if mo.raw_is_tensor then mo.raw_data.length else mo.byte_array.length

def build_remote_metadata (memory_obj : MemoryObj) : RemoteMetadata :=
  ⟨memory_obj.byte_array.length, memory_obj.shapes, memory_obj.dtypes, memory_obj.fmt⟩

/-! ## The bins of the meta record -/

/-- Bins for the meta record, the payload inline only when `nseg == 1`; `created_at` is
the reading of `time.time()`. -/
def meta_bins (serialize : RemoteMetadata → Bytes) (plan : ShardPlan)
    (memory_obj : MemoryObj) (save_chunk_meta enable_crc32 pinned : Bool)
    (created_at : ℕ) : BinWrites :=
  let payload := memory_obj.byte_array
  let bins : BinWrites :=
    [(.ver, .int 1), (.state, .str "ready"), (.nseg, .int plan.nseg),
      (.seg_b, .int plan.seg_b), (.tot_b, .int payload.length),
      (.created_at, .int created_at), (.pin, .bool pinned)]
  let md : BinWrites := if save_chunk_meta then
    [(.md, .blob (serialize (build_remote_metadata memory_obj)))] else []
  let b : BinWrites := if plan.nseg = 1 then [(.b, .blob payload)] else []
  let crc : BinWrites := if enable_crc32 then [(.crc32, .int (crc32 payload))] else []
  bins ++ md ++ b ++ crc

theorem mergeBins_append (ops ops' : BinWrites) (bins : Bins) :
    mergeBins (ops ++ ops') bins = mergeBins ops' (mergeBins ops bins) :=
  List.foldl_append ..

/-- A bin that is written only under a condition. -/
theorem mergeBins_optional (c : Prop) [Decidable c] (kv : BinName × BinVal) (bins : Bins)
    (n : BinName) :
    mergeBins (if c then [kv] else []) bins n
      = if c ∧ n = kv.1 then some kv.2 else bins n := by
  by_cases hc : c
  · by_cases hn : n = kv.1
    · simp [hc, hn, mergeBins]
    · simp [hc, hn, mergeBins]
  · simp [hc, mergeBins]

section MetaBins

variable (serialize : RemoteMetadata → Bytes) (plan : ShardPlan) (mo : MemoryObj)
  (save crc pinned : Bool) (now : ℕ) (old : Bins)

/-- The bins of a meta record after a write of `meta_bins` over the bins `old`: the
optional bins that the write leaves out keep their old values. -/
theorem mergeBins_meta_bins (n : BinName) :
    mergeBins (meta_bins serialize plan mo save crc pinned now) old n
      = match n with
        | .ver => some (.int 1)
        | .state => some (.str "ready")
        | .nseg => some (.int plan.nseg)
        | .seg_b => some (.int plan.seg_b)
        | .tot_b => some (.int mo.byte_array.length)
        | .created_at => some (.int now)
        | .pin => some (.bool pinned)
        | .md => if save then some (.blob (serialize (build_remote_metadata mo)))
            else old .md
        | .b => if plan.nseg = 1 then some (.blob mo.byte_array) else old .b
        | .crc32 => if crc then some (.int (crc32 mo.byte_array)) else old .crc32
        | .other name => old (.other name) := by
  rw [meta_bins, mergeBins_append, mergeBins_append, mergeBins_append, mergeBins_optional,
    mergeBins_optional, mergeBins_optional]
  cases n <;> simp [mergeBins, Function.update]

end MetaBins

/-! ## The receive buffer -/

/-- The LMCache metadata an engine reads and writes with. -/
structure EngineMetadata : Type where
  save_chunk_meta : Bool
  meta_shapes : List (List ℕ) := []
  meta_dtypes : List String := []
  meta_fmt : String := "KV_2LTD"

/-- Allocate a `MemoryObj` for a read; the second value is `expect_reshape`. -/
def allocate_for_read (allocate : List (List ℕ) → List String → String → Option MemoryObj)
    (deserialize : Bytes → Except PyExc RemoteMetadata) (base : EngineMetadata)
    (meta_bins : Bins) : Except PyExc (Option MemoryObj × Bool) :=
  match base.save_chunk_meta, meta_bins .md with
  | true, some (.blob md) => do
    let rm ← deserialize md
    return (allocate rm.shapes rm.dtypes rm.fmt, false)
  -- a `md` bin that is not bytes
  | true, some _ => .error (.builtin .TypeError)
  | _, _ => .ok (allocate base.meta_shapes base.meta_dtypes base.meta_fmt, true)

/-- `buf[offset : offset + len(src)] = src`. -/
def splice (offset : ℕ) (src buf : Bytes) : Bytes :=
  buf.take offset ++ src ++ buf.drop (offset + src.length)

/-- The object after `buf[offset : offset + len(src)] = src` on its memory. -/
def MemoryObj.copied (mo : MemoryObj) (offset : ℕ) (src : Bytes) : MemoryObj :=
  let raw := splice offset src mo.raw_data
  { mo with
    byte_array := raw.take mo.byte_array.length
    padding := raw.drop mo.byte_array.length }

/-- Copy `payload` into `memory_obj` at `offset` and return the bytes written.  A value
without a length is a `TypeError` at `len(payload)`; one with a length that is not bytes is
refused at the copy, by `torch.frombuffer` or by the slice assignment. -/
def write_payload_into (frombuffer : Bytes → Except PyExc Bytes) (memory_obj : MemoryObj)
    (payload : BinVal) (offset : ℕ) : Except PyExc (MemoryObj × ℕ) :=
  let room := memory_obj.room
  let tooLong (n : ℕ) : PyExc := .connector .internal
    s!"payload length {n} at offset {offset} exceeds buffer {room}"
  let notBytes : PyExc :=
    .builtin (if memory_obj.raw_is_tensor then .ValueError else .TypeError)
  match payload with
  | .blob bytes =>
    if offset + bytes.length > room then .error (tooLong bytes.length)
    else if memory_obj.raw_is_tensor then do
      let src ← frombuffer bytes
      return (memory_obj.copied offset src, bytes.length)
    else .ok (memory_obj.copied offset bytes, bytes.length)
  | .str s =>
    if offset + s.length > room then .error (tooLong s.length) else .error notBytes
  | .collection entries =>
    if offset + entries > room then .error (tooLong entries) else .error notBytes
  | .int _ | .bool _ | .double _ | .geojson => .error (.builtin .TypeError)
