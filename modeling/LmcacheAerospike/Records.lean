/-
# Aerospike records and the client calls made on them

The store maps keys `(namespace, set, user key)` to records; a record is a map from
bin names to values with the TTL its last write asked for.  Every call a client
makes is a list of operations on single records (`Op.items`), each of which the
server performs atomically (`RecOp.perform`); a `batch_write` or `batch_read` has
one for each of its records.

Two accounts of a call are built on the same single-record operations:

* `Op.perform`: no failure, the operations performed in list order at one moment;
* `client`: the itemwise device of `SharedDevice.lean`.  The operations of one call
  are performed in any order, other clients' operations falling between them; any of
  them may fail with a nonzero result code, whether or not its effect was applied,
  and the whole call may raise an exception at any point.

Writes follow `POLICY_EXISTS_IGNORE`: they create the record when it is absent and
otherwise set the named bins and keep all the others.
-/
import Mathlib.Logic.Function.Basic
import Mathlib.Data.List.Basic
import Mathlib.Data.Int.Notation
import Mathlib.Data.Nat.Notation
import LmcacheAerospike.SharedDevice

/-! ## Values, bins and records -/

/-- A Python `str` or a C++ `std::string`, as the list of its characters. -/
abbrev Text := List Char

/-- A Python `bytes`. -/
abbrev Bytes := List UInt8

/-- The bin names the two implementations use; a record may carry others. -/
inductive BinName : Type where
  | ver | state | nseg | seg_b | tot_b | created_at | pin | md | b | crc32
  | other (name : Text)
  deriving DecidableEq, Repr

/-- A bin value.  The last three are of types that neither implementation writes: a double by
its bits, a list or map by its number of entries, GeoJSON. -/
inductive BinVal : Type where
  | int (i : ℤ)
  | str (s : String)
  | blob (bytes : Bytes)
  | bool (v : Bool)
  | double (bits : UInt64)
  | collection (entries : ℕ)
  | geojson
  deriving DecidableEq, Repr

/-- The bins of a record, as the dict that a read returns. -/
abbrev Bins := BinName → Option BinVal

/-- A list of bins to write: a dict of bins, or `[op.write(bin, val), ...]`. -/
abbrev BinWrites := List (BinName × BinVal)

/-- An Aerospike key tuple. -/
structure Key : Type where
  ns : Text
  set_name : Text
  user_key : Text
  deriving DecidableEq, Repr

/-- A stored record.  `user_key` is kept only when a write sent it. -/
structure Record : Type where
  bins : Bins
  ttl : ℤ
  written_at : ℕ
  user_key : Option Text

/-- What the calls act on: the records, the clock that `time.time()` reads, and the
count of `ref_count_down()` calls that the engine has made. -/
structure World : Type where
  records : Key → Option Record
  now : ℕ
  ref_downs : ℕ

namespace World

/-- Replace the record under one key (`none` deletes it). -/
def setRecord (w : World) (k : Key) (r : Option Record) : World :=
  { w with records := Function.update w.records k r }

@[simp] theorem setRecord_self (w : World) (k : Key) (r : Option Record) :
    (w.setRecord k r).records k = r := Function.update_self ..

theorem setRecord_of_ne (w : World) {k k' : Key} (h : k' ≠ k) (r : Option Record) :
    (w.setRecord k r).records k' = w.records k' := Function.update_of_ne h ..

/-- The store with no record in it. -/
def empty : World := ⟨fun _ => none, 0, 0⟩

end World

/-! ## Policies -/

inductive CommitLevel : Type where
  | all | master
  deriving DecidableEq, Repr

inductive KeyPolicy : Type where
  | send | digest
  deriving DecidableEq, Repr

/-- The policy dict of a write. -/
structure WritePolicy : Type where
  total_timeout : ℤ
  socket_timeout : ℤ
  commit_level : CommitLevel
  key : KeyPolicy
  max_retries : ℕ
  deriving DecidableEq, Repr

/-! ## Operations on one record -/

/-- A write to one record: its bins, the TTL it asks for, its policy. -/
structure Write : Type where
  key : Key
  ops : BinWrites
  ttl : ℤ
  policy : WritePolicy

/-- `br.Write` or `br.Remove`, as an element of a `BatchRecords`. -/
inductive BatchOp : Type where
  | write (w : Write)
  | remove (key : Key)

/-- Set the named bins, in order, and keep the others. -/
def mergeBins (ops : BinWrites) (bins : Bins) : Bins :=
  ops.foldl (fun acc kv => Function.update acc kv.1 (some kv.2)) bins

/-- The record that a write at the time `now` leaves. -/
def Write.applyTo (w : Write) (now : ℕ) (old : Option Record) : Record where
  bins := mergeBins w.ops (old.elim (fun _ => none) Record.bins)
  ttl := w.ttl
  written_at := now
  user_key := if w.policy.key = .send then some w.key.user_key
    else old.bind Record.user_key

/-- The store after a write. -/
def World.applyWrite (w : World) (wr : Write) : World :=
  w.setRecord wr.key (some (wr.applyTo w.now (w.records wr.key)))

@[simp] theorem World.applyWrite_self (w : World) (wr : Write) :
    (w.applyWrite wr).records wr.key = some (wr.applyTo w.now (w.records wr.key)) :=
  w.setRecord_self _ _

theorem World.applyWrite_of_ne (w : World) {wr : Write} {key : Key} (h : key ≠ wr.key) :
    (w.applyWrite wr).records key = w.records key :=
  w.setRecord_of_ne h _

@[simp] theorem World.applyWrite_now (w : World) (wr : Write) :
    (w.applyWrite wr).now = w.now := rfl

/-- What the server does atomically for a client; `clock` and `ref_count_down` are the
two calls that do not go to the server. -/
inductive RecOp : Type where
  /-- Read a record, all its bins (`none`) or only the named ones. -/
  | read (key : Key) (bins : Option (List BinName))
  | write (w : Write)
  | touch (key : Key) (ttl : ℤ)
  | remove (key : Key)
  | clock
  | ref_count_down

/-- The result of a single-record operation. -/
inductive RecRes : Type where
  | found (bins : Bins)
  | applied
  /-- Result code 2, `AEROSPIKE_ERR_RECORD_NOT_FOUND`. -/
  | absent
  /-- Any other nonzero result code. -/
  | failed (code : ℤ)
  | clock (t : ℕ)

/-- The bins a read returns when it names them. -/
def selectBins (names : Option (List BinName)) (bins : Bins) : Bins :=
  match names with
  | none => bins
  | some names => fun n => if n ∈ names then bins n else none

/-- Perform one operation. -/
def RecOp.perform : RecOp → World → RecRes × World
  | .read key names, w =>
    match w.records key with
    | none => (.absent, w)
    | some r => (.found (selectBins names r.bins), w)
  | .write wr, w => (.applied, w.applyWrite wr)
  | .touch key ttl, w =>
    match w.records key with
    | none => (.absent, w)
    | some r => (.applied, w.setRecord key (some { r with ttl := ttl, written_at := w.now }))
  | .remove key, w =>
    match w.records key with
    | none => (.absent, w)
    | some _ => (.applied, w.setRecord key none)
  | .clock, w => (.clock w.now, w)
  | .ref_count_down, w => (.applied, { w with ref_downs := w.ref_downs + 1 })

/-! ## The client's exceptions -/

/-- The classes of `aerospike.exception` that the code tells apart. -/
inductive AxKind : Type where
  | RecordNotFound | RecordTooBig | TimeoutError | ConnectionError | ClientError
  | ForbiddenError | DeviceOverload | BatchQueueFullError | RecordBusy
  | RecordKeyMismatch | AerospikeError
  deriving DecidableEq, Repr

/-- An exception of the client: its class, its `code`, the `repr` of its `msg`, and its
`str`; to the C client, a status with the `message` of an `as_error`. -/
structure AxError : Type where
  kind : AxKind
  code : ℤ
  msg : String
  str : String
  message : String
  deriving DecidableEq, Repr

/-- One element of `batch.batch_records` after the call. -/
structure BatchRecord : Type where
  result : ℤ
  record : Option Bins

/-- `AEROSPIKE_ERR_RECORD_NOT_FOUND`. -/
def AEROSPIKE_ERR_RECORD_NOT_FOUND : ℤ := 2

def AxError.recordNotFound : AxError :=
  ⟨.RecordNotFound, AEROSPIKE_ERR_RECORD_NOT_FOUND, "'AEROSPIKE_ERR_RECORD_NOT_FOUND'",
    "(2, 'AEROSPIKE_ERR_RECORD_NOT_FOUND')", "AEROSPIKE_ERR_RECORD_NOT_FOUND"⟩

/-- The exception of a single-record call whose operation failed otherwise. -/
def AxError.unexpected : AxError := ⟨.AerospikeError, -1, "''", "(-1, '')", ""⟩

def RecRes.toBatchRecord : RecRes → BatchRecord
  | .found bins => ⟨0, some bins⟩
  | .applied => ⟨0, none⟩
  | .absent => ⟨AEROSPIKE_ERR_RECORD_NOT_FOUND, none⟩
  | .failed code => ⟨code, none⟩
  | .clock _ => ⟨0, none⟩

/-! ## The calls -/

/-- The calls that the code under verification makes. -/
inductive Op : Type where
  | get (key : Key)
  | select (key : Key) (bins : List BinName)
  | put (w : Write)
  | operate (w : Write)
  | touch (key : Key) (ttl : ℤ)
  | remove (key : Key)
  | batch_read (keys : List Key) (bins : List BinName)
  | batch_write (ops : List BatchOp)
  | time
  | ref_count_down

/-- What each call answers: a client call may raise. -/
@[reducible] def Op.Res : Op → Type
  | .get _ | .select _ _ => Except AxError Bins
  | .put _ | .operate _ | .touch _ _ | .remove _ => Except AxError Unit
  | .batch_read _ _ | .batch_write _ => Except AxError (List BatchRecord)
  | .time => ℕ
  | .ref_count_down => Unit

/-- The operation of a batch element. -/
def BatchOp.toRecOp : BatchOp → RecOp
  | .write w => .write w
  | .remove key => .remove key

/-- The single-record operations of a call. -/
def Op.items : Op → List RecOp
  | .get key => [.read key none]
  | .select key bins => [.read key (some bins)]
  | .put w | .operate w => [.write w]
  | .touch key ttl => [.touch key ttl]
  | .remove key => [.remove key]
  | .batch_read keys bins => keys.map fun k => .read k (some bins)
  | .batch_write ops => ops.map BatchOp.toRecOp
  | .time => [.clock]
  | .ref_count_down => [.ref_count_down]

/-- The answer to a single-record read. -/
def respondRead : List RecRes → Except AxError Bins
  | [.found bins] => .ok bins
  | [.absent] => .error .recordNotFound
  | _ => .error .unexpected

/-- The answer to a single-record write. -/
def respondWrite : List RecRes → Except AxError Unit
  | [.applied] => .ok ()
  | [.absent] => .error .recordNotFound
  | _ => .error .unexpected

/-- The answer to a call all of whose operations have their results. -/
def Op.respond : (o : Op) → List RecRes → o.Res
  | .get _, rs | .select _ _, rs => respondRead rs
  | .put _, rs | .operate _, rs | .touch _ _, rs | .remove _, rs => respondWrite rs
  | .batch_read _ _, rs | .batch_write _, rs => .ok (rs.map RecRes.toBatchRecord)
  | .time, [.clock t] => t
  | .time, _ => 0
  | .ref_count_down, _ => ()

/-- The answers by which a call raises. -/
def Op.Raises : (o : Op) → o.Res → Prop
  | .get _, x | .select _ _, x => ∃ e, x = .error e
  | .put _, x | .operate _, x | .touch _ _, x | .remove _, x => ∃ e, x = .error e
  | .batch_read _ _, x | .batch_write _, x => ∃ e, x = .error e
  | .time, _ | .ref_count_down, _ => False

/-! ## Without failures -/

/-- Perform operations in list order. -/
def performAll : List RecOp → World → List RecRes × World
  | [], w => ([], w)
  | o :: os, w =>
    ((o.perform w).1 :: (performAll os (o.perform w).2).1, (performAll os (o.perform w).2).2)

/-- **A call without failures**, at one moment, its operations in list order. -/
def Op.perform (o : Op) (w : World) : o.Res × World :=
  (o.respond (performAll o.items w).1, (performAll o.items w).2)

/-! ## With failures and interleaving -/

/-- What may come of one operation: it is performed, or it fails with a nonzero code, its
effect applied or not. -/
def Faulty (op : RecOp) (w : World) (r : RecRes) (w' : World) : Prop :=
  (r, w') = op.perform w ∨
    (∃ code, code ≠ 0 ∧ r = .failed code) ∧ (w' = w ∨ w' = (op.perform w).2)

/-- The client whose single-record operations behave as `Does` says. -/
abbrev serve (Does : RecOp → World → RecRes → World → Prop) : Device Op Op.Res World :=
  Device.itemwise Op.items Op.respond Op.Raises Does

/-- **The client.** -/
abbrev client : Device Op Op.Res World := serve Faulty

/-- What happens to the store apart from the clients: a record expires, time passes. -/
inductive Expiry : World → World → Prop
  | expire (w : World) (k : Key) : Expiry w (w.setRecord k none)
  | tick (w : World) (t : ℕ) : w.now ≤ t → Expiry w { w with now := t }

/-! ## The call without failures is one of the client's outcomes -/

theorem doesAll_performAll (ops : List RecOp) (w : World) :
    Device.DoesAll Faulty ops w (performAll ops w).1 (performAll ops w).2 := by
  induction ops generalizing w with
  | nil => exact Device.DoesAll.nil w
  | cons op ops ih => exact Device.DoesAll.cons (Or.inl rfl) (ih _)

theorem perform_outcome (o : Op) (w : World) :
    client.Outcome o w (o.perform w).1 (o.perform w).2 :=
  Device.itemwise_outcome (doesAll_performAll o.items w)

/-- **A run without failures is one of the client's executions.** -/
theorem exec_run_perform {E α : Type} (p : Prog Op Op.Res E α) (w : World) :
    client.Exec p w (p.run Op.perform w).1 (p.run Op.perform w).2 :=
  Device.exec_run client perform_outcome p w
