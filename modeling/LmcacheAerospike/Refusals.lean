/-
# A client that refuses some operations

What becomes of a batch when single operations fail: `Refusals` says for each key whether the
server refuses to read it, and for each write whether it refuses the write.  A refused
operation changes nothing; a single-record call then raises, and a batch carries a nonzero
result code.  It is one of the ways in which the client may behave (`exec_run_refusing`), and
what it answers for a record depends on nothing but that record.
-/
import LmcacheAerospike.FaultFree

/-- What a refused operation comes to: the exception of a single-record call, and the result
code in a batch. -/
structure Refusal : Type where
  exc : AxError
  code : ℤ
  code_ne : code ≠ AEROSPIKE_OK

/-- The operations that the server refuses. -/
structure Refusals : Type where
  read : Key → Option Refusal
  write : Write → Option Refusal

namespace Refusals

/-- Nothing is refused. -/
def nothing : Refusals := ⟨fun _ => none, fun _ => none⟩

variable (R : Refusals)

/-- The refusal of an operation, if it is refused. -/
def of : RecOp → Option Refusal
  | .read key _ => R.read key
  | .write w => R.write w
  | _ => none

/-- One operation. -/
def perform (op : RecOp) (w : World) : RecRes × World :=
  match R.of op with
  | some r => (.failed r.code, w)
  | none => op.perform w

/-- Operations in list order. -/
def performAll : List RecOp → World → List RecRes × World
  | [], w => ([], w)
  | op :: ops, w =>
    ((R.perform op w).1 :: (performAll ops (R.perform op w).2).1,
      (performAll ops (R.perform op w).2).2)

/-- The answer to a single-record call that is refused. -/
def raised : (o : Op) → Option o.Res
  | .get key => (R.read key).map fun r => .error r.exc
  | .select key _ => (R.read key).map fun r => .error r.exc
  | .put w => (R.write w).map fun r => .error r.exc
  | .operate w => (R.write w).map fun r => .error r.exc
  | _ => none

/-- **A call, its refused operations left out.** -/
def call (o : Op) (w : World) : o.Res × World :=
  match R.raised o with
  | some x => (x, w)
  | none => (o.respond (R.performAll o.items w).1, (R.performAll o.items w).2)

/-- The answer of a `batch_read` for one key. -/
def readRecord (w : World) (names : List BinName) (key : Key) : BatchRecord :=
  match R.read key with
  | some r => ⟨r.code, none⟩
  | none => w.readRecord names key

/-- The record of a `batch_write` for one write. -/
def writeRecord (wr : Write) : BatchRecord :=
  match R.write wr with
  | some r => ⟨r.code, none⟩
  | none => ⟨AEROSPIKE_OK, none⟩

/-- The store after a write, if it is not refused. -/
def applyWrite (w : World) (wr : Write) : World :=
  match R.write wr with
  | some _ => w
  | none => w.applyWrite wr

end Refusals

section Calls

variable {R : Refusals} {w : World} {key : Key}

/-! ## It is one of the client's behaviours -/

/-- A refused operation is one that fails; any other is done. -/
theorem faulty_refusing (op : RecOp) (w : World) :
    Faulty op w (R.perform op w).1 (R.perform op w).2 := by
  unfold Refusals.perform
  cases R.of op with
  | some r => exact Or.inr ⟨⟨r.code, r.code_ne, rfl⟩, Or.inl rfl⟩
  | none => exact Or.inl rfl

/-- The operations of a call, one after the other. -/
theorem doesAll_refusing (ops : List RecOp) (w : World) :
    Device.DoesAll Faulty ops w (R.performAll ops w).1 (R.performAll ops w).2 := by
  induction ops generalizing w with
  | nil => exact Device.DoesAll.nil w
  | cons op ops ih => exact Device.DoesAll.cons (faulty_refusing op w) (ih _)

/-- A call raises what its operation is refused with. -/
theorem raises_of_raised {o : Op} {x : o.Res} (h : R.raised o = some x) : o.Raises x := by
  cases o with
  | get key =>
    obtain ⟨r, -, rfl⟩ := Option.map_eq_some_iff.mp h
    exact ⟨r.exc, rfl⟩
  | select key bins =>
    obtain ⟨r, -, rfl⟩ := Option.map_eq_some_iff.mp h
    exact ⟨r.exc, rfl⟩
  | put w =>
    obtain ⟨r, -, rfl⟩ := Option.map_eq_some_iff.mp h
    exact ⟨r.exc, rfl⟩
  | operate w =>
    obtain ⟨r, -, rfl⟩ := Option.map_eq_some_iff.mp h
    exact ⟨r.exc, rfl⟩
  | touch key ttl => cases h
  | remove key => cases h
  | batch_read keys bins => cases h
  | batch_write ops => cases h
  | time => cases h
  | ref_count_down => cases h

/-- Every answer under refusals is one that a client may get. -/
theorem refusing_outcome (o : Op) (w : World) :
    client.Outcome o w (R.call o w).1 (R.call o w).2 := by
  unfold Refusals.call
  cases hraised : R.raised o with
  | some x =>
    exact ⟨_, Relation.ReflTransGen.refl, Or.inr (raises_of_raised hraised)⟩
  | none => exact Device.itemwise_outcome (doesAll_refusing o.items w)

/-- **A run in which operations are refused is one of the client's executions.** -/
theorem exec_run_refusing {α : Type} (p : EngineM α) (w : World) :
    client.Exec p w (p.run R.call w).1 (p.run R.call w).2 :=
  Device.exec_run client refusing_outcome p w

/-! ## Single-record calls -/

/-- A `get` that is refused raises. -/
theorem call_get_refused {r : Refusal} (h : R.read key = some r) :
    R.call (.get key) w = (.error r.exc, w) := by
  simp only [Refusals.call, Refusals.raised, h, Option.map_some]

/-- A `get` that is not refused answers as ever. -/
theorem call_get_accepted (h : R.read key = none) :
    R.call (.get key) w = (Op.get key).perform w := by
  simp only [Refusals.call, Refusals.raised, h, Option.map_none, Op.perform, Op.items,
    Refusals.performAll, performAll, Refusals.perform, Refusals.of]

/-- A `put` that is refused raises, and writes nothing. -/
theorem call_put_refused {wr : Write} {r : Refusal} (h : R.write wr = some r) :
    R.call (.put wr) w = (.error r.exc, w) := by
  simp only [Refusals.call, Refusals.raised, h, Option.map_some]

/-- A `put` that is not refused writes its record. -/
theorem call_put_accepted {wr : Write} (h : R.write wr = none) :
    R.call (.put wr) w = (.ok (), w.applyWrite wr) := by
  simp only [Refusals.call, Refusals.raised, h, Option.map_none, Op.respond, Op.items,
    Refusals.performAll, Refusals.perform, Refusals.of, RecOp.perform, respondWrite]

@[simp] theorem call_time : R.call .time w = (w.now, w) := rfl

/-! ## Batches -/

theorem readRecord_refusing (names : List BinName) (key : Key) :
    (R.perform (.read key (some names)) w).1.toBatchRecord = R.readRecord w names key ∧
      (R.perform (.read key (some names)) w).2 = w := by
  unfold Refusals.perform Refusals.readRecord
  show _ ∧ Prod.snd (match R.read key with | some r => _ | none => _) = w
  cases hr : R.read key with
  | some r => simp only [Refusals.of, hr, RecRes.toBatchRecord, and_self]
  | none =>
    simp only [Refusals.of, hr]
    exact read_perform w key names

theorem performAll_reads_refusing (keys : List Key) (names : List BinName) :
    (R.performAll (keys.map fun key => .read key (some names)) w).1.map RecRes.toBatchRecord
        = keys.map (R.readRecord w names) ∧
      (R.performAll (keys.map fun key => .read key (some names)) w).2 = w := by
  induction keys with
  | nil => exact ⟨rfl, rfl⟩
  | cons key keys ih =>
    obtain ⟨hres, hw⟩ := readRecord_refusing names key
    simp only [List.map_cons, Refusals.performAll]
    rw [hw, hres, ih.1]
    exact ⟨rfl, ih.2⟩

/-- A `batch_read` answers in key order. -/
@[simp] theorem call_batch_read (keys : List Key) (names : List BinName) :
    R.call (.batch_read keys names) w = (.ok (keys.map (R.readRecord w names)), w) := by
  obtain ⟨hres, hw⟩ := performAll_reads_refusing keys names
  rw [← hres]
  exact Prod.ext rfl hw

theorem performAll_writes_refusing (ops : List Write) (w : World) :
    (R.performAll (ops.map .write) w).1.map RecRes.toBatchRecord = ops.map R.writeRecord ∧
      (R.performAll (ops.map .write) w).2 = ops.foldl R.applyWrite w := by
  induction ops generalizing w with
  | nil => exact ⟨rfl, rfl⟩
  | cons wr ops ih =>
    simp only [List.map_cons, Refusals.performAll, List.foldl_cons]
    have hone : (R.perform (.write wr) w).1.toBatchRecord = R.writeRecord wr ∧
        (R.perform (.write wr) w).2 = R.applyWrite w wr := by
      unfold Refusals.perform Refusals.writeRecord Refusals.applyWrite
      cases hr : R.write wr with
      | some r => simp only [Refusals.of, hr, RecRes.toBatchRecord, and_self]
      | none =>
        simp only [Refusals.of, hr, RecOp.perform, RecRes.toBatchRecord]
        exact ⟨rfl, trivial⟩
    rw [hone.1, hone.2, (ih _).1]
    exact ⟨rfl, (ih _).2⟩

/-- A `batch_write` of writes answers in list order. -/
theorem call_batch_write (ops : List Write) (w : World) :
    R.call (.batch_write (ops.map .write)) w
      = (.ok (ops.map R.writeRecord), ops.foldl R.applyWrite w) := by
  have hitems : Op.items (.batch_write (ops.map .write)) = ops.map RecOp.write := by
    simp only [Op.items, List.map_map]
    rfl
  obtain ⟨hres, hw⟩ := performAll_writes_refusing (R := R) ops w
  unfold Refusals.call
  simp only [Refusals.raised, hitems, Op.respond, hres, hw]

/-- A write succeeds exactly when it is not refused. -/
theorem writeRecord_result (wr : Write) :
    (R.writeRecord wr).result = AEROSPIKE_OK ↔ R.write wr = none := by
  unfold Refusals.writeRecord
  cases R.write wr with
  | some r => simp [r.code_ne]
  | none => simp

end Calls
