/-
# Calls without failures

What each client call answers and leaves when nothing fails and nobody else writes:
the simp set by which runs of whole functions are computed.
-/
import LmcacheAerospike.Engine

namespace World

/-- The answer of a `batch_read` for one key. -/
def readRecord (w : World) (names : List BinName) (key : Key) : BatchRecord :=
  match w.records key with
  | none => ⟨AEROSPIKE_ERR_RECORD_NOT_FOUND, none⟩
  | some r => ⟨AEROSPIKE_OK, some (selectBins (some names) r.bins)⟩

/-- A `batch_read` of a record that is there answers with the bins that were asked for. -/
theorem readRecord_found {w : World} {key : Key} {r : Record} (h : w.records key = some r)
    (names : List BinName) :
    w.readRecord names key = ⟨AEROSPIKE_OK, some (selectBins (some names) r.bins)⟩ := by
  rw [readRecord, h]

/-- A record is found exactly when it is there. -/
theorem readRecord_result (w : World) (names : List BinName) (key : Key) :
    (w.readRecord names key).result = AEROSPIKE_OK ↔ (w.records key).isSome := by
  rw [readRecord]
  cases w.records key with
  | none => simp [AEROSPIKE_ERR_RECORD_NOT_FOUND, AEROSPIKE_OK]
  | some r => simp

/-- The record under one key removed. -/
def removeRecord (w : World) (key : Key) : World := w.setRecord key none

end World

/-! ## Single-record calls -/

section Single

variable {w : World} {key : Key}

attribute [local simp] Op.perform Op.items performAll RecOp.perform Op.respond respondRead
  respondWrite

/-- `get` answers with all bins of the record. -/
theorem perform_get_found {r : Record} (h : w.records key = some r) :
    (Op.get key).perform w = (.ok r.bins, w) := by
  simp [selectBins, h]

/-- `get` raises when there is no record. -/
theorem perform_get_absent (h : w.records key = none) :
    (Op.get key).perform w = (.error .recordNotFound, w) := by
  simp [h]

/-- `select` answers with the bins that were asked for. -/
theorem perform_select_found {r : Record} (h : w.records key = some r)
    (names : List BinName) :
    (Op.select key names).perform w = (.ok (selectBins (some names) r.bins), w) := by
  simp [h]

/-- `select` raises when there is no record. -/
theorem perform_select_absent (h : w.records key = none) (names : List BinName) :
    (Op.select key names).perform w = (.error .recordNotFound, w) := by
  simp [h]

/-- `touch` gives the record a new TTL, counted from now. -/
theorem perform_touch_found {r : Record} (h : w.records key = some r) (ttl : ℤ) :
    (Op.touch key ttl).perform w
      = (.ok (), w.setRecord key (some { r with ttl := ttl, written_at := w.now })) := by
  simp [h]

/-- `touch` raises when there is no record. -/
theorem perform_touch_absent (h : w.records key = none) (ttl : ℤ) :
    (Op.touch key ttl).perform w = (.error .recordNotFound, w) := by
  simp [h]

/-- `remove` takes the record away. -/
theorem perform_remove_found {r : Record} (h : w.records key = some r) :
    (Op.remove key).perform w = (.ok (), w.removeRecord key) := by
  simp [World.removeRecord, h]

@[simp] theorem perform_time (w : World) : Op.time.perform w = (w.now, w) := rfl

end Single

/-! ## Batches -/

/-- One element of a `batch_read`: its answer is `World.readRecord`, and the store stays as it is.
-/
theorem read_perform (w : World) (key : Key) (names : List BinName) :
    ((RecOp.read key (some names)).perform w).1.toBatchRecord = w.readRecord names key ∧
      ((RecOp.read key (some names)).perform w).2 = w := by
  simp only [RecOp.perform, World.readRecord]
  cases w.records key with
  | none => exact ⟨rfl, rfl⟩
  | some r => exact ⟨rfl, rfl⟩

/-- The elements of a `batch_read`, one after the other. -/
theorem performAll_reads (keys : List Key) (names : List BinName) (w : World) :
    (performAll (keys.map fun key => .read key (some names)) w).1.map RecRes.toBatchRecord
        = keys.map (w.readRecord names) ∧
      (performAll (keys.map fun key => .read key (some names)) w).2 = w := by
  induction keys with
  | nil => exact ⟨rfl, rfl⟩
  | cons key keys ih =>
    obtain ⟨hres, hw⟩ := read_perform w key names
    simp only [List.map_cons, performAll]
    rw [hw, hres, ih.1]
    exact ⟨rfl, ih.2⟩

/-- A `batch_read` answers in key order. -/
@[simp] theorem perform_batch_read (keys : List Key) (names : List BinName) (w : World) :
    (Op.batch_read keys names).perform w = (.ok (keys.map (w.readRecord names)), w) := by
  obtain ⟨hres, hw⟩ := performAll_reads keys names w
  rw [← hres]
  exact Prod.ext rfl hw

/-- The elements of a `batch_write`, one after the other: each write is applied. -/
theorem performAll_writes (ops : List Write) (w : World) :
    performAll (ops.map .write) w = (ops.map fun _ => .applied, ops.foldl World.applyWrite w) := by
  induction ops generalizing w with
  | nil => rfl
  | cons wr ops ih =>
    simp only [List.map_cons, performAll, RecOp.perform, List.foldl_cons]
    rw [ih]

/-- A `batch_write` of writes applies them in list order. -/
@[simp] theorem perform_batch_write (ops : List Write) (w : World) :
    (Op.batch_write (ops.map .write)).perform w
      = (.ok (ops.map fun _ => ⟨AEROSPIKE_OK, none⟩), ops.foldl World.applyWrite w) := by
  have hitems : Op.items (.batch_write (ops.map .write)) = ops.map RecOp.write := by
    simp only [Op.items, List.map_map]
    rfl
  simp only [Op.perform, hitems, performAll_writes, Op.respond, List.map_map]
  rfl

/-- The elements of a `batch_write` that removes: whether or not a record was there, it is gone. -/
theorem performAll_removes (keys : List Key) (w : World) :
    (performAll (keys.map .remove) w).2 = keys.foldl World.removeRecord w := by
  induction keys generalizing w with
  | nil => rfl
  | cons key keys ih =>
    simp only [List.map_cons, performAll, List.foldl_cons]
    rw [ih]
    congr 1
    simp only [RecOp.perform]
    cases hrec : w.records key with
    | none =>
      -- removing a record that is not there changes nothing
      show w = w.removeRecord key
      rw [World.removeRecord, World.setRecord, ← hrec, Function.update_eq_self]
    | some r => rfl

/-- A `batch_write` of removals takes all the records away. -/
theorem perform_batch_remove (keys : List Key) (w : World) :
    ((Op.batch_write (keys.map .remove)).perform w).2 = keys.foldl World.removeRecord w := by
  have hitems : Op.items (.batch_write (keys.map .remove)) = keys.map RecOp.remove := by
    simp only [Op.items, List.map_map]
    rfl
  show (performAll (Op.items _) w).2 = _
  rw [hitems, performAll_removes]

/-! ### What a list of writes leaves -/

/-- Writes to other keys leave a record as it is. -/
theorem foldl_applyWrite_of_notMem (ops : List Write) (w : World) {key : Key}
    (h : key ∉ ops.map Write.key) :
    (ops.foldl World.applyWrite w).records key = w.records key := by
  induction ops generalizing w with
  | nil => rfl
  | cons wr ops ih =>
    rw [List.map_cons, List.mem_cons, not_or] at h
    rw [List.foldl_cons, ih _ h.2]
    exact w.applyWrite_of_ne h.1

/-- Writes to different keys: each is applied to the record that was there before. -/
theorem foldl_applyWrite_of_mem (ops : List Write) (w : World)
    (hnodup : (ops.map Write.key).Nodup) {wr : Write} (hwr : wr ∈ ops) :
    (ops.foldl World.applyWrite w).records wr.key
      = some (wr.applyTo w.now (w.records wr.key)) := by
  induction ops generalizing w with
  | nil => cases hwr
  | cons wr' ops ih =>
    rw [List.map_cons, List.nodup_cons] at hnodup
    rw [List.foldl_cons]
    rcases List.mem_cons.mp hwr with rfl | hmem
    · rw [foldl_applyWrite_of_notMem _ _ hnodup.1]
      exact w.applyWrite_self wr
    · have hne : wr.key ≠ wr'.key := fun heq =>
        hnodup.1 (heq ▸ List.mem_map_of_mem hmem)
      rw [ih _ hnodup.2 hmem, World.applyWrite_now, w.applyWrite_of_ne hne]

/-! ### What a list of removals leaves -/

/-- A removal leaves the records under other keys as they are. -/
theorem removeRecord_of_ne (w : World) {key key' : Key} (h : key' ≠ key) :
    (w.removeRecord key).records key' = w.records key' :=
  w.setRecord_of_ne h none

/-- Removals of other keys leave a record as it is. -/
theorem foldl_removeRecord_of_notMem (keys : List Key) (w : World) {key : Key}
    (h : key ∉ keys) : (keys.foldl World.removeRecord w).records key = w.records key := by
  induction keys generalizing w with
  | nil => rfl
  | cons key' keys ih =>
    rw [List.mem_cons, not_or] at h
    rw [List.foldl_cons, ih _ h.2, removeRecord_of_ne w h.1]

/-- A record whose key is among those removed is gone. -/
theorem foldl_removeRecord_of_mem (keys : List Key) (w : World) {key : Key} (h : key ∈ keys) :
    (keys.foldl World.removeRecord w).records key = none := by
  induction keys generalizing w with
  | nil => cases h
  | cons key' keys ih =>
    rw [List.foldl_cons]
    by_cases hmem : key ∈ keys
    · exact ih _ hmem
    · obtain rfl : key = key' := (List.mem_cons.mp h).resolve_right hmem
      rw [foldl_removeRecord_of_notMem keys _ hmem]
      exact w.setRecord_self key none
