/-
# Native operations without failures

What the native functions return and leave when nothing fails and nobody else writes.
-/
import LmcacheAerospike.SharedFormat

section NativeRuns

variable {conn : NativeConnector} {ck key : Text} {p : Bytes} {w : World}

/-! ## Writes -/

theorem run_put_payload_record (user_key : Text) (buf : Bytes) (len : ℕ) (w : World) :
    (conn.put_payload_record user_key buf len).run Op.perform w
      = (.ok (), w.applyWrite (conn.payload_write user_key buf len)) := rfl

theorem run_put_meta_record (user_key : Text) (pl : ShardPlan) (total : ℕ)
    (inline_buf : Option Bytes) (w : World) :
    (conn.put_meta_record user_key pl total inline_buf).run Op.perform w
      = (.ok (), w.applyWrite (conn.native_meta_write user_key pl total inline_buf w.now)) := rfl

/-- The loop performs its segment writes in order. -/
theorem run_set_segments (pl : ShardPlan) (i n : ℕ) (w : World) :
    (conn.set_segments ck pl p p.length i n).run Op.perform w
      = (.ok (), ((List.range' i n).map (conn.native_segment_write ck pl p)).foldl
          World.applyWrite w) := by
  induction n generalizing i w with
  | zero => rfl
  | succ n ih =>
    unfold NativeConnector.set_segments
    rw [Prog.bind_eq, Prog.run_bind, run_put_payload_record, Prog.andThen_ok, ih]
    rfl

/-- The store after a write of `p` under the plan `pl`. -/
def NativeConnector.afterSet (conn : NativeConnector) (ck : Text) (pl : ShardPlan) (p : Bytes)
    (w : World) : World :=
  let segments := if pl.nseg = 1 then []
    else (List.range' 0 pl.nseg).map (conn.native_segment_write ck pl p)
  (segments.foldl World.applyWrite w).applyWrite (conn.native_meta_write (meta_user_key ck) pl
    p.length (if pl.nseg = 1 then some p else none) (segments.foldl World.applyWrite w).now)

/-- **A write whose payload has a plan completes.** -/
theorem run_do_single_set (hkey : native_key_to_cache_engine_key key conn.dtype = .ok ck)
    {pl : ShardPlan} (hplan : conn.limits.plan p.length = .ok pl) (w : World) :
    (conn.do_single_set key p).run Op.perform w = (.ok (), conn.afterSet ck pl p w) := by
  rw [do_single_set_planned hkey hplan]
  unfold NativeConnector.afterSet
  by_cases hn : pl.nseg = 1
  · rw [if_pos hn, if_pos hn, if_pos hn, run_put_meta_record]
    rfl
  · rw [if_neg hn, if_neg hn, if_neg hn, Prog.run_bind, run_set_segments, Prog.andThen_ok,
      run_put_meta_record]

/-- What such a write has stored. -/
theorem afterSet_storedBy {ns set_name : Text} (haddr : conn.Addresses ns set_name ck)
    (hp : p.length < 2 ^ 32) {pl : ShardPlan} (hplan : conn.limits.plan p.length = .ok pl)
    (w : World) :
    ∃ bins, (conn.afterSet ck pl p w).StoredBy ns set_name ck p pl bins ∧
      bins .crc32 = oldBins (w.records (meta_key ns set_name ck)) .crc32 ∧
      bins .md = oldBins (w.records (meta_key ns set_name ck)) .md := by
  have hcov := native_plan_covers hp hplan
  unfold NativeConnector.afterSet
  by_cases hn : pl.nseg = 1
  · rw [if_pos hn, if_pos hn]
    exact storedBy_of_meta_write haddr hp hcov _ (fun _ => rfl) fun hne => absurd hn hne
  · rw [if_neg hn, if_neg hn]
    obtain ⟨hold, hsegments⟩ := native_segments_written haddr hcov hp hn (Nat.le_refl pl.nseg)
      (w := w) rfl
    obtain ⟨bins, hstored, hbins⟩ := storedBy_of_meta_write haddr hp hcov _
      (fun hone => absurd hone hn) fun _ => hsegments
    rw [hold _ (meta_key_notMem _ _ _ _ _ _ _)] at hbins
    exact ⟨bins, hstored, hbins⟩

/-! ## Presence and removal -/

/-- **A presence check** looks for the meta record. -/
theorem run_do_single_exists (hkey : native_key_to_cache_engine_key key conn.dtype = .ok ck)
    (w : World) :
    (conn.do_single_exists key).run Op.perform w
      = (.ok (w.records (conn.as_key (meta_user_key ck))).isSome, w) := by
  unfold NativeConnector.do_single_exists
  rw [hkey]
  show Prog.run _ (.call (Op.select _ _) _) w = _
  rw [Prog.run_call]
  cases hrec : w.records (conn.as_key (meta_user_key ck)) with
  | none =>
    rw [perform_select_absent hrec]
    rfl
  | some r =>
    rw [perform_select_found hrec]
    rfl

/-- A removal that is ignored removes the record, if there is one. -/
theorem perform_remove_snd (key : Key) (w : World) :
    ((Op.remove key).perform w).2 = w.removeRecord key := by
  have hremoved := perform_batch_remove [key] w
  exact hremoved

theorem run_delete_segments (i n : ℕ) (w : World) :
    (conn.delete_segments ck i n).run Op.perform w
      = (.ok (), ((List.range' i n).map fun j => conn.as_key (segment_user_key ck j)).foldl
          World.removeRecord w) := by
  induction n generalizing i w with
  | zero => rfl
  | succ n ih =>
    unfold NativeConnector.delete_segments
    show Prog.run _ (.call (Op.remove _) _) w = _
    rw [Prog.run_call, perform_remove_snd]
    exact ih (i + 1) _

/-- **A removal** of a key that is there takes its meta record and as many segments as that
names. -/
theorem run_do_single_delete (hkey : native_key_to_cache_engine_key key conn.dtype = .ok ck)
    (w : World) :
    (conn.do_single_delete key).run Op.perform w
      = match w.records (conn.as_key (meta_user_key ck)) with
        | none => (.ok false, w)
        | some r => (.ok true, ((List.range (meta_nseg r.bins)).map fun j =>
            conn.as_key (segment_user_key ck j)).foldl World.removeRecord
              (w.removeRecord (conn.as_key (meta_user_key ck)))) := by
  unfold NativeConnector.do_single_delete
  rw [hkey]
  show Prog.run _ (.call (Op.get _) _) w = _
  rw [Prog.run_call]
  cases hrec : w.records (conn.as_key (meta_user_key ck)) with
  | none =>
    rw [perform_get_absent hrec]
    rfl
  | some r =>
    rw [perform_get_found hrec]
    show Prog.run _ (conn.delete_records ck (meta_nseg r.bins)) w = _
    unfold NativeConnector.delete_records
    show Prog.run _ (.call (Op.remove _) _) w = _
    rw [Prog.run_call, perform_remove_found hrec]
    show Prog.run _ (Prog.bind (conn.delete_segments ck 0 (meta_nseg r.bins)) _) _ = _
    rw [Prog.run_bind, run_delete_segments, Prog.andThen_ok, ← List.range_eq_range']
    rfl

end NativeRuns
