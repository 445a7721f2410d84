/-
# What a completed put has written

A `put` that returns has had every one of its single-record writes performed, although
the segments may have been written in any order (`exec_put_ok`).  The records that
these writes leave are named by `Write.Done`: the write was applied to the record that
was under the key before the call.
-/
import LmcacheAerospike.EngineWrites

/-! ## Calls that write -/

/-- The write was applied to the record that `w` had under its key. -/
def Write.Done (wr : Write) (w w' : World) : Prop :=
  w'.records wr.key = some (wr.applyTo w.now (w.records wr.key))

theorem faulty_now {op : RecOp} {w w' : World} {r : RecRes} (h : Faulty op w r w') :
    w'.now = w.now := by
  have hperform : (op.perform w).2.now = w.now := by
    cases op with
    | read key names =>
      simp only [RecOp.perform]
      split <;> rfl
    | write wr => rfl
    | touch key ttl =>
      simp only [RecOp.perform]
      cases w.records key <;> rfl
    | remove key =>
      simp only [RecOp.perform]
      cases w.records key <;> rfl
    | clock => rfl
    | ref_count_down => rfl
  rcases h with hp | ⟨-, rfl | rfl⟩
  · rw [show w' = (op.perform w).2 from congrArg Prod.snd hp]
    exact hperform
  · rfl
  · exact hperform

/-- A write that reports success has been applied, and to nothing else. -/
theorem faulty_write_applied {wr : Write} {w w' : World} {r : RecRes}
    (h : Faulty (.write wr) w r w') (hr : r.toBatchRecord.result = AEROSPIKE_OK) :
    w' = w.applyWrite wr := by
  rcases h with hp | ⟨⟨code, hne, rfl⟩, -⟩
  · exact congrArg Prod.snd hp
  · exact absurd hr hne

/-- A write touches no other record, whatever it reports. -/
theorem faulty_write_frame {wr : Write} {w w' : World} {r : RecRes}
    (h : Faulty (.write wr) w r w') {key : Key} (hk : key ≠ wr.key) :
    w'.records key = w.records key := by
  rcases h with hp | ⟨-, rfl | rfl⟩
  · rw [show w' = _ from congrArg Prod.snd hp]
    exact World.applyWrite_of_ne w hk
  · rfl
  · exact World.applyWrite_of_ne w hk

/-- A call of one operation that has not been answered yet, or has been. -/
theorem micros_single {o : Op} {i : RecOp} (ho : o.items = [i]) {w w' : World}
    {s : client.Sess o} (h : client.Micros o (client.start o, w) (s, w')) :
    w' = w ∨ ∃ r, Faulty i w r w' := by
  have hstart : client.Micros o ((Op.items o).map fun _ => none, w) (s, w') := h
  rcases Device.itemwise_micros_single ho hstart with heq | ⟨r, -, hd⟩
  · exact Or.inl (congrArg Prod.snd heq)
  · exact Or.inr ⟨r, hd⟩

theorem outcome_single {o : Op} {i : RecOp} (ho : o.items = [i]) {w w' : World} {x : o.Res}
    (h : client.Outcome o w x w') : (∃ r, Faulty i w r w' ∧ x = o.respond [r]) ∨ o.Raises x :=
  Device.itemwise_single ho h

/-- **A single write that succeeds.** -/
theorem outcome_put_ok {wr : Write} {w w' : World}
    (h : client.Outcome (.put wr) w (.ok ()) w') :
    w' = w.applyWrite wr := by
  rcases outcome_single rfl h with ⟨r, hd, hx⟩ | ⟨e, he⟩
  · cases r with
    | applied => exact faulty_write_applied hd rfl
    | found bins => cases hx
    | absent => cases hx
    | failed code => cases hx
    | clock t => cases hx
  · cases he

theorem outcome_time {w w' : World} {now : ℕ} (h : client.Outcome .time w now w') :
    w' = w := by
  rcases outcome_single rfl h with ⟨r, hd, -⟩ | hr
  · rcases hd with hp | ⟨-, rfl | rfl⟩
    · exact congrArg Prod.snd hp
    · rfl
    · rfl
  · exact hr.elim

/-- Two writes of a batch to different keys. -/
theorem write_key_ne {ops : List Write} (hnodup : (ops.map Write.key).Nodup) {m n : ℕ}
    {wr wr' : Write} (hm : ops[m]? = some wr) (hn : ops[n]? = some wr') (hne : n ≠ m) :
    wr'.key ≠ wr.key := by
  intro heq
  have hm' : (ops.map Write.key)[m]? = some wr.key := by
    rw [List.getElem?_map, hm]
    rfl
  have hn' : (ops.map Write.key)[n]? = some wr.key := by
    rw [List.getElem?_map, hn, ← heq]
    rfl
  have hlt : n < (ops.map Write.key).length := by
    by_contra hge
    rw [List.getElem?_eq_none (by omega)] at hn'
    cases hn'
  apply hne
  exact (List.getElem?_inj hlt hnodup).mp (hn'.trans hm'.symm)

/-- **A session of writes to different keys**: a write whose result is in has been
applied, one that is still out has not, and no other record has changed. -/
theorem micros_writes {ops : List Write} (hnodup : (ops.map Write.key).Nodup) {w : World}
    {b : List (Option RecRes) × World}
    (h : client.Micros (.batch_write (ops.map .write))
      (client.start (.batch_write (ops.map .write)), w) b) :
    b.1.length = ops.length ∧ b.2.now = w.now ∧
      (∀ key, key ∉ ops.map Write.key → b.2.records key = w.records key) ∧
      ∀ (n : ℕ) (wr : Write), ops[n]? = some wr →
        (b.1[n]? = some none → b.2.records wr.key = w.records wr.key) ∧
        ∀ r, b.1[n]? = some (some r) → r.toBatchRecord.result = AEROSPIKE_OK →
          wr.Done w b.2 := by
  have hitems : Op.items (.batch_write (ops.map .write)) = ops.map RecOp.write := by
    simp only [Op.items, List.map_map]
    rfl
  have hstart : client.start (.batch_write (ops.map .write)) = ops.map fun _ => none := by
    show (Op.items _).map _ = _
    rw [hitems, List.map_map]
    rfl
  induction h with
  | refl =>
    refine ⟨by rw [hstart, List.length_map], rfl, fun _ _ => rfl,
      fun n wr _ => ⟨fun _ => rfl, fun r hr => ?_⟩⟩
    rw [hstart, List.getElem?_map] at hr
    cases hn : ops[n]? <;> rw [hn] at hr <;> cases hr
  | @tail b c _ hstep ih =>
    obtain ⟨hlen, hnow, hframe, hops⟩ := ih
    obtain ⟨m, i, r, hi, hm, hs, hd⟩ := hstep
    rw [hitems, List.getElem?_map] at hi
    obtain ⟨wr, hwr, rfl⟩ := Option.map_eq_some_iff.mp hi
    refine ⟨by rw [hs, List.length_set, hlen], (faulty_now hd).trans hnow,
      fun key hkey => ?_, fun n wr' hn => ?_⟩
    · have hne : key ≠ wr.key := by
        rintro rfl
        exact hkey (List.mem_map_of_mem (List.mem_of_getElem? hwr))
      rw [faulty_write_frame hd hne]
      exact hframe key hkey
    · rw [hs]
      by_cases hnm : n = m
      · -- the write that the step performs
        subst hnm
        rw [hwr] at hn
        cases hn
        have hlt : n < b.1.length := by
          by_contra hge
          rw [List.getElem?_eq_none (by omega)] at hm
          cases hm
        rw [List.getElem?_set_self hlt]
        refine ⟨fun hnone => (by cases hnone), fun r' hr' hok => ?_⟩
        cases hr'
        rw [Write.Done, faulty_write_applied hd hok, World.applyWrite_self, hnow,
          (hops n wr hwr).1 hm]
      · -- another write: its key is not the one of the step
        have hne : wr'.key ≠ wr.key := write_key_ne hnodup hwr hn hnm
        rw [List.getElem?_set_ne (Ne.symm hnm), Write.Done, faulty_write_frame hd hne]
        exact hops n wr' hn

/-- **A batch of writes to different keys that all succeed.** -/
theorem outcome_batch_write_ok {ops : List Write} (hnodup : (ops.map Write.key).Nodup)
    {w w' : World} {recs : List BatchRecord}
    (h : client.Outcome (.batch_write (ops.map .write)) w (.ok recs) w')
    (hok : ∀ rec ∈ recs, rec.result = AEROSPIKE_OK) :
    w'.now = w.now ∧ (∀ key, key ∉ ops.map Write.key → w'.records key = w.records key) ∧
      ∀ wr ∈ ops, wr.Done w w' := by
  obtain ⟨s, hms, hfin⟩ := h
  obtain ⟨hlen, hnow, hframe, hops⟩ := micros_writes hnodup hms
  refine ⟨hnow, hframe, fun wr hwr => ?_⟩
  rcases hfin with ⟨rs, rfl, hx⟩ | ⟨e, he⟩
  · obtain rfl : recs = rs.map RecRes.toBatchRecord := Except.ok.inj hx
    obtain ⟨n, hn, rfl⟩ := List.getElem_of_mem hwr
    have hlt : n < rs.length := by
      rw [List.length_map] at hlen
      omega
    refine (hops n _ (List.getElem?_eq_getElem hn)).2 rs[n] ?_ ?_
    · rw [List.getElem?_map, List.getElem?_eq_getElem hlt]
      rfl
    · exact hok _ (List.mem_map_of_mem (List.getElem_mem hlt))
  · cases he

/-! ## Programs that write -/

theorem exec_call {α : Type} {o : Op} {k : o.Res → EngineM α} {w w' : World}
    {r : Except PyExc α} (h : client.Exec (.call o k) w r w') :
    ∃ x w₁, client.Outcome o w x w₁ ∧ client.Exec (k x) w₁ r w' := h

/-- A client call that is not guarded and returns has not raised. -/
theorem exec_raising {α : Type} {c : EngineM (Except AxError α)} {w w' : World} {a : α}
    (h : client.Exec (raising c) w (.ok a) w') : client.Exec c w (.ok (.ok a)) w' := by
  rcases (Device.exec_bind ..).mp h with ⟨x, w₁, hc, hx⟩ | ⟨e, -, he⟩
  · cases x with
    | ok b =>
      obtain ⟨hb, rfl⟩ := hx
      cases hb
      exact hc
    | error exc => cases hx.1
  · cases he

/-- A put that is not guarded and returns has been applied. -/
theorem exec_client_put_ok {wr : Write} {w w' : World}
    (h : client.Exec (raising (client_put wr)) w (.ok ()) w') : w' = w.applyWrite wr := by
  obtain ⟨x, w₁, hout, hret⟩ := exec_call (exec_raising h)
  obtain ⟨hx, rfl⟩ := hret
  cases hx
  exact outcome_put_ok hout

/-- `reraise` never returns. -/
theorem exec_reraise {α : Type} {op_name : String} {too_big : AxError → String} {e : PyExc}
    {w w' : World} {a : α}
    (h : client.Exec (Engine.reraise op_name too_big e : EngineM α) w (.ok a) w') : False := by
  unfold Engine.reraise at h
  split at h
  · split_ifs at h <;> cases h.1
  · cases h.1

theorem check_segments_ok {recs : List BatchRecord} {u : Unit}
    (h : Engine.check_segments recs = .ok u) : ∀ rec ∈ recs, rec.result = AEROSPIKE_OK := by
  induction recs with
  | nil => simp
  | cons rec recs ih =>
    unfold Engine.check_segments at h
    split_ifs at h with hres
    rw [List.forall_mem_cons]
    exact ⟨not_not.mp hres, ih h⟩

/-! ## The engine's put -/

/-- Every write of the put of `mo` under the plan `pl` was performed. -/
structure Engine.PutDone (eng : Engine) (ck : Text) (mo : MemoryObj) (pinned : Bool)
    (pl : ShardPlan) (now : ℕ) (w w' : World) : Prop where
  meta_done : (eng.meta_write ck mo pl pinned now).Done w w'
  segment_done : pl.nseg ≠ 1 → ∀ i, i < pl.nseg →
    (eng.segment_write ck mo.byte_array pl.seg_b (eng.ttl_value pinned) i).Done w w'
  frame : ∀ key, key ≠ eng.metaKey ck → (∀ i, key ≠ eng.segmentKey ck i) →
    w'.records key = w.records key

section Put

variable {eng : Engine} {ck : Text} {mo : MemoryObj} {pinned : Bool}

theorem segment_writes_keys (pl : ShardPlan) (ttl : ℤ) :
    (eng.segment_writes ck mo.byte_array pl ttl).map Write.key
      = (List.range pl.nseg).map (eng.segmentKey ck) := by
  rw [Engine.segment_writes, List.map_map]
  rfl

theorem segment_writes_nodup (pl : ShardPlan) (ttl : ℤ) :
    ((eng.segment_writes ck mo.byte_array pl ttl).map Write.key).Nodup := by
  rw [segment_writes_keys]
  exact List.nodup_range.map fun i j hij => (segment_key_inj hij).2

/-- A one-record put that returns. -/
theorem putDone_of_meta_write {pl : ShardPlan} (hn : pl.nseg = 1) (now : ℕ) (w : World) :
    eng.PutDone ck mo pinned pl now w (w.applyWrite (eng.meta_write ck mo pl pinned now)) where
  meta_done := World.applyWrite_self ..
  segment_done := fun hne => absurd hn hne
  frame := fun _ hmeta _ => World.applyWrite_of_ne w hmeta

/-- The batch of a put with segments, all of them written. -/
theorem exec_segments_ok {pl : ShardPlan} {ttl : ℤ} {recs : List BatchRecord} {w w' : World}
    (h : client.Exec (raising (client_batch_write
      ((eng.segment_writes ck mo.byte_array pl ttl).map .write))) w (.ok recs) w')
    (hok : ∀ rec ∈ recs, rec.result = AEROSPIKE_OK) :
    w'.now = w.now ∧ (∀ key, (∀ i, key ≠ eng.segmentKey ck i) → w'.records key = w.records key) ∧
      ∀ i, i < pl.nseg →
        (eng.segment_write ck mo.byte_array pl.seg_b ttl i).Done w w' := by
  obtain ⟨x, w₂, hout, hret⟩ := exec_call (exec_raising h)
  obtain ⟨hx, rfl⟩ := hret
  cases hx
  obtain ⟨hnow, hframe, hdone⟩ := outcome_batch_write_ok (segment_writes_nodup pl _) hout hok
  rw [segment_writes_keys] at hframe
  refine ⟨hnow, fun key hkey => hframe key fun hmem => ?_, fun i hi => hdone _ ?_⟩
  · obtain ⟨i, -, hi⟩ := List.mem_map.mp hmem
    exact hkey i hi.symm
  · exact List.mem_map_of_mem (List.mem_range.mpr hi)

theorem exec_put_records_ok {pl : ShardPlan} {now : ℕ} {w w' : World}
    (h : client.Exec (eng.put_records ck mo pl pinned now) w (.ok ()) w') :
    eng.PutDone ck mo pinned pl now w w' := by
  unfold Engine.put_records at h
  by_cases hn : pl.nseg = 1
  · rw [if_pos hn] at h
    obtain rfl := exec_client_put_ok h
    exact putDone_of_meta_write hn now w
  · rw [if_neg hn] at h
    rcases (Device.exec_bind ..).mp h with ⟨recs, w₁, hbatch, hrest⟩ | ⟨e, -, he⟩
    · rcases (Device.exec_bind ..).mp hrest with ⟨u, w₂, hcheck, hput⟩ | ⟨e, -, he⟩
      · cases hrecs : Engine.check_segments recs with
        | error e =>
          rw [hrecs] at hcheck
          cases hcheck.1
        | ok u =>
          rw [hrecs] at hcheck
          obtain ⟨-, rfl⟩ := hcheck
          obtain ⟨hnow, hframe, hdone⟩ := exec_segments_ok hbatch (check_segments_ok hrecs)
          -- the meta write is the last one, and touches no segment
          obtain rfl := exec_client_put_ok hput
          constructor
          · rw [Write.Done, World.applyWrite_self, hnow]
            rw [show w₂.records (eng.meta_write ck mo pl pinned now).key = _ from
              hframe _ fun i => meta_key_ne_segment_key _ _ _ _ _ _ _]
          · intro _ i hi
            have hne : eng.segmentKey ck i ≠ (eng.meta_write ck mo pl pinned now).key :=
              (meta_key_ne_segment_key _ _ _ _ _ _ _).symm
            exact (World.applyWrite_of_ne w₂ hne).trans (hdone i hi)
          · intro key hmeta hsegment
            exact (World.applyWrite_of_ne w₂ hmeta).trans (hframe key hsegment)
      · cases he
    · cases he

/-- A put whose payload has a plan. -/
theorem put_planned {pl : ShardPlan}
    (hplan : eng.resolved.shard_plan mo.byte_array.length = .ok pl) :
    eng.put ck mo pinned = .call .time fun now =>
      (eng.put_records ck mo pl pinned now).tryCatch
        (Engine.reraise "put" fun _ => eng.put_too_big mo.byte_array.length) := by
  unfold Engine.put
  rw [hplan]
  rfl

/-- **A put that returns has performed all its writes.** -/
theorem exec_put_ok {w w' : World} (h : client.Exec (eng.put ck mo pinned) w (.ok ()) w') :
    ∃ pl now, eng.resolved.shard_plan mo.byte_array.length = .ok pl ∧
      eng.PutDone ck mo pinned pl now w w' := by
  cases hplan : eng.resolved.shard_plan mo.byte_array.length with
  | error e =>
    unfold Engine.put at h
    rw [hplan] at h
    cases h.1
  | ok pl =>
    rw [put_planned hplan] at h
    obtain ⟨now, w₁, hout, h₁⟩ := exec_call h
    obtain rfl := outcome_time hout
    rcases (Device.exec_tryCatch ..).mp h₁ with ⟨u, hexec, -⟩ | ⟨e, w₂, -, hraise⟩
    · exact ⟨pl, now, rfl, exec_put_records_ok hexec⟩
    · exact (exec_reraise hraise).elim

end Put
