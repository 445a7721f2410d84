/-
# Every meta record is a committed one

`exists` and `batched_contains` take the presence of a meta record for readiness, since a
put writes it last.  Every write to a meta key keeps that reading except one: a write of
the pin bin alone, which runs in a round trip after the check of presence and creates the
record when it has expired or been removed in between (`pin_write_uncommitted`).  In the
runs in which every pin write that is applied finds its record, all meta records are committed
(`meta_records_committed`).
-/
import LmcacheAerospike.EngineRuns
import LmcacheAerospike.EngineWrites
import LmcacheAerospike.Payload
import LmcacheAerospike.RecordInvariant

/-- The bins of a meta record that a put has committed. -/
structure Committed (bins : Bins) : Prop where
  state : bins .state = some (.str "ready")
  nseg : ∃ n : ℕ, 1 ≤ n ∧ bins .nseg = some (.int n) ∧
    (n = 1 → ∃ payload, bins .b = some (.blob payload))
  seg_b : ∃ n : ℕ, bins .seg_b = some (.int n)
  tot_b : ∃ n : ℕ, bins .tot_b = some (.int n)

/-- The record under a meta key is a committed one. -/
def MetaCommitted (key : Key) (bins : Bins) : Prop :=
  ∀ ns set_name ck, key = meta_key ns set_name ck → Committed bins

/-- The write sets the pin bin and nothing else. -/
def Write.PinOnly (wr : Write) : Prop := wr.ops.map Prod.fst = [.pin]

/-- **The condition**: a write of the pin bin finds the record under its key. -/
def PinFindsRecord (op : RecOp) (w : World) : Prop :=
  ∀ wr, op = .write wr → wr.PinOnly → (w.records wr.key).isSome = true

/-- The operations of any engine on any keys. -/
def AnyEngineOp (op : RecOp) : Prop :=
  ∃ eng, EngineRecOp eng (fun _ => True) (fun _ _ => True) op

/-- **The step lemma**: a write that meets the condition leaves a committed meta record. -/
theorem metaCommitted_kept : KeepsRecords MetaCommitted PinFindsRecord AnyEngineOp := by
  intro wr w hop hpin hold ns set_name key hkey
  obtain ⟨eng, hop⟩ := hop
  cases hop with
  | of_read h => cases h
  | write_segment => exact (meta_key_ne_segment_key _ _ _ _ _ _ _ hkey.symm).elim
  | @write_meta ck mo pl pinned now _ hplan =>
    have hpos := (plan_covers _ _ _ _ _ _ hplan).nseg_pos
    constructor
    · exact meta_write_bins mo pl pinned now .state
    · refine ⟨pl.nseg, hpos, meta_write_bins mo pl pinned now .nseg, fun hn => ?_⟩
      exact ⟨_, (meta_write_bins mo pl pinned now .b).trans (if_pos hn)⟩
    · exact ⟨_, meta_write_bins mo pl pinned now .seg_b⟩
    · exact ⟨_, meta_write_bins mo pl pinned now .tot_b⟩
  | @write_pin ck v ttl _ =>
    obtain ⟨r, hr⟩ := Option.isSome_iff_exists.mp (hpin _ rfl rfl)
    have hcommitted := hold r hr ns set_name key hkey
    -- the bins of the record that was there
    have hbins : ∀ n, n ≠ BinName.pin →
        ((eng.pin_write ck v ttl).applyTo w.now
          (w.records (eng.pin_write ck v ttl).key)).bins n = r.bins n := by
      intro n hn
      rw [pin_write_of_ne hn, hr]
      rfl
    constructor
    · rw [hbins _ (by decide)]
      exact hcommitted.state
    · rw [hbins _ (by decide), hbins _ (by decide)]
      exact hcommitted.nseg
    · rw [hbins _ (by decide)]
      exact hcommitted.seg_b
    · rw [hbins _ (by decide)]
      exact hcommitted.tot_b

/-- The client whose pin writes all find their records, those aside that fail without any
effect. -/
abbrev guardedClient : Device Op Op.Res World :=
  serve fun op w r w' => Faulty op w r w' ∧ (w' = w ∨ PinFindsRecord op w)

def committedProtocol : Protocol guardedClient Expiry :=
  recordProtocol (fun _ _ _ _ h => h) MetaCommitted AnyEngineOp metaCommitted_kept

theorem anyOp_safe (op : ClientOp) :
    committedProtocol.Safe (fun _ => True) op.prog := by
  have hwithin : op.Within (fun _ => True) (fun _ _ => True) := by
    cases op <;> simp [ClientOp.Within]
  refine Protocol.safe_of_allCalls _ (fun _ => trivial) _ ?_
  exact Prog.allCalls_mono (fun o ho i hi => ⟨op.eng, ho i hi⟩) _ (op.prog_calls hwithin)

/-- **Every meta record is a committed one**, in every state of every run of any number of
clients, with any interleaving, crashes, failures and expiry, in which every pin write that is
applied finds its record; `exists` and the count of `batched_contains` then report committed records
only. -/
theorem meta_records_committed (c : Pool guardedClient ClientOp PyExc OpResult)
    (hc : Pool.Reachable Expiry ClientOp.prog (fun _ => True) World.empty c) :
    (∀ ns set_name ck r, c.state.records (meta_key ns set_name ck) = some r →
      Committed r.bins) ∧
    (∀ (eng : Engine) ck, ((eng.exists_ ck).run Op.perform c.state).1 = .ok true →
      ∃ r, c.state.records (eng.metaKey ck) = some r ∧ Committed r.bins) ∧
    ∀ (eng : Engine) keys n, ((eng.batched_contains keys).run Op.perform c.state).1 = .ok n →
      ∀ ck ∈ keys.take n, ∃ r, c.state.records (eng.metaKey ck) = some r ∧
        Committed r.bins := by
  have hinv : c.state.Each MetaCommitted :=
    (committedProtocol.reachable (fun op _ => anyOp_safe op) (World.each_empty _) hc).1
  have hpresent : ∀ (eng : Engine) ck,
      c.state.hasMeta eng.cfg.ns eng.cfg.set_name ck = true →
      ∃ r, c.state.records (eng.metaKey ck) = some r ∧ Committed r.bins := by
    intro eng ck h
    obtain ⟨r, hr⟩ := Option.isSome_iff_exists.mp h
    exact ⟨r, hr, hinv _ r hr _ _ _ rfl⟩
  refine ⟨?_, ?_, ?_⟩
  · intro ns set_name ck r hr
    exact hinv _ r hr ns set_name ck rfl
  · intro eng ck h
    rw [run_exists] at h
    exact hpresent eng ck (Except.ok.inj h)
  · intro eng keys n h ck hck
    rw [run_batched_contains] at h
    obtain rfl := Except.ok.inj h
    exact hpresent eng ck (hasMeta_of_counted c.state hck)

/-- A call of one operation that is performed and meets the condition. -/
theorem guarded_single {o : Op} {i : RecOp} (ho : o.items = [i]) (w : World)
    (hpin : PinFindsRecord i w) :
    guardedClient.Outcome o w (o.respond [(i.perform w).1]) (i.perform w).2 := by
  refine Device.itemwise_outcome ?_
  rw [ho]
  exact Device.DoesAll.cons ⟨Or.inl rfl, Or.inr hpin⟩ (Device.DoesAll.nil _)

/-- A put, and then a `batched_async_contains` that pins what it finds: every pin write
finds its record. -/
theorem meta_records_committed_pinned :
    ∃ (c : Pool guardedClient ClientOp PyExc OpResult) (r : Record),
      Pool.Reachable Expiry ClientOp.prog (fun _ => True) World.empty c ∧
      c.state.records (meta_key "lmcache".toList "kv_chunks".toList "k".toList) = some r ∧
      r.bins .pin = some (.bool true) ∧ Committed r.bins := by
  have hstart : Pool.Reachable Expiry ClientOp.prog (fun _ => True) World.empty
      (⟨World.empty, []⟩ : Pool guardedClient ClientOp PyExc OpResult) :=
    Relation.ReflTransGen.refl
  have hput : guardedClient.Exec (ClientOp.put (fakeEngine (.ofTarget 2) false true 8)
      "k".toList { byte_array := [1, 2] } false).prog World.empty (.ok .done) _ :=
    ⟨_, _, guarded_single (o := .time) rfl _ (fun _ h => by cases h), _, _,
      guarded_single (o := .put _) rfl _ (fun _ h hpin => by cases h; cases hpin), rfl, rfl⟩
  have hcontains : ∀ w r, w.records (meta_key "lmcache".toList "kv_chunks".toList
      "k".toList) = some r → guardedClient.Exec (ClientOp.batched_async_contains
        (fakeEngine (.ofTarget 2) false true 8) ["k".toList] true).prog w (.ok (.count 1))
        (w.applyWrite ((fakeEngine (.ofTarget 2) false true 8).pin_write "k".toList true
          (fakeEngine (.ofTarget 2) false true 8).pin_ttl)) := by
    intro w r hr
    have hread := guarded_single (o := .batch_read [meta_key "lmcache".toList
      "kv_chunks".toList "k".toList] []) rfl w (fun _ h => by cases h)
    simp only [RecOp.perform, hr] at hread
    exact ⟨_, _, hread, _, _, guarded_single (o := .batch_write _) rfl _
      (fun _ h _ => by cases h; exact Option.isSome_iff_exists.mpr ⟨r, hr⟩), rfl, rfl⟩
  have hrun := Pool.reachable_exec (Pool.reachable_exec hstart _ trivial hput) _ trivial
    (hcontains _ _ rfl)
  exact ⟨_, _, hrun, rfl, rfl, (meta_records_committed _ hrun).1 "lmcache".toList
    "kv_chunks".toList "k".toList _ rfl⟩

/-- A put, the check of `batched_async_contains`, the record expires, and then its pin write:
the meta record has no bin but `pin`, `exists` reports it and `get` rejects it. -/
theorem pin_write_uncommitted :
    ∃ (c : Pool client ClientOp PyExc OpResult) (r : Record),
      Pool.Reachable Expiry ClientOp.prog (fun _ => True) World.empty c ∧
      c.state.records (meta_key "lmcache".toList "kv_chunks".toList "k".toList) = some r ∧
      r.bins .state = none ∧ r.bins .nseg = none ∧
      (((fakeEngine (.ofTarget 2) false true 8).exists_ "k".toList).run Op.perform c.state).1
        = .ok true ∧
      (((fakeEngine (.ofTarget 2) false true 8).get "k".toList none).run Op.perform c.state).1
        = .ok none := by
  have hstart : Pool.Reachable Expiry ClientOp.prog (fun _ => True) World.empty
      (⟨World.empty, []⟩ : Pool client ClientOp PyExc OpResult) := Relation.ReflTransGen.refl
  have hput := Pool.reachable_exec hstart
    (.put (fakeEngine (.ofTarget 2) false true 8) "k".toList { byte_array := [1, 2] } false)
    trivial (exec_run_perform _ _)
  have hspawn := hput.tail (Pool.Step.spawn
    (.batched_async_contains (fakeEngine (.ofTarget 2) false true 8) ["k".toList] true) trivial)
  have hcheck := hspawn.trans (Pool.steps_of_outcome _ _ _ (perform_outcome
    (.batch_read [meta_key "lmcache".toList "kv_chunks".toList "k".toList] []) _))
  have hexpire := hcheck.tail (Pool.Step.env (Expiry.expire _
    (meta_key "lmcache".toList "kv_chunks".toList "k".toList)))
  have hpin := hexpire.trans (Pool.steps_of_exec _ _ _ _ _ _ (exec_run_perform _ _))
  exact ⟨_, _, hpin, rfl, rfl, rfl, rfl, rfl⟩
