/-
# Every write commits last

Where the cuts of a payload agree, every program of a member of the fleet writes the meta record
only once it has been told that all the segments are written, and once it has returned, the key
is committed for good: `put` (`put_lasts`), `batched_put` for each item whose flag it sets
(`batched_put_lasts`), and the native write (`set_lasts`).
-/
import LmcacheAerospike.CacheReads
import LmcacheAerospike.FleetStored

section FleetWrites

variable {F : Fleet} {ns set_name k : Text}

/-! ## The protocol -/

/-- The answer to one operation: a write that has succeeded has achieved what it is for. -/
def Fleet.Answered (F : Fleet) (ns set_name k : Text) (w : World) (op : RecOp) (r : RecRes) :
    Prop :=
  r.toBatchRecord.result = AEROSPIKE_OK → ∀ wr, op = .write wr → F.Told ns set_name k w wr

/-- **The step lemma for one operation**, performed or failing. -/
theorem faulty_lasts (hagree : F.CutsAgree ns set_name k) {op : RecOp} {w w' : World} {r : RecRes}
    (hop : F.Admits ns set_name k w op)
    (hinv : w.Each (FleetRecord F) ∧ F.Whole ns set_name k w) (h : Faulty op w r w') :
    (w'.Each (FleetRecord F) ∧ F.Whole ns set_name k w') ∧ F.Lasts ns set_name k w w' ∧
      F.Answered ns set_name k w' op r := by
  have hperformed : ((op.perform w).2.Each (FleetRecord F) ∧
      F.Whole ns set_name k (op.perform w).2) ∧ F.Lasts ns set_name k w (op.perform w).2 :=
    ⟨⟨perform_each fleet_kept hop.allowed trivial hinv.1, hop.whole hagree hinv.2⟩,
      hop.lasts hagree⟩
  rcases h with hp | ⟨⟨code, hcode, rfl⟩, hw⟩
  · obtain rfl : w' = (op.perform w).2 := congrArg Prod.snd hp
    refine ⟨hperformed.1, hperformed.2, fun _ wr hwr => ?_⟩
    subst hwr
    exact Fleet.Admits.told hagree hop.allowed w
  · have hfailed : F.Answered ns set_name k w' op (.failed code) := fun hok => absurd hok hcode
    rcases hw with rfl | rfl
    · exact ⟨hinv, Fleet.Lasts.refl _, hfailed⟩
    · exact ⟨hperformed.1, hperformed.2, hfailed⟩

/-- Nothing that happens to the store on its own touches the key. -/
theorem keyKept_lasts {w w' : World} (h : KeyKept ns set_name k w w')
    (hinv : w.Each (FleetRecord F) ∧ F.Whole ns set_name k w) :
    (w'.Each (FleetRecord F) ∧ F.Whole ns set_name k w') ∧ F.Lasts ns set_name k w w' := by
  obtain ⟨hexpiry, hkept⟩ := h
  have hlasts : F.Lasts ns set_name k w w' := .of_records hkept
  refine ⟨⟨?_, fun r pl hr hcut hn hnseg i hi => ?_⟩, hlasts⟩
  · cases hexpiry with
    | expire key => exact hinv.1.setRecord key none fun r hr => by cases hr
    | tick t ht => exact hinv.1
  · rw [hkept _ (Or.inl rfl)] at hr
    exact hlasts.pieces pl i hcut hn hi (hinv.2 r pl hr hcut hn hnseg i hi)

/-- The protocol of a key whose cuts agree. -/
def storedProtocol (hagree : F.CutsAgree ns set_name k) :
    LastingProtocol client (KeyKept ns set_name k) :=
  .itemwise (fun w => w.Each (FleetRecord F) ∧ F.Whole ns set_name k w) (F.Lasts ns set_name k)
    (F.Admits ns set_name k) (fun _ => F.Answered ns set_name k) Fleet.Lasts.refl
    (fun h h' => h.trans h') (fun hlasts h => h.later hlasts)
    (fun hlasts h hok wr hwr => (h hok wr hwr).later hlasts) (fun _ h => h) keyKept_lasts
    (fun _ => faulty_lasts hagree)

section Answers

variable {hagree : F.CutsAgree ns set_name k} {w : World}

/-- A call of one operation. -/
theorem stored_good_single {o : Op} {i : RecOp} (ho : o.items = [i])
    (hi : F.Admits ns set_name k w i) : (storedProtocol hagree).Good w o := by
  intro j hj
  rw [ho, List.mem_singleton] at hj
  rw [hj]
  exact hi

/-- A write that returns has achieved what it is for. -/
theorem stored_put_told {w₀ : World} {wr : Write} {u : Unit}
    (h : (storedProtocol hagree).ResOk w₀ w (.put wr) (.ok u)) : F.Told ns set_name k w wr := by
  rcases h with ⟨rs, hrs, hx⟩ | ⟨e, he⟩
  · obtain ⟨r, rest, hr, hnil, rfl⟩ := List.forall₂_cons_left_iff.mp hrs
    obtain rfl := List.forall₂_nil_left_iff.mp hnil
    cases r with
    | applied => exact hr rfl wr rfl
    | found bins => cases hx
    | absent => cases hx
    | failed code => cases hx
    | clock t => cases hx
  · cases he

/-- So has every write of a batch whose result code is OK. -/
theorem stored_batch_told {w₀ : World} {writes : List Write} {recs : List BatchRecord}
    (h : (storedProtocol hagree).ResOk w₀ w (.batch_write (writes.map .write)) (.ok recs)) :
    List.Forall₂ (fun wr rec => rec.result = AEROSPIKE_OK → F.Told ns set_name k w wr)
      writes recs := by
  rcases h with ⟨rs, hrs, hx⟩ | ⟨e, he⟩
  · have hrecs : recs = rs.map RecRes.toBatchRecord := by
      cases hx
      rfl
    rw [hrecs, List.forall₂_map_right_iff]
    rw [show Op.items (.batch_write (writes.map .write)) = writes.map RecOp.write by
      simp [Op.items, BatchOp.toRecOp], List.forall₂_map_left_iff] at hrs
    exact hrs.imp fun wr r hr hok => hr hok wr rfl
  · cases he

end Answers

/-! ## What a write is for -/

/-- The key with this meta record, if it is the one in question, is committed. -/
def KeyDone (key : Key) (ns set_name k : Text) (w : World) : Prop :=
  key = meta_key ns set_name k → KeyCommitted ns set_name k w

/-- The first `n` pieces of the key with this meta record, if it is the one in question, are
stored. -/
def PiecesDone (F : Fleet) (key : Key) (ns set_name k : Text) (pl : ShardPlan) (n : ℕ)
    (w : World) : Prop :=
  key = meta_key ns set_name k → ∀ i < n, F.PieceStored ns set_name k pl i w

theorem KeyDone.later {key : Key} {w w' : World} (h : KeyDone key ns set_name k w)
    (hlasts : F.Lasts ns set_name k w w') : KeyDone key ns set_name k w' := fun hkey =>
  hlasts.committed (h hkey)

/-! ## Operations that commit nothing -/

/-- An operation that may be made in any state. -/
def Fleet.AlwaysAdmits (F : Fleet) (ns set_name k : Text) (op : RecOp) : Prop :=
  ∀ w, F.Admits ns set_name k w op

/-- A quiet operation may. -/
theorem Fleet.QuietOp.alwaysAdmits {op : RecOp} (h : F.QuietOp ns set_name k op) :
    F.AlwaysAdmits ns set_name k op := fun _ =>
  ⟨h.allowed, h.keeps, fun wr pl hwr hkey _ _ hops => by
    have hpin := (h.pins wr hwr (Or.inl hkey)).2 _ hops
    simp at hpin⟩

/-- A segment may be written at any time. -/
theorem alwaysAdmits_segment {eng : Engine} {ck : Text} {mo : MemoryObj} {pl : ShardPlan}
    {ttl : ℤ} {i : ℕ} (heng : F.engines eng) (hmo : mo.byte_array = F.payload ck)
    (hplan : eng.resolved.shard_plan mo.byte_array.length = .ok pl) (hn : pl.nseg ≠ 1)
    (hi : i < pl.nseg) :
    F.AlwaysAdmits ns set_name k (.write (eng.segment_write ck mo.byte_array pl.seg_b ttl i)) := by
  intro w
  refine ⟨.python eng (.write_segment ⟨heng, hmo⟩ hplan hn hi), fun key hkey => (by cases hkey),
    ?_⟩
  intro wr pl' hwr hkey
  cases hwr
  exact (meta_key_ne_segment_key _ _ _ _ _ _ _ hkey.symm).elim

/-! ## `put` -/

section Put

variable {hagree : F.CutsAgree ns set_name k} {eng : Engine} {ck : Text} {mo : MemoryObj}
  {pl : ShardPlan} {w : World}

/-- The plan of a member is one of its cuts. -/
theorem cut_of_put (heng : F.engines eng) (hmo : mo.byte_array = F.payload ck)
    (hplan : eng.resolved.shard_plan mo.byte_array.length = .ok pl)
    (hkey : eng.metaKey ck = meta_key ns set_name k) : F.Cut ns set_name k pl := by
  have hns : eng.cfg.ns = ns := congrArg Key.ns hkey
  have hset : eng.cfg.set_name = set_name := congrArg Key.set_name hkey
  obtain rfl := meta_key_inj hkey
  rw [hmo] at hplan
  exact .python eng heng hns hset hplan

/-- The count of segments in a meta record is that of its plan. -/
theorem nseg_of_meta_bins {v : BinVal} {pinned : Bool} {now : ℕ}
    (h : (BinName.nseg, v) ∈ (eng.meta_write ck mo pl pinned now).ops) : v = .int pl.nseg := by
  simp only [Engine.meta_write, meta_bins] at h
  split_ifs at h <;> simp_all

/-- The meta record may be written once the pieces that it counts are. -/
theorem admits_meta (hagree : F.CutsAgree ns set_name k) (heng : F.engines eng)
    (hmo : mo.byte_array = F.payload ck)
    (hplan : eng.resolved.shard_plan mo.byte_array.length = .ok pl) (pinned : Bool) (now : ℕ)
    (hpieces : pl.nseg ≠ 1 → PiecesDone F (eng.metaKey ck) ns set_name k pl pl.nseg w) :
    F.Admits ns set_name k w (.write (eng.meta_write ck mo pl pinned now)) := by
  refine ⟨.python eng (.write_meta ⟨heng, hmo⟩ hplan), fun key hkey => (by cases hkey), ?_⟩
  intro wr pl' hwr hkey hcut hn hops
  cases hwr
  have hsame : pl'.nseg = pl.nseg := by
    have hcount := nseg_of_meta_bins hops
    simpa using hcount
  have hne : pl.nseg ≠ 1 := by rwa [← hsame]
  obtain rfl := hagree pl pl' (cut_of_put heng hmo hplan hkey) hcut hne hn
  exact hpieces hne hkey

/-- What the writes of a put have achieved once its meta record is written. -/
theorem keyDone_of_told {pinned : Bool} {now : ℕ}
    (h : F.Told ns set_name k w (eng.meta_write ck mo pl pinned now)) :
    KeyDone (eng.metaKey ck) ns set_name k w := fun hkey =>
  h.commit (.str "ready") hkey (by simp [Engine.meta_write, meta_bins])

/-- Writing the meta record, at last. -/
theorem put_meta_lasts (heng : F.engines eng) (hmo : mo.byte_array = F.payload ck)
    (hplan : eng.resolved.shard_plan mo.byte_array.length = .ok pl) (pinned : Bool) (now : ℕ)
    (hpieces : pl.nseg ≠ 1 → PiecesDone F (eng.metaKey ck) ns set_name k pl pl.nseg w) :
    (storedProtocol hagree).Safe
      (fun w r => r = .ok () → KeyDone (eng.metaKey ck) ns set_name k w) w
      (raising (client_put (eng.meta_write ck mo pl pinned now))) := by
  refine ⟨stored_good_single rfl (admits_meta hagree heng hmo hplan pinned now hpieces),
    fun w' x _ hx => ?_⟩
  rcases x with exc | u
  · intro w'' _ hok
    cases hok
  · intro w'' hlasts _ hkey
    exact hlasts.committed (keyDone_of_told (stored_put_told hx) hkey)

/-- **The client calls of a put** commit the key last. -/
theorem put_records_lasts (heng : F.engines eng) (hmo : mo.byte_array = F.payload ck)
    (hplan : eng.resolved.shard_plan mo.byte_array.length = .ok pl) (pinned : Bool) (now : ℕ) :
    (storedProtocol hagree).Safe
      (fun w r => r = .ok () → KeyDone (eng.metaKey ck) ns set_name k w) w
      (eng.put_records ck mo pl pinned now) := by
  unfold Engine.put_records
  by_cases hn : pl.nseg = 1
  · rw [if_pos hn]
    exact put_meta_lasts heng hmo hplan pinned now fun hne => absurd hn hne
  · rw [if_neg hn]
    refine ⟨fun i hi => ?_, fun w' x _ hx => ?_⟩
    · simp only [Op.items, Engine.segment_writes, List.map_map, List.mem_map, List.mem_range,
        Function.comp] at hi
      obtain ⟨j, hj, rfl⟩ := hi
      exact alwaysAdmits_segment heng hmo hplan hn hj w
    · rcases x with exc | recs
      · intro w'' _ hok
        cases hok
      · show (storedProtocol hagree).Safe _ _ (Prog.bind (Prog.ofExcept _) _)
        rcases hcheck : Engine.check_segments recs with e | u
        · intro w'' _ hok
          cases hok
        · -- every segment has been answered with success
          have hall := check_segments_ok hcheck
          have htold := stored_batch_told hx
          refine put_meta_lasts heng hmo hplan pinned now fun _ hkey i hi => ?_
          have hi' :
              i < (eng.segment_writes ck mo.byte_array pl (eng.ttl_value pinned)).length := by
            simpa [Engine.segment_writes] using hi
          have hi'' : i < recs.length := htold.length_eq ▸ hi'
          have hpiece := (List.forall₂_iff_get.mp htold).2 i hi' hi''
            (hall _ (List.get_mem recs ⟨i, hi''⟩))
          refine hpiece.piece pl i ?_ (cut_of_put heng hmo hplan hkey) hn hi
          have hns : eng.cfg.ns = ns := congrArg Key.ns hkey
          have hset : eng.cfg.set_name = set_name := congrArg Key.set_name hkey
          obtain rfl := meta_key_inj hkey
          simp [Engine.segment_writes, Engine.segment_write, Engine.segmentKey, hns, hset]

/-- What the handlers make of an exception is an exception. -/
theorem reraise_lasts {α : Type} {Post : World → Except PyExc α → Prop}
    (hraise : ∀ w e, Post w (.error e)) (op_name : String) (too_big : AxError → String)
    (e : PyExc) :
    (storedProtocol hagree).Safe Post w (Engine.reraise op_name too_big e : EngineM α) := by
  unfold Engine.reraise
  split
  · split_ifs <;> exact fun w' _ => hraise w' _
  · exact fun w' _ => hraise w' _

/-- **A put that returns has committed the key.** -/
theorem put_lasts (heng : F.engines eng) (hmo : mo.byte_array = F.payload ck) (pinned : Bool) :
    (storedProtocol hagree).Safe
      (fun w r => r = .ok () → KeyDone (eng.metaKey ck) ns set_name k w) w
      (eng.put ck mo pinned) := by
  rcases hplan : eng.resolved.shard_plan mo.byte_array.length with e | pl
  · have hraise : eng.put ck mo pinned = .raise e := by
      unfold Engine.put
      rw [hplan]
      rfl
    rw [hraise]
    intro w' _ hok
    cases hok
  · rw [put_planned hplan]
    have hclock : F.QuietOp ns set_name k .clock :=
      quiet_of_neither (.python eng .clock) (by simp) (by simp)
    refine ⟨stored_good_single rfl (hclock.alwaysAdmits w), fun w' now _ _ => ?_⟩
    refine LastingProtocol.safe_tryCatch _ _ _ (put_records_lasts heng hmo hplan pinned now)
      (fun _ _ _ h => h) fun w'' e _ _ => ?_
    exact reraise_lasts (fun _ _ hok => by cases hok) _ _ e

end Put

/-! ## `batched_put` -/

section BatchedPut

variable {hagree : F.CutsAgree ns set_name k} {eng : Engine} {pinned : Bool} {w : World}
  {items : List (Text × MemoryObj)}

/-- The payloads of the items are those of the fleet. -/
def Fleet.Stores (F : Fleet) (eng : Engine) (items : List (Text × MemoryObj)) : Prop :=
  ∀ item ∈ items, F.engines eng ∧ item.2.byte_array = F.payload item.1

/-- A batch has committed the items whose flag is set. -/
def Engine.FlagsDone (eng : Engine) (ns set_name k : Text) (items : List (Text × MemoryObj))
    (w : World) (r : Except PyExc (List Bool)) : Prop :=
  ∀ flags, r = .ok flags → List.Forall₂
    (fun item flag => flag = true → KeyDone (eng.metaKey item.1) ns set_name k w) items flags

theorem Engine.FlagsDone.later {w' : World} {r : Except PyExc (List Bool)}
    (h : eng.FlagsDone ns set_name k items w r) (hlasts : F.Lasts ns set_name k w w') :
    eng.FlagsDone ns set_name k items w' r := fun flags hr =>
  (h flags hr).imp fun _ _ hdone hset => (hdone hset).later hlasts

/-- The first loop commits nothing. -/
theorem plan_items_lasts (items : List (Text × MemoryObj)) :
    (storedProtocol hagree).Safe (fun _ r => ∀ plans, r = .ok plans →
      List.Forall₂ (PlannedPut.PlansAnytime eng pinned) items plans) w
      (eng.plan_items pinned items) := by
  induction items generalizing w with
  | nil =>
    intro w' _ plans h
    cases h
    exact .nil
  | cons item items ih =>
    obtain ⟨ck, mo⟩ := item
    unfold Engine.plan_items
    rcases hpl : eng.resolved.shard_plan mo.byte_array.length with e | pl
    · intro w' _ plans h
      cases h
    · have hclock : F.QuietOp ns set_name k .clock :=
        quiet_of_neither (.python eng .clock) (by simp) (by simp)
      refine ⟨stored_good_single rfl (hclock.alwaysAdmits w), fun w' now _ _ => ?_⟩
      apply LastingProtocol.safe_bind _ _ _ ih
      · intro w'' plans _ hplans w''' _ plans' h
        cases h
        exact .cons ⟨now, rfl, rfl, hpl, rfl⟩ (hplans plans rfl)
      · intro w'' e _ _ plans h
        cases h

/-- One put of the mixed path: its flag says whether it has returned. -/
theorem put_item_lasts {ck : Text} {mo : MemoryObj} (heng : F.engines eng)
    (hmo : mo.byte_array = F.payload ck) :
    (storedProtocol hagree).Safe
      (fun w r => ∀ flag, r = .ok flag → flag = true → KeyDone (eng.metaKey ck) ns set_name k w) w
      (eng.put_item pinned ck mo) := by
  unfold Engine.put_item
  have hput : (storedProtocol hagree).Safe
      (fun w r => ∀ flag, r = .ok flag → flag = true → KeyDone (eng.metaKey ck) ns set_name k w) w
      ((eng.put ck mo pinned).bind fun _ => .ret true) := by
    apply LastingProtocol.safe_bind _ _ _ (put_lasts heng hmo pinned)
    · intro w' u _ hdone w'' hlasts flag _ _
      exact (hdone rfl).later hlasts
    · intro w' e _ _ flag h
      cases h
  apply LastingProtocol.safe_tryCatch _ _ _ hput
  · exact fun _ _ _ h => h
  · -- the handler answers `False` or raises
    intro w' e _ _
    split
    all_goals
      intro w'' _ flag h hflag
      cases h
    all_goals cases hflag

/-- The mixed path. -/
theorem put_items_lasts {plans : List PlannedPut} (hstores : F.Stores eng items)
    (hplans : List.Forall₂ (PlannedPut.PlansAnytime eng pinned) items plans) :
    (storedProtocol hagree).Safe (eng.FlagsDone ns set_name k items) w
      (eng.put_items pinned plans) := by
  induction hplans generalizing w with
  | nil =>
    intro w' _ flags h
    cases h
    exact .nil
  | @cons item planned items plans hitem _ ih =>
    obtain ⟨now, hitem⟩ := hitem
    obtain ⟨⟨heng, hmo⟩, hrest⟩ := List.forall_mem_cons.mp hstores
    unfold Engine.put_items
    rw [hitem.ck, hitem.memory_obj]
    apply LastingProtocol.safe_bind _ _ _ (put_item_lasts heng hmo)
    · intro w₁ flag _ hflag
      apply LastingProtocol.safe_bind _ _ _ (ih hrest)
      · intro w₂ rest hlasts hdone w₃ hlasts' flags h
        cases h
        exact .cons (fun hset => (hflag flag rfl hset).later (hlasts.trans hlasts'))
          (hdone.later hlasts' rest rfl)
      · intro w₂ e _ _ flags h
        cases h
    · intro w₁ e _ _ flags h
      cases h

/-- The single-record path: one `batch_write` of meta records. -/
theorem put_singles_lasts {plans : List PlannedPut} (hstores : F.Stores eng items)
    (hplans : List.Forall₂ (PlannedPut.PlansAnytime eng pinned) items plans)
    (hsingle : ∀ planned ∈ plans, ¬ planned.p.nseg > 1) :
    (storedProtocol hagree).Safe (eng.FlagsDone ns set_name k items) w
      ((raising (client_batch_write (plans.map fun item => .write item.mwrite))).bind
        fun recs => .ret (recs.map fun rec => decide (rec.result = AEROSPIKE_OK))) := by
  have hmap : (plans.map fun item : PlannedPut => BatchOp.write item.mwrite)
      = (plans.map PlannedPut.mwrite).map .write := by
    rw [List.map_map]
    rfl
  rw [hmap]
  refine ⟨fun op hop => ?_, fun w₁ x _ hx => ?_⟩
  · simp only [Op.items, List.map_map, List.mem_map, Function.comp] at hop
    obtain ⟨planned, hmem, rfl⟩ := hop
    obtain ⟨item, hitem, now, hplanned⟩ := forall₂_mem_right hplans hmem
    obtain ⟨heng, hmo⟩ := hstores item hitem
    have hone : planned.p.nseg = 1 := by
      have hpos := (plan_covers _ _ _ _ _ _ hplanned.p).nseg_pos
      have hle := hsingle planned hmem
      omega
    show F.Admits ns set_name k w (.write planned.mwrite)
    rw [hplanned.mwrite]
    exact admits_meta hagree heng hmo hplanned.p pinned now fun hne => absurd hone hne
  · rcases x with exc | recs
    · intro w₂ _ flags h
      cases h
    · intro w₂ hlasts flags h
      cases h
      have htold := stored_batch_told hx
      rw [List.forall₂_map_left_iff] at htold
      rw [List.forall₂_map_right_iff]
      refine forall₂_trans ?_ hplans htold
      intro item planned rec hplanned hwritten hok
      obtain ⟨now, hplanned⟩ := hplanned
      have hdone := hwritten (of_decide_eq_true hok)
      rw [hplanned.mwrite] at hdone
      exact (keyDone_of_told hdone).later hlasts

theorem batched_put_chunk_lasts (hstores : F.Stores eng items) :
    (storedProtocol hagree).Safe (eng.FlagsDone ns set_name k items) w
      (eng.batched_put_chunk pinned items) := by
  apply LastingProtocol.safe_bind _ _ _ (plan_items_lasts items)
  · intro w₁ plans _ hplans
    have hplans := hplans plans rfl
    show (storedProtocol hagree).Safe _ w₁ (if _ then _ else _)
    split_ifs with hany
    · exact put_items_lasts hstores hplans
    · exact put_singles_lasts hstores hplans (single_of_not_any hany)
  · intro w₁ e _ _ flags h
    cases h

theorem batched_put_chunks_lasts {chunks : List (List (Text × MemoryObj))}
    (hstores : F.Stores eng chunks.flatten) :
    (storedProtocol hagree).Safe (eng.FlagsDone ns set_name k chunks.flatten) w
      (eng.batched_put_chunks pinned chunks) := by
  induction chunks generalizing w with
  | nil =>
    intro w' _ flags h
    cases h
    exact .nil
  | cons chunk chunks ih =>
    simp only [List.flatten_cons, Fleet.Stores, List.forall_mem_append] at hstores
    apply LastingProtocol.safe_bind _ _ _ (batched_put_chunk_lasts hstores.1)
    · intro w₁ results _ hresults
      apply LastingProtocol.safe_bind _ _ _ (ih hstores.2)
      · intro w₂ rest hlasts hrest w₃ hlasts' flags h
        cases h
        rw [List.flatten_cons]
        exact List.rel_append ((hresults.later (hlasts.trans hlasts')) results rfl)
          (hrest.later hlasts' rest rfl)
      · intro w₂ e _ _ flags h
        cases h
    · intro w₁ e _ _ flags h
      cases h

/-- **A batch has committed the items whose flag is set.** -/
theorem batched_put_lasts (hstores : F.Stores eng items) :
    (storedProtocol hagree).Safe (eng.FlagsDone ns set_name k items) w
      (eng.batched_put items pinned) := by
  unfold Engine.batched_put
  split_ifs with hnil
  · subst hnil
    intro w' _ flags h
    cases h
    exact .nil
  · have hflat := flatten_chunked items (show 0 < Engine.BATCH_KEYS_CHUNK by decide)
    rw [← hflat] at hstores
    have hchunks : (storedProtocol hagree).Safe _ w (eng.batched_put_chunks pinned _) :=
      batched_put_chunks_lasts hstores
    rw [hflat] at hchunks
    apply LastingProtocol.safe_tryCatch _ _ _ hchunks
    · exact fun _ _ _ h => h
    · exact fun _ e _ _ => reraise_lasts (fun _ _ _ h => by cases h) _ _ e

end BatchedPut

/-! ## The native write -/

section NativeSet

variable {hagree : F.CutsAgree ns set_name k} {conn : NativeConnector} {key ck : Text}
  {pl : ShardPlan} {w : World}

/-- The plan of a connector is one of its cuts. -/
theorem cut_of_set (hconn : F.connectors conn) (hnative : F.NativeKey conn key ck)
    (hplan : conn.limits.plan (F.payload ck).length = .ok pl)
    (hkey : meta_key conn.ns conn.set_name ck = meta_key ns set_name k) :
    F.Cut ns set_name k pl := by
  have hns : conn.ns = ns := congrArg Key.ns hkey
  have hset : conn.set_name = set_name := congrArg Key.set_name hkey
  obtain rfl := meta_key_inj hkey
  exact .native conn key hconn hns hset hnative hplan

/-- A native segment may be written at any time. -/
theorem alwaysAdmits_native_segment (hconn : F.connectors conn) (hnative : F.NativeKey conn key ck)
    (hplan : conn.limits.plan (F.payload ck).length = .ok pl) (hn : pl.nseg ≠ 1) {i : ℕ}
    (hi : i < pl.nseg) :
    F.AlwaysAdmits ns set_name k
      (.write (conn.native_segment_write ck pl (F.payload ck) i)) := by
  intro w
  refine ⟨.native conn key ck hconn hnative (.write_segment rfl hplan hn hi),
    fun key' hkey => (by cases hkey), ?_⟩
  intro wr pl' hwr hkey
  cases hwr
  have hwkey : (conn.native_segment_write ck pl (F.payload ck) i).key
      = segment_key conn.ns conn.set_name ck i := (hnative.addresses hconn).segment_eq i
  rw [hwkey] at hkey
  exact (meta_key_ne_segment_key _ _ _ _ _ _ _ hkey.symm).elim

/-- The native meta record may be written once the pieces that it counts are. -/
theorem admits_native_meta (hagree : F.CutsAgree ns set_name k) (hconn : F.connectors conn)
    (hnative : F.NativeKey conn key ck)
    (hplan : conn.limits.plan (F.payload ck).length = .ok pl) (now : ℕ)
    (hpieces : pl.nseg ≠ 1 →
      PiecesDone F (meta_key conn.ns conn.set_name ck) ns set_name k pl pl.nseg w) :
    F.Admits ns set_name k w (.write (conn.native_meta_write (meta_user_key ck) pl
      (F.payload ck).length (if pl.nseg = 1 then some (F.payload ck) else none) now)) := by
  refine ⟨.native conn key ck hconn hnative (.write_meta rfl hplan),
    fun key' hkey => (by cases hkey), ?_⟩
  intro wr pl' hwr hkey hcut hn hops
  cases hwr
  have hwkey : (conn.native_meta_write (meta_user_key ck) pl (F.payload ck).length
      (if pl.nseg = 1 then some (F.payload ck) else none) now).key
      = meta_key conn.ns conn.set_name ck := (hnative.addresses hconn).meta_eq
  rw [hwkey] at hkey
  have hsame : pl'.nseg = pl.nseg := by
    simp only [NativeConnector.native_meta_write] at hops
    split_ifs at hops <;> simpa using hops
  have hne : pl.nseg ≠ 1 := by rwa [← hsame]
  obtain rfl := hagree pl pl' (cut_of_set hconn hnative hplan hkey) hcut hne hn
  exact hpieces hne hkey

/-- Writing the meta record, at last. -/
theorem put_meta_record_lasts (hconn : F.connectors conn) (hnative : F.NativeKey conn key ck)
    (hplan : conn.limits.plan (F.payload ck).length = .ok pl)
    (hpieces : pl.nseg ≠ 1 →
      PiecesDone F (meta_key conn.ns conn.set_name ck) ns set_name k pl pl.nseg w) :
    (storedProtocol hagree).Safe
      (fun w r => r = .ok () → KeyDone (meta_key conn.ns conn.set_name ck) ns set_name k w) w
      (conn.put_meta_record (meta_user_key ck) pl (F.payload ck).length
        (if pl.nseg = 1 then some (F.payload ck) else none)) := by
  have hclock : F.QuietOp ns set_name k .clock :=
    quiet_of_neither (.native conn key ck hconn hnative .clock) (by simp) (by simp)
  refine ⟨stored_good_single rfl (hclock.alwaysAdmits w), fun w₁ now hlasts _ => ?_⟩
  have hadmits := admits_native_meta hagree hconn hnative hplan now fun hne hkey i hi =>
    hlasts.pieces pl i (cut_of_set hconn hnative hplan hkey) hne hi (hpieces hne hkey i hi)
  refine ⟨stored_good_single rfl hadmits, fun w₂ x _ hx => ?_⟩
  rcases x with exc | u
  · intro w₃ _ hok
    cases hok
  · intro w₃ hlasts' _ hkey
    have htold := stored_put_told hx
    refine hlasts'.committed (htold.commit (.str "ready") ?_ ?_)
    · exact ((hnative.addresses hconn).meta_eq).trans hkey
    · simp [NativeConnector.native_meta_write]

/-- The loop over the segments, the first `i` of which are written. -/
theorem set_segments_lasts (hconn : F.connectors conn) (hnative : F.NativeKey conn key ck)
    (hplan : conn.limits.plan (F.payload ck).length = .ok pl) (hn : pl.nseg ≠ 1) {i n : ℕ}
    (hi : i + n ≤ pl.nseg)
    (hpieces : PiecesDone F (meta_key conn.ns conn.set_name ck) ns set_name k pl i w) :
    (storedProtocol hagree).Safe
      (fun w r => r = .ok () →
        PiecesDone F (meta_key conn.ns conn.set_name ck) ns set_name k pl (i + n) w) w
      (conn.set_segments ck pl (F.payload ck) (F.payload ck).length i n) := by
  have hstays : ∀ {w w' : World} {m : ℕ}, m ≤ pl.nseg → F.Lasts ns set_name k w w' →
      PiecesDone F (meta_key conn.ns conn.set_name ck) ns set_name k pl m w →
      PiecesDone F (meta_key conn.ns conn.set_name ck) ns set_name k pl m w' :=
    fun hm hlasts h hkey j hj => hlasts.pieces pl j (cut_of_set hconn hnative hplan hkey) hn
      (by omega) (h hkey j hj)
  induction n generalizing i w with
  | zero => exact fun w' hlasts _ => hstays (by omega) hlasts hpieces
  | succ n ih =>
    refine ⟨stored_good_single rfl
      (alwaysAdmits_native_segment hconn hnative hplan hn (by omega) w), fun w₁ x hlasts hx => ?_⟩
    rcases x with exc | u
    · intro w₂ _ hok
      cases hok
    · have htold := stored_put_told hx
      rw [show i + (n + 1) = i + 1 + n by omega]
      refine ih (by omega) fun hkey j hj => ?_
      rcases Nat.lt_succ_iff_lt_or_eq.mp hj with hlt | rfl
      · exact hstays (by omega) hlasts hpieces hkey j hlt
      · have hns : conn.ns = ns := congrArg Key.ns hkey
        have hset : conn.set_name = set_name := congrArg Key.set_name hkey
        refine htold.piece pl j ?_ (cut_of_set hconn hnative hplan hkey) hn (by omega)
        obtain rfl := meta_key_inj hkey
        have hwkey := (hnative.addresses hconn).segment_eq j
        rwa [hns, hset] at hwkey

/-- **A native write that returns has committed the key.** -/
theorem set_lasts (hconn : F.connectors conn) (hnative : F.NativeKey conn key ck) :
    (storedProtocol hagree).Safe
      (fun w r => r = .ok () → KeyDone (meta_key conn.ns conn.set_name ck) ns set_name k w) w
      (conn.do_single_set key (F.payload ck)) := by
  rcases hplan : conn.limits.plan (F.payload ck).length with e | pl
  · have hraise : conn.do_single_set key (F.payload ck) = .raise e := by
      unfold NativeConnector.do_single_set
      dsimp only
      rw [hnative.reads, hplan]
      rfl
    rw [hraise]
    intro w' _ hok
    cases hok
  · rw [do_single_set_planned hnative.reads hplan]
    by_cases hn : pl.nseg = 1
    · have hmeta : (storedProtocol hagree).Safe _ w _ :=
        put_meta_record_lasts hconn hnative hplan fun hne => absurd hn hne
      rw [if_pos hn] at hmeta ⊢
      exact hmeta
    · rw [if_neg hn]
      apply LastingProtocol.safe_bind _ _ _
        (set_segments_lasts hconn hnative hplan hn (by omega) fun _ j hj => absurd hj (by omega))
      · intro w₁ u _ hpieces
        have hmeta : (storedProtocol hagree).Safe _ w₁ _ :=
          put_meta_record_lasts hconn hnative hplan fun _ => by simpa using hpieces rfl
        rwa [if_neg hn] at hmeta
      · intro w₁ e _ _ hok
        cases hok

end NativeSet

end FleetWrites
