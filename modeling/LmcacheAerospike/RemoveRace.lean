/-
# A put that races a removal

A put of several segments writes them and then the meta record; a removal reads the number of
segments, removes the meta record and then the segments.  Puts and removals of one key may
interleave.  A removal that takes a segment away after a put has written it leaves a meta record
whose object is not whole, for good (`put_remove_unreadable`).  When no segment is taken away
while the meta record is there or a put is on its way to it, unless another put is still to
write that segment, the key is whole or absent once no operation runs (`put_remove_whole`).
-/
import LmcacheAerospike.CommitLast
import LmcacheAerospike.EngineRuns
import LmcacheAerospike.ReadBack

/-! ## The system -/

/-- Puts of `p` under `k` and removals of `k`, by engines with the limits `L`. -/
def Racing (L : ResolvedLimits) (k : Text) (p : Bytes) : ClientOp → Prop
  | .put eng ck mo _ => ck = k ∧ mo.byte_array = p ∧ eng.resolved = L
  | .remove eng ck => ck = k ∧ eng.resolved = L
  | _ => False

abbrev RacePool := Pool faultless ClientOp PyExc OpResult

/-- A step that takes no operation away before its end. -/
def RaceStep (L : ResolvedLimits) (k : Text) (p : Bytes) (c c' : RacePool) : Prop :=
  Pool.Step TimePasses ClientOp.prog (Racing L k p) c c' ∧ c.threads.length ≤ c'.threads.length

/-- **The condition**: the step takes a segment of `k` away only while the meta record is absent
and no put that has written the segment is on its way to it, or some put is still to write the
segment. -/
def SparesNeeded (k : Text) (c c' : RacePool) : Prop :=
  ∀ ns set_name i, c.Spared c' (meta_key ns set_name k) (segment_key ns set_name k i)

/-- A step that meets the condition. -/
def SparingStep (L : ResolvedLimits) (k : Text) (p : Bytes) (c c' : RacePool) : Prop :=
  SparesNeeded k c c' ∧ RaceStep L k p c c'

/-- The bins of a meta record that a put of `p` has written. -/
structure MetaOf (p : Bytes) (pl : ShardPlan) (bins : Bins) : Prop where
  state : bins .state = some (.str "ready")
  nseg : bins .nseg = some (.int pl.nseg)
  inline : pl.nseg = 1 → bins .b = some (.blob p)
  crc32 : ∀ v, bins .crc32 = some v → v = .int (crc32 p)

/-- **The key is whole or absent**, under every namespace and set: there is no meta record, or
all segments that it names are there and hold the pieces of `p`. -/
def WholeOrAbsent (L : ResolvedLimits) (k : Text) (p : Bytes) (w : World) : Prop :=
  ∀ ns set_name, w.records (meta_key ns set_name k) = none ∨
    ∃ pl bins, L.shard_plan p.length = .ok pl ∧ MetaOf p pl bins ∧
      w.Holds ns set_name k (pl.pieces p) bins

/-! ## What the operations write -/

section Programs

variable {eng : Engine} {mo : MemoryObj} {pinned : Bool} {ns set_name k : Text} {pl : ShardPlan}

/-- A removal writes nothing. -/
theorem remove_writeless (ck : Text) :
    (eng.remove ck).AllCalls fun o => ∀ wr, RecOp.write wr ∉ o.items := by
  have hrecords : ∀ nseg, (eng.remove_records ck nseg).AllCalls
      fun o => ∀ wr, RecOp.write wr ∉ o.items := by
    intro nseg
    refine ⟨?_, fun x => ?_⟩
    · simp [Op.items]
    · cases x with
      | error exc =>
        show Prog.AllCalls _ (if _ then _ else _)
        split_ifs <;> trivial
      | ok u =>
        show Prog.AllCalls _ (if _ then _ else _)
        split_ifs
        · refine ⟨?_, fun _ => trivial⟩
          simp [Op.items, BatchOp.toRecOp]
        · trivial
  refine ⟨?_, fun x => ?_⟩
  · simp [Op.items]
  · cases x with
    | error exc =>
      show Prog.AllCalls _ (if _ then _ else _)
      split_ifs
      · trivial
      · exact hrecords 1
    | ok bins =>
      dsimp only [Prog.ret_bind]
      cases bins .nseg with
      | none => exact hrecords 1
      | some value =>
        exact Prog.allCalls_bind _ _ (Prog.allCalls_ofExcept _) fun nseg => hrecords nseg

theorem remove_spares (ck : Text) (key : Key) : (eng.remove ck).Spares key :=
  Prog.allCalls_mono (fun _ ho ⟨wr, hmem, _⟩ => ho wr hmem) _ (remove_writeless ck)

/-- The meta write of a put spares all other keys. -/
theorem put_meta_spares (wr : Write) {key : Key} (h : wr.key ≠ key) :
    (raising (client_put wr)).Spares key :=
  allCalls_raising (fun hw => h (Op.writes_put.mp hw)) fun _ => trivial

/-- The segment writes of a put. -/
theorem batch_write_spares (writes : List Write) {key : Key} (h : key ∉ writes.map Write.key) :
    (raising (client_batch_write (writes.map .write))).Spares key :=
  allCalls_raising (fun hw => h (Op.writes_batch_write.mp hw)) fun _ => trivial

theorem put_writesLast (k : Text) (mo : MemoryObj) (pinned : Bool) (ns set_name : Text) (i : ℕ) :
    (eng.put k mo pinned).WritesLast (meta_key ns set_name k) (segment_key ns set_name k i) := by
  cases hplan : eng.resolved.shard_plan mo.byte_array.length with
  | error e =>
    unfold Engine.put
    rw [hplan]
    trivial
  | ok pl =>
    rw [put_planned hplan]
    refine ⟨fun ho => ?_, fun now => Prog.WritesLast.tryCatch ?_ (reraise_calls _ _ _)⟩
    · simp [Op.Writes, Op.items] at ho
    have hmeta : (raising (client_put (eng.meta_write k mo pl pinned now))).Spares
        (segment_key ns set_name k i) :=
      put_meta_spares _ (meta_key_ne_segment_key _ _ _ _ _ _ _)
    unfold Engine.put_records
    split_ifs with hn
    · exact Prog.writesLast_of_spares_other hmeta
    · refine Prog.WritesLast.bind (Prog.writesLast_of_spares_last (batch_write_spares _ ?_)) ?_
      · rw [segment_writes_keys]
        intro hmem
        obtain ⟨j, -, hj⟩ := List.mem_map.mp hmem
        exact meta_key_ne_segment_key _ _ _ _ _ _ _ hj.symm
      · exact fun recs => Prog.allCalls_bind _ _ (Prog.allCalls_ofExcept _) fun _ => hmeta

/-- A put writes each of its segments. -/
theorem put_willWrite (hplan : eng.resolved.shard_plan mo.byte_array.length = .ok pl)
    (hn : pl.nseg ≠ 1) {i : ℕ} (hi : i < pl.nseg) :
    (eng.put k mo pinned).WillWrite (eng.segmentKey k i) := by
  rw [put_planned hplan]
  refine Or.inr fun now => Prog.WillWrite.tryCatch ?_ _
  unfold Engine.put_records
  rw [if_neg hn]
  refine Prog.WillWrite.bind (Prog.WillWrite.bind (p := client_batch_write _) (Or.inl ?_) _) _
  rw [Op.writes_batch_write, segment_writes_keys]
  exact List.mem_map.mpr ⟨i, List.mem_range.mpr hi, rfl⟩

/-- A put writes no meta record but its own. -/
theorem put_spares (h : eng.metaKey k ≠ meta_key ns set_name k) :
    (eng.put k mo pinned).Spares (meta_key ns set_name k) := by
  refine Prog.allCalls_mono (fun o ho => ?_) _ (put_calls (K := fun _ => False)
    (P := fun ck _ => ck = k) k mo pinned rfl)
  rintro ⟨wr, hmem, hkey⟩
  cases ho _ hmem with
  | of_read hr => cases hr
  | write_segment => exact meta_key_ne_segment_key _ _ _ _ _ _ _ hkey.symm
  | write_meta hp =>
    subst hp
    exact h hkey
  | write_pin hf => exact hf

/-- A put that may write the meta record will write its segments. -/
theorem put_commits (hplan : eng.resolved.shard_plan mo.byte_array.length = .ok pl)
    (hn : pl.nseg ≠ 1) {i : ℕ} (hi : i < pl.nseg)
    (h : (eng.put k mo pinned).MayWrite (meta_key ns set_name k)) :
    (eng.put k mo pinned).WillWrite (segment_key ns set_name k i) := by
  by_cases hkey : eng.metaKey k = meta_key ns set_name k
  · have hns : eng.cfg.ns = ns := congrArg Key.ns hkey
    have hset : eng.cfg.set_name = set_name := congrArg Key.set_name hkey
    rw [← hns, ← hset]
    exact put_willWrite hplan hn hi
  · exact absurd h (Prog.not_mayWrite_of_spares (put_spares hkey))

end Programs

/-! ## What the records are -/

section Race

variable {L : ResolvedLimits} {k : Text} {p : Bytes}

/-- The operations of the race: those of a put of `p`, and those that write nothing. -/
def RaceOp (L : ResolvedLimits) (k : Text) (p : Bytes) (op : RecOp) : Prop :=
  (∃ eng : Engine, eng.resolved = L ∧
    EngineRecOp eng (fun _ => False) (fun ck mo => ck = k ∧ mo.byte_array = p) op) ∨
    ∀ wr, op ≠ .write wr

/-- Every record under a meta key of `k` is one that a put of `p` has written. -/
def RaceRecord (L : ResolvedLimits) (k : Text) (p : Bytes) (key : Key) (bins : Bins) : Prop :=
  ∀ ns set_name, key = meta_key ns set_name k →
    ∃ pl, L.shard_plan p.length = .ok pl ∧ MetaOf p pl bins

theorem raceRecord_kept :
    KeepsRecords (RaceRecord L k p) (fun _ _ => True) (RaceOp L k p) := by
  rintro wr w (⟨eng, hlim, hop⟩ | hno) - hold
  · cases hop with
    | of_read hr => cases hr
    | write_segment =>
      intro ns set_name hkey
      exact (meta_key_ne_segment_key _ _ _ _ _ _ _ hkey.symm).elim
    | @write_meta ck mo pl pinned now hput hplan =>
      obtain ⟨rfl, rfl⟩ := hput
      rw [hlim] at hplan
      intro ns set_name hkey
      refine ⟨pl, hplan, meta_write_bins mo pl pinned now .state,
        meta_write_bins mo pl pinned now .nseg, fun hn => ?_, fun v hv => ?_⟩
      · exact (meta_write_bins mo pl pinned now .b).trans (if_pos hn)
      · rw [meta_write_bins mo pl pinned now .crc32] at hv
        dsimp only at hv
        split_ifs at hv
        · exact (Option.some.inj hv).symm
        · -- an old bin, which a put of the same payload has written
          cases hr : w.records (eng.meta_write ck mo pl pinned now).key with
          | none =>
            rw [hr] at hv
            cases hv
          | some r =>
            rw [hr] at hv
            obtain ⟨pl', -, hmeta⟩ := hold r hr ns set_name hkey
            exact hmeta.crc32 v hv
    | write_pin hf => exact hf.elim
  · exact absurd rfl (hno wr)

/-- The protocol of the meta records. -/
def raceProtocol (L : ResolvedLimits) (k : Text) (p : Bytes) : Protocol faultless TimePasses :=
  Protocol.itemwise (World.Each (RaceRecord L k p)) (RaceOp L k p) (fun _ _ => True)
    (fun {w w'} henv h => by
      obtain ⟨t, -, rfl⟩ := henv
      exact h)
    (fun {op w r w'} hop h hd => by
      refine ⟨?_, trivial⟩
      rw [show w' = (op.perform w).2 from congrArg Prod.snd hd]
      exact perform_each raceRecord_kept hop trivial h)

theorem race_safe (op : ClientOp) (hop : Racing L k p op) :
    (raceProtocol L k p).Safe (fun _ => True) op.prog := by
  refine Protocol.safe_of_allCalls _ (fun _ => trivial) _ ?_
  cases op with
  | put eng ck mo pinned =>
    obtain ⟨rfl, rfl, hlim⟩ := hop
    refine Prog.allCalls_bind _ _ ?_ fun _ => trivial
    refine Prog.allCalls_mono (fun o ho i hi => ?_) _ (put_calls (K := fun _ => False)
      (P := fun ck' mo' => ck' = ck ∧ mo'.byte_array = mo.byte_array) ck mo pinned ⟨rfl, rfl⟩)
    exact Or.inl ⟨eng, hlim, ho i hi⟩
  | remove eng ck =>
    refine Prog.allCalls_bind _ _ ?_ fun _ => trivial
    refine Prog.allCalls_mono (fun o ho i hi => Or.inr fun wr hwr => ?_) _ (remove_writeless ck)
    rw [hwr] at hi
    exact ho wr hi
  | _ => exact hop.elim

/-! ## The invariant of the race -/

/-- The bins of a segment record that a put of `p` has written. -/
def SegmentOf (p : Bytes) (pl : ShardPlan) (i : ℕ) (bins : Bins) : Prop :=
  bins .b = some (.blob (slice pl.seg_b i p))

/-- **The invariant**: meta records are those of puts, every thread goes on as a put or a removal
does, and where somebody relies on a segment, it is there or still to be written. -/
structure RaceInv (L : ResolvedLimits) (k : Text) (p : Bytes) (c : RacePool) : Prop where
  metas : c.state.Each (RaceRecord L k p)
  threads : ∀ t ∈ c.threads, (raceProtocol L k p).ThreadOk (fun _ _ => True) t
  ordered : ∀ ns set_name i, ∀ t ∈ c.threads,
    t.WritesLast (meta_key ns set_name k) (segment_key ns set_name k i)
  ready : ∀ pl, L.shard_plan p.length = .ok pl → pl.nseg ≠ 1 → ∀ ns set_name i, i < pl.nseg →
    c.Ready (meta_key ns set_name k) (segment_key ns set_name k i) (SegmentOf p pl i)

theorem racing_writesLast {op : ClientOp} (hop : Racing L k p op) (ns set_name : Text) (i : ℕ) :
    op.prog.WritesLast (meta_key ns set_name k) (segment_key ns set_name k i) := by
  cases op with
  | put eng ck mo pinned =>
    obtain ⟨rfl, -, -⟩ := hop
    exact (put_writesLast ck mo pinned ns set_name i).bind fun _ => trivial
  | remove eng ck =>
    exact (Prog.writesLast_of_spares_other (remove_spares ck _)).bind fun _ => trivial
  | _ => exact hop.elim

/-- An operation that may write the meta record will write all segments. -/
theorem racing_commits {op : ClientOp} (hop : Racing L k p op) {pl : ShardPlan}
    (hplan : L.shard_plan p.length = .ok pl) (hn : pl.nseg ≠ 1) {ns set_name : Text} {i : ℕ}
    (hi : i < pl.nseg) (h : op.prog.MayWrite (meta_key ns set_name k)) :
    op.prog.WillWrite (segment_key ns set_name k i) := by
  cases op with
  | put eng ck mo pinned =>
    obtain ⟨rfl, rfl, rfl⟩ := hop
    rcases Prog.mayWrite_bind h with hput | ⟨a, ha⟩
    · exact (put_commits hplan hn hi hput).bind _
    · exact ha.elim
  | remove eng ck =>
    rcases Prog.mayWrite_bind h with hremove | ⟨a, ha⟩
    · exact absurd hremove (Prog.not_mayWrite_of_spares (remove_spares ck _))
    · exact ha.elim
  | _ => exact hop.elim

/-- What is written to a segment of `k` is its piece of `p`. -/
theorem raceOp_writes {wr : Write} (h : RaceOp L k p (.write wr)) {pl : ShardPlan}
    (hplan : L.shard_plan p.length = .ok pl) {ns set_name : Text} {i : ℕ}
    (hkey : wr.key = segment_key ns set_name k i) (now : ℕ) (old : Option Record) :
    SegmentOf p pl i (wr.applyTo now old).bins := by
  rcases h with ⟨eng, hlim, hop⟩ | hno
  · cases hop with
    | of_read hr => cases hr
    | @write_segment ck mo p' ttl j hput hplan' _ _ =>
      obtain ⟨rfl, rfl⟩ := hput
      rw [hlim, hplan] at hplan'
      obtain rfl := Except.ok.inj hplan'
      obtain ⟨-, rfl⟩ := segment_key_inj hkey
      exact segment_write_b
    | write_meta => exact (meta_key_ne_segment_key _ _ _ _ _ _ _ hkey).elim
    | write_pin hf => exact hf.elim
  · exact absurd rfl (hno wr)

/-- **Every step that meets the condition keeps the invariant.** -/
theorem RaceInv.step {c c' : RacePool} (h : RaceInv L k p c) (hspared : SparesNeeded k c c')
    (hstep : RaceStep L k p c c') : RaceInv L k p c' := by
  obtain ⟨hpool, hcrash⟩ := hstep
  obtain ⟨hmetas, hthreads⟩ :=
    (raceProtocol L k p).step_ok race_safe hpool h.metas h.threads
  refine ⟨hmetas, hthreads, fun ns set_name i => ?_, fun pl hplan hn ns set_name i hi => ?_⟩
  · exact Pool.writesLast_step hpool (fun op hop => racing_writesLast hop ns set_name i)
      (h.ordered ns set_name i)
  · refine (h.ready pl hplan hn ns set_name i hi).step hpool hcrash (hspared ns set_name i)
      (fun op hop => racing_commits hop hplan hn hi) (h.ordered ns set_name i) fun t ht => ?_
    cases t with
    | «at» l q => trivial
    | busy l o sess cont =>
      intro wr hmem hkey
      exact raceOp_writes ((h.threads _ ht).1 _ hmem) hplan hkey

theorem raceInv_start {w : World} (h : WholeOrAbsent L k p w) : RaceInv L k p ⟨w, []⟩ := by
  refine ⟨fun key r hr ns set_name hkey => ?_, by simp, by simp,
    fun pl hplan hn ns set_name i hi hrelies => ?_⟩
  · subst hkey
    rcases h ns set_name with hnone | ⟨pl, bins, hplan, hmeta, hholds⟩
    · rw [show w.records _ = some r from hr] at hnone
      cases hnone
    · obtain ⟨r', hr', rfl⟩ := hholds.found
      obtain rfl : r = r' := Option.some.inj (hr.symm.trans hr')
      exact ⟨pl, hplan, hmeta⟩
  · left
    rcases hrelies with hsome | ⟨t, ht, -⟩
    · rcases h ns set_name with hnone | ⟨pl', bins, hplan', -, hholds⟩
      · rw [show w.records _ = none from hnone] at hsome
        cases hsome
      · rw [hplan] at hplan'
        obtain rfl := Except.ok.inj hplan'
        obtain ⟨r, hr, hb⟩ := hholds.segment (by rwa [pl.length_pieces]) i
          (by rwa [pl.length_pieces])
        refine ⟨r, hr, ?_⟩
        rw [SegmentOf, hb]
        simp [ShardPlan.pieces]
    · cases ht

/-- The invariant holds in every run whose steps meet the condition. -/
theorem raceInv_run {w : World} (hw : WholeOrAbsent L k p w) {c : RacePool}
    (hrun : Relation.ReflTransGen (SparingStep L k p) ⟨w, []⟩ c) : RaceInv L k p c := by
  induction hrun with
  | refl => exact raceInv_start hw
  | tail _ hstep ih => exact ih.step hstep.1 hstep.2

/-- **Once no operation runs** the key is whole or absent. -/
theorem RaceInv.whole {c : RacePool} (h : RaceInv L k p c) (hended : ∀ t ∈ c.threads, t.Ended) :
    WholeOrAbsent L k p c.state := by
  intro ns set_name
  cases hr : c.state.records (meta_key ns set_name k) with
  | none => exact Or.inl rfl
  | some r =>
    right
    obtain ⟨pl, hplan, hmeta⟩ := h.metas _ r hr ns set_name rfl
    have hcov : pl.Covers p.length := plan_covers _ _ _ _ _ _ hplan
    refine ⟨pl, r.bins, hplan, hmeta, ⟨r, hr, rfl⟩, hmeta.state, ?_, fun hn => ?_,
      fun hn i hi => ?_⟩
    · rw [pl.length_pieces]
      exact hmeta.nseg
    · rw [pl.length_pieces] at hn
      rw [hcov.flatten_pieces]
      exact hmeta.inline hn
    · rw [pl.length_pieces] at hn hi
      obtain ⟨r', hr', hb⟩ := (h.ready pl hplan hn ns set_name i hi).ended hended
        (Option.isSome_iff_exists.mpr ⟨r, hr⟩)
      refine ⟨r', hr', hb.trans ?_⟩
      simp [ShardPlan.pieces]

/-- **A whole key can be read**: when `exists` finds it, a `get` into a buffer with room hits
with `p`. -/
theorem WholeOrAbsent.hit {w : World} (h : WholeOrAbsent L k p w) (eng : Engine)
    (hexists : ((eng.exists_ k).run Op.perform w).1 = .ok true)
    {preallocated : Option MemoryObj} {buf : MemoryObj} {expect_reshape : Bool}
    (hbuf : ∀ r, w.records (eng.metaKey k) = some r →
      eng.receive_buffer r.bins preallocated = .ok (some buf, expect_reshape))
    (hroom : p.length ≤ buf.byte_array.length) (htorch : eng.TorchReads)
    (hne : buf.raw_is_tensor = true → p ≠ [])
    (hshape : expect_reshape = true → ∃ shaped,
      eng.reshape (buf.filledWith p) p.length = .ok shaped ∧
        shaped.byte_array.take p.length = p) :
    ∃ hit, (eng.get k preallocated).run Op.perform w = (.ok (some hit), w) ∧ hit.Fills buf p := by
  rw [run_exists] at hexists
  have hsome : (w.records (eng.metaKey k)).isSome = true := Except.ok.inj hexists
  rcases h eng.cfg.ns eng.cfg.set_name with hnone | ⟨pl, bins, hplan, hmeta, hholds⟩
  · rw [show w.records (eng.metaKey k) = none from hnone] at hsome
    cases hsome
  · have hcov : pl.Covers p.length := plan_covers _ _ _ _ _ _ hplan
    obtain ⟨r, hr, rfl⟩ := hholds.found
    have hflat : (pl.pieces p).flatten = p := hcov.flatten_pieces
    have hread := run_get_hit hholds (hbuf r hr) (.of_covers htorch hcov hroom hne)
      (by
        rw [hflat, crc_matches_iff _ _ hroom]
        intro _ expected hexpected
        rw [hmeta.crc32 expected hexpected, pyEqInt_crc32])
      (by rwa [hflat, List.take_of_length_le hroom])
    rwa [hflat] at hread

end Race

/-- **A put that races removals leaves the key whole or absent**, in every run of any puts of one
payload and removals of one key in which no step takes a segment away that is needed: once no
operation runs, the key is whole or absent, and if `exists` finds it, `get` hits with the
payload. -/
theorem put_remove_whole (L : ResolvedLimits) (k : Text) (p : Bytes) {w : World}
    (hw : WholeOrAbsent L k p w) {c : RacePool}
    (hrun : Relation.ReflTransGen (SparingStep L k p) ⟨w, []⟩ c)
    (hended : ∀ t ∈ c.threads, t.Ended) :
    WholeOrAbsent L k p c.state ∧
      ∀ eng : Engine, ((eng.exists_ k).run Op.perform c.state).1 = .ok true →
        ∀ (preallocated : Option MemoryObj) (buf : MemoryObj) (expect_reshape : Bool),
          (∀ r, c.state.records (eng.metaKey k) = some r →
            eng.receive_buffer r.bins preallocated = .ok (some buf, expect_reshape)) →
          p.length ≤ buf.byte_array.length → eng.TorchReads →
          (buf.raw_is_tensor = true → p ≠ []) →
          (expect_reshape = true → ∃ shaped,
            eng.reshape (buf.filledWith p) p.length = .ok shaped ∧
              shaped.byte_array.take p.length = p) →
          ∃ hit, (eng.get k preallocated).run Op.perform c.state = (.ok (some hit), c.state) ∧
            hit.Fills buf p := by
  have hwhole := (raceInv_run hw hrun).whole hended
  refine ⟨hwhole, fun eng hexists preallocated buf expect_reshape hbuf hroom => ?_⟩
  exact hwhole.hit eng hexists hbuf hroom

/-- Conversely, a step that breaks the condition takes a segment away that somebody relies on
and nobody is to write. -/
theorem segment_lost {L : ResolvedLimits} {k : Text} {p : Bytes} {c c' : RacePool}
    (hstep : RaceStep L k p c c') (h : ¬ SparesNeeded k c c') : ∃ ns set_name i,
      c'.Relies (meta_key ns set_name k) (segment_key ns set_name k i) ∧
        c'.state.records (segment_key ns set_name k i) = none ∧
        ¬ c'.Due (segment_key ns set_name k i) := by
  unfold SparesNeeded at h
  simp only [not_forall] at h
  obtain ⟨ns, set_name, i, h⟩ := h
  exact ⟨ns, set_name, i,
    Pool.lost_of_not_spared hstep.1 (meta_key_ne_segment_key _ _ _ _ _ _ _) h⟩

/-! ## Operations that run alone -/

section Alone

variable {L : ResolvedLimits} {k : Text} {p : Bytes} {G : RacePool → RacePool → Prop}
  {f b : List (Thread faultless ClientOp PyExc OpResult)}

/-- The guard allows the operations of one thread while the threads `f` and `b` stand still. -/
def Allows (G : RacePool → RacePool → Prop)
    (f b : List (Thread faultless ClientOp PyExc OpResult)) (o : Op) : Prop :=
  ∀ i ∈ o.items, ∀ σ t t', G ⟨σ, f ++ t :: b⟩ ⟨(i.perform σ).2, f ++ t' :: b⟩

/-- **One call alone**: its operations are performed in list order. -/
theorem races_of_call (hsame : ∀ σ t t', G ⟨σ, f ++ t :: b⟩ ⟨σ, f ++ t' :: b⟩)
    (l : ClientOp) (o : Op) (cont : o.Res → EngineM OpResult) (σ : World) (ho : Allows G f b o) :
    Relation.ReflTransGen (fun c c' => G c c' ∧ RaceStep L k p c c')
      ⟨σ, f ++ .at l (.call o cont) :: b⟩
      ⟨(o.perform σ).2, f ++ .at l (cont (o.perform σ).1) :: b⟩ := by
  have hlen : ∀ t t' : Thread faultless ClientOp PyExc OpResult,
      (f ++ t :: b).length ≤ (f ++ t' :: b).length := by
    intro t t'
    simp
  have hmicros : faultless.Micros o (o.items.map fun _ => none, σ)
      ((performAll o.items σ).1.map some, (performAll o.items σ).2) :=
    Device.itemwise_micros (doesAll_faultless o.items σ)
  have hserved : ∀ {a a' : List (Option RecRes) × World}, faultless.Micros o a a' →
      Relation.ReflTransGen (fun c c' => G c c' ∧ RaceStep L k p c c')
        ⟨a.2, f ++ .busy l o a.1 cont :: b⟩ ⟨a'.2, f ++ .busy l o a'.1 cont :: b⟩ := by
    intro a a' h
    induction h with
    | refl => exact Relation.ReflTransGen.refl
    | tail _ hm ih =>
      refine ih.tail ⟨?_, Pool.Step.micro l o _ _ cont hm, hlen _ _⟩
      obtain ⟨n, i, r, hi, -, -, hperform⟩ := hm
      rw [show _ = (i.perform _).2 from congrArg Prod.snd hperform]
      exact ho i (List.mem_of_getElem? hi) _ _ _
  have hbegin : RaceStep L k p ⟨σ, f ++ .at l (.call o cont) :: b⟩
      ⟨σ, f ++ .busy l o (o.items.map fun _ => none) cont :: b⟩ :=
    ⟨Pool.Step.begin l o cont, hlen _ _⟩
  have hfinish : RaceStep L k p
      ⟨(performAll o.items σ).2, f ++ .busy l o ((performAll o.items σ).1.map some) cont :: b⟩
      ⟨(performAll o.items σ).2, f ++ .at l (cont (o.perform σ).1) :: b⟩ :=
    ⟨Pool.Step.finish l o _ cont _ (Or.inl ⟨_, rfl, rfl⟩), hlen _ _⟩
  exact .head ⟨hsame _ _ _, hbegin⟩ ((hserved hmicros).tail ⟨hsame _ _ _, hfinish⟩)

/-- **One program alone**, from where it is to its end. -/
theorem races_of_run (hsame : ∀ σ t t', G ⟨σ, f ++ t :: b⟩ ⟨σ, f ++ t' :: b⟩) (l : ClientOp)
    (q : EngineM OpResult) (hq : q.AllCalls (Allows G f b)) (σ : World) :
    Relation.ReflTransGen (fun c c' => G c c' ∧ RaceStep L k p c c') ⟨σ, f ++ .at l q :: b⟩
      ⟨(q.run Op.perform σ).2, f ++ .at l (.ofExcept (q.run Op.perform σ).1) :: b⟩ := by
  induction q generalizing σ with
  | ret a => exact Relation.ReflTransGen.refl
  | raise e => exact Relation.ReflTransGen.refl
  | call o cont ih =>
    exact (races_of_call hsame l o cont σ hq.1).trans (ih _ (hq.2 _) _)

/-- An operation begins. -/
theorem races_of_spawn (op : ClientOp) {σ : World}
    {ts : List (Thread faultless ClientOp PyExc OpResult)}
    (hG : G ⟨σ, ts⟩ ⟨σ, .at op op.prog :: ts⟩) (hop : Racing L k p op) :
    Relation.ReflTransGen (fun c c' => G c c' ∧ RaceStep L k p c c')
      ⟨σ, ts⟩ ⟨σ, .at op op.prog :: ts⟩ :=
  .single ⟨hG, Pool.Step.spawn op hop, Nat.le_succ _⟩

end Alone

/-! ## Operations that meet the condition -/

section Sparing

variable {k : Text} {c c' : RacePool} {i : RecOp}
  {f b : List (Thread faultless ClientOp PyExc OpResult)}

/-- Operations that remove no segment of the key meet the condition. -/
theorem sparesNeeded_of_not_removed (hstate : c'.state = (i.perform c.state).2)
    (h : ∀ ns set_name j, i ≠ .remove (segment_key ns set_name k j)) : SparesNeeded k c c' := by
  intro ns set_name j hsome hnone
  rw [hstate] at hnone
  exact absurd (perform_gone hsome hnone) (h ns set_name j)

theorem sparesNeeded_of_same (hstate : c'.state = c.state) : SparesNeeded k c c' := by
  intro ns set_name j hsome hnone
  rw [hstate] at hnone
  rw [hnone] at hsome
  cases hsome

theorem allows_of_not_removed {o : Op}
    (h : ∀ i ∈ o.items, ∀ ns set_name j, i ≠ .remove (segment_key ns set_name k j)) :
    Allows (SparesNeeded k) f b o :=
  fun i hi _ _ _ => sparesNeeded_of_not_removed (i := i) rfl (h i hi)

/-- The operations of a put remove nothing. -/
theorem put_op_ne_remove {eng : Engine} {P : Text → MemoryObj → Prop}
    (h : EngineRecOp eng (fun _ => False) P i) (key : Key) : i ≠ .remove key := by
  rintro rfl
  cases h with
  | of_read hr => cases hr
  | remove_meta hf => exact hf
  | remove_segment hf => exact hf

/-- A put meets the condition. -/
theorem put_allows (eng : Engine) (ck : Text) (mo : MemoryObj) (pinned : Bool) :
    (ClientOp.put eng ck mo pinned).prog.AllCalls (Allows (SparesNeeded k) f b) := by
  refine Prog.allCalls_bind _ _ ?_ fun _ => trivial
  refine Prog.allCalls_mono (fun o ho => ?_) _ (put_calls (K := fun _ => False)
    (P := fun _ _ => True) ck mo pinned trivial)
  exact allows_of_not_removed fun i hi _ _ _ => put_op_ne_remove (ho i hi) _

/-- So does a removal up to its segments. -/
theorem select_allows (key : Key) (bins : List BinName) :
    Allows (SparesNeeded k) f b (.select key bins) := by
  refine allows_of_not_removed fun i hi ns set_name j hremove => ?_
  rw [hremove] at hi
  simp [Op.items] at hi

theorem remove_meta_allows (ns set_name ck : Text) :
    Allows (SparesNeeded k) f b (.remove (meta_key ns set_name ck)) := by
  refine allows_of_not_removed fun i hi _ _ j hremove => ?_
  rw [hremove] at hi
  exact meta_key_ne_segment_key _ _ _ _ _ _ _ (RecOp.remove.inj (List.mem_singleton.mp hi)).symm

/-- The segments may be removed while a put that has just begun is still to write them. -/
theorem remove_segments_allows {eng : Engine} {mo : MemoryObj} {pinned : Bool} {pl : ShardPlan}
    (hplan : eng.resolved.shard_plan mo.byte_array.length = .ok pl) (hn : pl.nseg ≠ 1) :
    Allows (SparesNeeded k) [.at (.put eng k mo pinned) (ClientOp.put eng k mo pinned).prog] b
      (.batch_write ((segment_keys eng.cfg.ns eng.cfg.set_name k pl.nseg).map .remove)) := by
  intro i hi σ t t' ns set_name j hsome hnone _
  obtain rfl := perform_gone hsome hnone
  refine ⟨_, List.mem_cons_self, ?_⟩
  simp only [Op.items, segment_keys, List.map_map, List.mem_map, List.mem_range,
    Function.comp] at hi
  obtain ⟨j', hj', hkey⟩ := hi
  rw [← RecOp.remove.inj hkey]
  have hwill : (eng.put k mo pinned).WillWrite (eng.segmentKey k j') :=
    put_willWrite hplan hn hj'
  exact hwill.bind _

end Sparing

/-! ## Two races -/

/-- A put of three bytes in two segments. -/
def racePut : ClientOp := .put shortSegments "k".toList { byte_array := [1, 2, 3] } false

def raceRemove : ClientOp := .remove shortSegments "k".toList

/-- An object is put, and a removal reads its number of segments and removes its meta record;
then another put of it begins, the removal goes on and removes the segments, and the put writes
them again.  In the end the key is whole, and a `get` hits. -/
theorem put_remove_whole_again : ∃ (c : RacePool) (hit : Hit),
    WholeOrAbsent (.ofTarget 2) "k".toList [1, 2, 3] c.state ∧
      (shortSegments.get "k".toList (some { byte_array := [0, 0, 0] })).run Op.perform c.state
        = (.ok (some hit), c.state) ∧
      hit.Fills { byte_array := [0, 0, 0] } [1, 2, 3] := by
  have hspawn : ∀ (op : ClientOp) σ ts, Racing (.ofTarget 2) "k".toList [1, 2, 3] op →
      Relation.ReflTransGen (SparingStep (.ofTarget 2) "k".toList [1, 2, 3])
        ⟨σ, ts⟩ ⟨σ, .at op op.prog :: ts⟩ :=
    fun op σ ts hop => races_of_spawn op (sparesNeeded_of_same rfl) hop
  have hputs : ∀ σ b, Relation.ReflTransGen (SparingStep (.ofTarget 2) "k".toList [1, 2, 3])
      ⟨σ, .at racePut racePut.prog :: b⟩ ⟨(racePut.prog.run Op.perform σ).2,
        .at racePut (.ofExcept (racePut.prog.run Op.perform σ).1) :: b⟩ :=
    fun σ b => races_of_run (f := []) (fun _ _ _ => sparesNeeded_of_same rfl) racePut _
      (put_allows _ _ _ _) σ
  have hcall : ∀ (f b : List (Thread faultless ClientOp PyExc OpResult)) (o : Op)
      (cont : o.Res → EngineM OpResult) (σ : World), Allows (SparesNeeded "k".toList) f b o →
      Relation.ReflTransGen (SparingStep (.ofTarget 2) "k".toList [1, 2, 3])
        ⟨σ, f ++ .at raceRemove (.call o cont) :: b⟩
        ⟨(o.perform σ).2, f ++ .at raceRemove (cont (o.perform σ).1) :: b⟩ :=
    fun f b o cont σ => races_of_call (fun _ _ _ => sparesNeeded_of_same rfl) raceRemove o cont σ
  have hfirst := (hspawn racePut World.empty [] ⟨rfl, rfl, rfl⟩).trans (hputs _ _)
  have hselect := (hfirst.trans (hspawn raceRemove _ _ ⟨rfl, rfl⟩)).trans
    (hcall [] _ _ _ _ (select_allows _ _))
  have hremove := hselect.trans (hcall [] _ _ _ _ (remove_meta_allows _ _ _))
  have hwaiting := hremove.trans (hspawn racePut _ _ ⟨rfl, rfl, rfl⟩)
  have hsegments := hwaiting.trans
    (hcall [_] _ _ _ _ (remove_segments_allows rfl (by decide)))
  have hsecond := hsegments.trans (hputs _ _)
  obtain ⟨hwhole, hget⟩ := put_remove_whole _ _ _ (fun _ _ => Or.inl rfl) hsecond
    (List.forall_mem_cons.mpr ⟨trivial, List.forall_mem_cons.mpr ⟨trivial,
      List.forall_mem_cons.mpr ⟨trivial, List.forall_mem_nil _⟩⟩⟩)
  obtain ⟨hit, hrun, hfills⟩ := hget shortSegments rfl (some { byte_array := [0, 0, 0] })
    { byte_array := [0, 0, 0] } false (fun _ _ => rfl) (by decide)
    (fakeEngine_torchReads _ _ _ _) (fun _ => by decide) fun h => by cases h
  exact ⟨_, hit, hwhole, hrun, hfills⟩

/-- An object is put; a removal reads its number of segments and removes its meta record; the
object is put again; and the removal goes on and removes the segments.  Everything has ended,
`exists` finds the key, and `get` misses. -/
theorem put_remove_unreadable :
    ∃ c : RacePool, Relation.ReflTransGen (RaceStep (.ofTarget 2) "k".toList [1, 2, 3])
        ⟨World.empty, []⟩ c ∧ (∀ t ∈ c.threads, t.Ended) ∧
      ((shortSegments.exists_ "k".toList).run Op.perform c.state).1 = .ok true ∧
      ((shortSegments.get "k".toList none).run Op.perform c.state).1 = .ok none ∧
      ¬ WholeOrAbsent (.ofTarget 2) "k".toList [1, 2, 3] c.state := by
  have hput : ∀ σ ts, Relation.ReflTransGen
      (fun c c' => True ∧ RaceStep (.ofTarget 2) "k".toList [1, 2, 3] c c')
      ⟨σ, ts⟩ ⟨(racePut.prog.run Op.perform σ).2,
        .at racePut (.ofExcept (racePut.prog.run Op.perform σ).1) :: ts⟩ :=
    fun σ ts => (races_of_spawn racePut trivial ⟨rfl, rfl, rfl⟩).trans
      (races_of_run (f := []) (fun _ _ _ => trivial) racePut _
        (Prog.allCalls_mono (fun _ _ _ _ _ _ _ => trivial) _ (Prog.allCalls_true _)) σ)
  have hcall : ∀ (f b : List (Thread faultless ClientOp PyExc OpResult)) (o : Op)
      (cont : o.Res → EngineM OpResult) (σ : World), Relation.ReflTransGen
      (fun c c' => True ∧ RaceStep (.ofTarget 2) "k".toList [1, 2, 3] c c')
        ⟨σ, f ++ .at raceRemove (.call o cont) :: b⟩
        ⟨(o.perform σ).2, f ++ .at raceRemove (cont (o.perform σ).1) :: b⟩ :=
    fun f b o cont σ => races_of_call (fun _ _ _ => trivial) raceRemove o cont σ
      fun _ _ _ _ _ => trivial
  have hfirst := hput World.empty []
  have hspawn := hfirst.trans (races_of_spawn raceRemove trivial ⟨rfl, rfl⟩)
  have hselect := hspawn.trans (hcall [] _ (.select (shortSegments.metaKey "k".toList) [.nseg]) _ _)
  have hremove := hselect.trans (hcall [] _ (.remove (shortSegments.metaKey "k".toList)) _ _)
  have hsecond := hremove.trans (hput _ _)
  have hsegments := hsecond.trans (hcall [_] _ (.batch_write _) _ _)
  refine ⟨_, Relation.ReflTransGen.mono (fun _ _ h => h.2) _ _ hsegments, ?_, rfl, rfl,
    fun hwhole => ?_⟩
  · simp only [List.cons_append, List.nil_append, List.forall_mem_cons]
    exact ⟨trivial, trivial, trivial, fun t ht => by cases ht⟩
  · rcases hwhole shortSegments.cfg.ns shortSegments.cfg.set_name with
      hnone | ⟨pl, bins, hplan, -, h⟩
    · cases hnone
    · cases hplan
      obtain ⟨r, hr, -⟩ := h.segment (by decide) 0 (by decide)
      cases hr
