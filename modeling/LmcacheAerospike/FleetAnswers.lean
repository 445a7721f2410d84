/-
# What the reads of a written key are answered

A client that answers reads: writes fail as they may, reads of the server are performed.  Where
the cuts of a payload agree, a read of the meta record that was begun once the key was committed
is answered a committed one, and then the reads of its segments are answered its pieces
(`committed_get`, `committed_segments`).
-/
import LmcacheAerospike.FleetWrites

/-! ## The client that answers reads -/

/-- What may come of one operation: as with failures, but a read is performed. -/
def ReadsAnswered (op : RecOp) (w : World) (r : RecRes) (w' : World) : Prop :=
  Faulty op w r w' ∧ ∀ key names, op = .read key names → (r, w') = op.perform w

/-- The answers by which a call raises: a read does not. -/
def Op.RaisesWriting : (o : Op) → o.Res → Prop
  | .put _, x | .operate _, x | .touch _ _, x | .remove _, x => ∃ e, x = .error e
  | .batch_write _, x => ∃ e, x = .error e
  | .get _, _ | .select _ _, _ | .batch_read _ _, _ | .time, _ | .ref_count_down, _ => False

theorem Op.RaisesWriting.raises {o : Op} {x : o.Res} (h : o.RaisesWriting x) : o.Raises x := by
  cases o <;> first | exact h | exact h.elim

/-- **The client that answers reads.** -/
abbrev answering : Device Op Op.Res World :=
  Device.itemwise Op.items Op.respond Op.RaisesWriting ReadsAnswered

/-- The call without failures is one of its outcomes. -/
theorem answering_outcome (o : Op) (w : World) :
    answering.Outcome o w (o.perform w).1 (o.perform w).2 := by
  have hall : ∀ (ops : List RecOp) (w : World),
      Device.DoesAll ReadsAnswered ops w (performAll ops w).1 (performAll ops w).2 := by
    intro ops
    induction ops with
    | nil => exact fun w => Device.DoesAll.nil w
    | cons op ops ih => exact fun w => Device.DoesAll.cons ⟨Or.inl rfl, fun _ _ _ => rfl⟩ (ih _)
  exact Device.itemwise_outcome (hall o.items w)

/-! ## The answers -/

namespace Fleet

variable (F : Fleet) (ns set_name k : Text)

/-- The bins of a committed meta record. -/
structure MetaOf (pl : ShardPlan) (bins : Bins) : Prop where
  cut : F.Cut ns set_name k pl
  state : bins .state = some (.str "ready")
  nseg : bins .nseg = some (.int pl.nseg)
  seg_b : bins .seg_b = some (.int pl.seg_b)
  tot_b : bins .tot_b = some (.int (F.payload k).length)
  inline : pl.nseg = 1 → bins .b = some (.blob (F.payload k))
  crc : ∀ v, bins .crc32 = some v → v = .int (crc32 (F.payload k))

/-- What the answer to a read tells, the call begun in `w₀` and answered in `w`. -/
structure ReadTold (w₀ w : World) (op : RecOp) (r : RecRes) : Prop where
  /-- A meta record with a state is that of a committed key. -/
  shows : ∀ names bins state, op = .read (meta_key ns set_name k) names → r = .found bins →
    bins .state = some state → KeyCommitted ns set_name k w
  /-- The meta record of a committed key is found, and what it counts is there. -/
  found : ∀ names, op = .read (meta_key ns set_name k) names → KeyCommitted ns set_name k w₀ →
    ∃ pl bins, F.MetaOf ns set_name k pl bins ∧ r = .found (selectBins names bins) ∧
      (pl.nseg ≠ 1 → ∀ i < pl.nseg, F.PieceStored ns set_name k pl i w)
  /-- A stored piece is found. -/
  piece : ∀ names pl i, op = .read (segment_key ns set_name k i) names →
    F.Cut ns set_name k pl → pl.nseg ≠ 1 → i < pl.nseg → F.PieceStored ns set_name k pl i w₀ →
    ∃ bins, r = .found (selectBins names bins) ∧
      bins .b = some (.blob (slice pl.seg_b i (F.payload k)))

end Fleet

section Answers

variable {F : Fleet} {ns set_name k : Text} {w₀ w w' : World} {op : RecOp} {r : RecRes}

theorem Fleet.ReadTold.later (h : F.ReadTold ns set_name k w₀ w op r)
    (hlasts : F.Lasts ns set_name k w w') : F.ReadTold ns set_name k w₀ w' op r where
  shows := fun names bins state hop hr hstate =>
    hlasts.committed (h.shows names bins state hop hr hstate)
  found := fun names hop hcommitted => by
    obtain ⟨pl, bins, hmeta, hr, hpieces⟩ := h.found names hop hcommitted
    exact ⟨pl, bins, hmeta, hr, fun hn i hi => hlasts.pieces pl i hmeta.cut hn hi (hpieces hn i hi)⟩
  piece := h.piece

theorem Fleet.ReadTold.earlier (hlasts : F.Lasts ns set_name k w₀ w)
    (h : F.ReadTold ns set_name k w w' op r) : F.ReadTold ns set_name k w₀ w' op r where
  shows := h.shows
  found := fun names hop hcommitted => h.found names hop (hlasts.committed hcommitted)
  piece := fun names pl i hop hcut hn hi hpiece =>
    h.piece names pl i hop hcut hn hi (hlasts.pieces pl i hcut hn hi hpiece)

/-- The meta record of a committed key. -/
theorem metaOf_committed (hrecords : w.Each (FleetRecord F))
    (h : KeyCommitted ns set_name k w) :
    ∃ pl r, w.records (meta_key ns set_name k) = some r ∧ F.MetaOf ns set_name k pl r.bins := by
  obtain ⟨r, hr, hstate⟩ := h
  have hrecord := hrecords _ _ hr
  obtain ⟨-, pl, hcut, hnseg, hseg_b, htot, hinline⟩ :=
    hrecord.of_meta ns set_name k rfl _ hstate
  exact ⟨pl, r, hr, hcut, hstate, hnseg, hseg_b, htot, hinline,
    fun v hv => ((hrecord.of_crc ns set_name k rfl).value v hv).1⟩

/-- A store with a committed meta record and the pieces it counts holds the payload. -/
theorem Fleet.MetaOf.storedBy {pl : ShardPlan} {bins : Bins} (h : F.MetaOf ns set_name k pl bins)
    (hfound : ∃ r, w.records (meta_key ns set_name k) = some r ∧ r.bins = bins)
    (hpieces : pl.nseg ≠ 1 → ∀ i < pl.nseg, F.PieceStored ns set_name k pl i w) :
    w.StoredBy ns set_name k (F.payload k) pl bins := by
  refine ⟨h.cut.covers, ⟨hfound, h.state, ?_, fun hone => ?_, fun hne i hi => ?_⟩, h.seg_b, h.tot_b⟩
  · rw [pl.length_pieces]
    exact h.nseg
  · rw [pl.length_pieces] at hone
    rw [h.cut.covers.flatten_pieces]
    exact h.inline hone
  · rw [pl.length_pieces] at hne hi
    obtain ⟨r, hr, hb⟩ := hpieces hne i hi
    exact ⟨r, hr, by simpa [ShardPlan.pieces] using hb⟩

/-- **A read that is performed** tells what is there. -/
theorem performed_told (hinv : w.Each (FleetRecord F) ∧ F.Whole ns set_name k w)
    (hlasts : F.Lasts ns set_name k w₀ w) : F.ReadTold ns set_name k w₀ w op (op.perform w).1 where
  shows := fun names bins state hop hr hstate => by
    subst hop
    rcases hrec : w.records (meta_key ns set_name k) with _ | r
    · simp [RecOp.perform, hrec] at hr
    · simp only [RecOp.perform, hrec, RecRes.found.injEq] at hr
      subst hr
      have hbin : r.bins .state = some state := by
        rcases names with _ | names
        · exact hstate
        · simp only [selectBins] at hstate
          split_ifs at hstate
          exact hstate
      obtain ⟨rfl, -⟩ := (hinv.1 _ _ hrec).of_meta ns set_name k rfl _ hbin
      exact ⟨r, hrec, hbin⟩
  found := fun names hop hcommitted => by
    subst hop
    obtain ⟨pl, r, hr, hmeta⟩ := metaOf_committed hinv.1 (hlasts.committed hcommitted)
    exact ⟨pl, r.bins, hmeta, by simp [RecOp.perform, hr],
      fun hn i hi => hinv.2 r pl hr hmeta.cut hn hmeta.nseg i hi⟩
  piece := fun names pl i hop hcut hn hi hpiece => by
    subst hop
    obtain ⟨r, hr, hb⟩ := hlasts.pieces pl i hcut hn hi hpiece
    exact ⟨r.bins, by simp [RecOp.perform, hr], hb⟩

/-! ## The protocol -/

/-- **The step lemma for one operation** of a client that answers reads. -/
theorem answered_lasts (hagree : F.CutsAgree ns set_name k) (hbegun : F.Lasts ns set_name k w₀ w)
    (hop : F.Admits ns set_name k w op)
    (hinv : w.Each (FleetRecord F) ∧ F.Whole ns set_name k w) (h : ReadsAnswered op w r w') :
    (w'.Each (FleetRecord F) ∧ F.Whole ns set_name k w') ∧ F.Lasts ns set_name k w w' ∧
      F.Answered ns set_name k w' op r ∧ F.ReadTold ns set_name k w₀ w' op r := by
  obtain ⟨hinv', hlasts, hanswered⟩ := faulty_lasts hagree hop hinv h.1
  refine ⟨hinv', hlasts, hanswered, ?_⟩
  by_cases hread : ∃ key names, op = .read key names
  · obtain ⟨key, names, hkey⟩ := hread
    have hr : r = (op.perform w).1 := congrArg Prod.fst (h.2 key names hkey)
    rw [hr]
    exact (performed_told hinv hbegun).later hlasts
  · -- the other operations tell nothing
    exact ⟨fun names _ _ heq => absurd ⟨_, names, heq⟩ hread,
      fun names heq => absurd ⟨_, names, heq⟩ hread,
      fun names _ _ heq => absurd ⟨_, names, heq⟩ hread⟩

/-- The protocol of a key whose cuts agree, for a client that answers reads. -/
def answeringProtocol (hagree : F.CutsAgree ns set_name k) :
    LastingProtocol answering (KeyKept ns set_name k) :=
  .itemwise (fun w => w.Each (FleetRecord F) ∧ F.Whole ns set_name k w) (F.Lasts ns set_name k)
    (F.Admits ns set_name k)
    (fun w₀ w op r => F.Answered ns set_name k w op r ∧ F.ReadTold ns set_name k w₀ w op r)
    Fleet.Lasts.refl (fun h h' => h.trans h') (fun hlasts h => h.later hlasts)
    (fun hlasts h => ⟨fun hok wr hwr => (h.1 hok wr hwr).later hlasts, h.2.later hlasts⟩)
    (fun hlasts h => ⟨h.1, h.2.earlier hlasts⟩) keyKept_lasts (answered_lasts hagree)

section Safe

variable {hagree : F.CutsAgree ns set_name k}

/-- What is safe when reads may fail is safe when they are answered. -/
theorem answering_safe {E α : Type} {Post : World → Except E α → Prop} {p : Prog Op Op.Res E α}
    (h : (storedProtocol hagree).Safe Post w p) : (answeringProtocol hagree).Safe Post w p := by
  apply LastingProtocol.safe_under (storedProtocol hagree) (answeringProtocol hagree) _ _ _ p h
  · exact fun h => h
  · exact fun h => h
  · rintro w₀ w o x (⟨rs, hrs, hx⟩ | hraises)
    · exact Or.inl ⟨rs, hrs.imp fun _ _ hr => hr.1, hx⟩
    · exact Or.inr hraises.raises

/-- A quiet call is good in any state. -/
theorem answering_good {o : Op} (h : F.QuietCall ns set_name k o) (w : World) :
    (answeringProtocol hagree).Good w o := fun i hi => (h i hi).alwaysAdmits w

/-! ## Calls -/

/-- A call that reads one record. -/
theorem answered_single {o : Op} {x : o.Res} {i : RecOp} (hitems : o.items = [i])
    (hnot : ¬ o.RaisesWriting x) (h : (answeringProtocol hagree).ResOk w₀ w o x) :
    ∃ r, F.ReadTold ns set_name k w₀ w i r ∧ x = o.respond [r] := by
  rcases h with ⟨rs, hrs, hx⟩ | hraises
  · rw [hitems] at hrs
    obtain ⟨r, rest, hr, hnil, rfl⟩ := List.forall₂_cons_left_iff.mp hrs
    obtain rfl := List.forall₂_nil_left_iff.mp hnil
    exact ⟨r, hr.2, hx⟩
  · exact (hnot hraises).elim

/-- A read of whole records, one for each key, or of some of their bins. -/
theorem answered_batch {keys : List Key} {names : List BinName}
    {x : Except AxError (List BatchRecord)}
    (h : (answeringProtocol hagree).ResOk w₀ w (.batch_read keys names) x) :
    ∃ recs, x = .ok recs ∧ List.Forall₂ (fun key rec => ∃ r,
      F.ReadTold ns set_name k w₀ w (.read key (some names)) r ∧ rec = r.toBatchRecord)
        keys recs := by
  rcases h with ⟨rs, hrs, hx⟩ | hraises
  · refine ⟨rs.map RecRes.toBatchRecord, hx, ?_⟩
    rw [List.forall₂_map_right_iff]
    simp only [Op.items, List.forall₂_map_left_iff] at hrs
    exact hrs.imp fun key r hr => ⟨r, hr.2, rfl⟩
  · exact hraises.elim

/-- **The meta record of a committed key**, read whole. -/
theorem committed_get {x : Except AxError Bins} (hcommitted : KeyCommitted ns set_name k w₀)
    (h : (answeringProtocol hagree).ResOk w₀ w (.get (meta_key ns set_name k)) x) :
    ∃ pl bins, F.MetaOf ns set_name k pl bins ∧ x = .ok bins ∧
      (pl.nseg ≠ 1 → ∀ i < pl.nseg, F.PieceStored ns set_name k pl i w) := by
  obtain ⟨r, htold, rfl⟩ := answered_single rfl id h
  obtain ⟨pl, bins, hmeta, rfl, hpieces⟩ := htold.found none rfl hcommitted
  exact ⟨pl, bins, hmeta, rfl, hpieces⟩

/-- A meta record with a state is that of a committed key. -/
theorem get_told {bins : Bins} {state : BinVal}
    (h : (answeringProtocol hagree).ResOk w₀ w (.get (meta_key ns set_name k)) (.ok bins))
    (hstate : bins .state = some state) : KeyCommitted ns set_name k w := by
  obtain ⟨r, htold, hx⟩ := answered_single rfl id h
  cases r with
  | found bins' =>
    cases hx
    exact htold.shows none _ _ rfl rfl hstate
  | _ => cases hx

/-- A stored piece, its record read whole. -/
theorem stored_get {pl : ShardPlan} {i : ℕ} {x : Except AxError Bins}
    (hcut : F.Cut ns set_name k pl) (hn : pl.nseg ≠ 1) (hi : i < pl.nseg)
    (hpiece : F.PieceStored ns set_name k pl i w₀)
    (h : (answeringProtocol hagree).ResOk w₀ w (.get (segment_key ns set_name k i)) x) :
    ∃ bins, x = .ok bins ∧ bins .b = some (.blob (slice pl.seg_b i (F.payload k))) := by
  obtain ⟨r, htold, rfl⟩ := answered_single rfl id h
  obtain ⟨bins, rfl, hb⟩ := htold.piece none pl i rfl hcut hn hi hpiece
  exact ⟨bins, rfl, hb⟩

/-- **The segments of a cut that is stored**, read in a batch. -/
theorem committed_segments {pl : ShardPlan} {x : Except AxError (List BatchRecord)}
    (hcut : F.Cut ns set_name k pl) (hn : pl.nseg ≠ 1)
    (hpieces : ∀ i < pl.nseg, F.PieceStored ns set_name k pl i w₀)
    (h : (answeringProtocol hagree).ResOk w₀ w
      (.batch_read (segment_keys ns set_name k pl.nseg) [.b]) x) :
    ∃ recs, x = .ok recs ∧ List.Forall₂ BatchRecord.Carries recs (pl.pieces (F.payload k)) := by
  obtain ⟨recs, rfl, hrecs⟩ := answered_batch h
  refine ⟨recs, rfl, ?_⟩
  unfold segment_keys at hrecs
  unfold ShardPlan.pieces
  rw [List.forall₂_map_left_iff] at hrecs
  rw [List.forall₂_map_right_iff]
  refine (List.forall₂_iff_get.mpr ?_)
  obtain ⟨hlen, hget⟩ := List.forall₂_iff_get.mp hrecs
  refine ⟨hlen.symm, fun i h₁ h₂ => ?_⟩
  obtain ⟨r, htold, hrec⟩ := hget i h₂ h₁
  have hi : i < pl.nseg := by simpa using h₂
  have hindex : (List.range pl.nseg).get ⟨i, h₂⟩ = i := by simp
  rw [hindex] at htold ⊢
  obtain ⟨bins, rfl, hb⟩ := htold.piece (some [.b]) pl i rfl hcut hn hi (hpieces i hi)
  rw [hrec]
  exact ⟨rfl, _, rfl, by simpa [selectBins] using hb⟩

end Safe

end Answers
