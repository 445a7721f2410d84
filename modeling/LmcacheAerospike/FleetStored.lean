/-
# What is stored stays stored

The records of one key, while nobody removes them and they do not expire.  All writers write
the payload of the key, and commit it last: the meta record is written by a program that has been
told that all its segments are written.  So a piece that is stored stays stored, a key that is
committed stays so, and under a meta record that counts several pieces all of them are there.
-/
import LmcacheAerospike.CommitLast
import LmcacheAerospike.FleetReads
import LmcacheAerospike.LastingFacts
import LmcacheAerospike.QuietCalls

/-- The meta record of the key says ready. -/
def KeyCommitted (ns set_name k : Text) (w : World) : Prop :=
  ∃ r, w.records (meta_key ns set_name k) = some r ∧ r.bins .state = some (.str "ready")

/-- Time passes and records expire, but not those of the key. -/
def KeyKept (ns set_name k : Text) (w w' : World) : Prop :=
  Expiry w w' ∧ ∀ key, KeyRecord ns set_name k key → w'.records key = w.records key

namespace Fleet

variable (F : Fleet) (ns set_name k : Text)

/-- The piece `i` of the cut is in its record. -/
def PieceStored (pl : ShardPlan) (i : ℕ) (w : World) : Prop :=
  ∃ r, w.records (segment_key ns set_name k i) = some r ∧
    r.bins .b = some (.blob (slice pl.seg_b i (F.payload k)))

/-- All pieces that the meta record counts are there. -/
def Whole (w : World) : Prop :=
  ∀ r pl, w.records (meta_key ns set_name k) = some r → F.Cut ns set_name k pl → pl.nseg ≠ 1 →
    r.bins .nseg = some (.int pl.nseg) → ∀ i < pl.nseg, F.PieceStored ns set_name k pl i w

/-- What is stored and committed has stayed so. -/
structure Lasts (w w' : World) : Prop where
  pieces : ∀ pl i, F.Cut ns set_name k pl → pl.nseg ≠ 1 → i < pl.nseg →
    F.PieceStored ns set_name k pl i w → F.PieceStored ns set_name k pl i w'
  committed : KeyCommitted ns set_name k w → KeyCommitted ns set_name k w'

/-- The operations that may be made in a state: none removes a record of the key, and its meta
record is written only once the segments that it counts are. -/
structure Admits (w : World) (op : RecOp) : Prop where
  allowed : F.RecOps op
  keeps : ∀ key, op = .remove key → ¬ KeyRecord ns set_name k key
  commits : ∀ wr pl, op = .write wr → wr.key = meta_key ns set_name k →
    F.Cut ns set_name k pl → pl.nseg ≠ 1 → (BinName.nseg, BinVal.int pl.nseg) ∈ wr.ops →
    ∀ i < pl.nseg, F.PieceStored ns set_name k pl i w

/-- What a write that is answered with success has achieved. -/
structure Told (w : World) (wr : Write) : Prop where
  piece : ∀ pl i, wr.key = segment_key ns set_name k i → F.Cut ns set_name k pl → pl.nseg ≠ 1 →
    i < pl.nseg → F.PieceStored ns set_name k pl i w
  commit : ∀ v, wr.key = meta_key ns set_name k → (BinName.state, v) ∈ wr.ops →
    KeyCommitted ns set_name k w

end Fleet

section Records

variable {F : Fleet} {ns set_name k : Text} {pl : ShardPlan} {w w' : World}

/-! ## What a write leaves -/

/-- A write of a segment record leaves a piece of some cut. -/
theorem segment_written {wr : Write} {i : ℕ} (hop : F.RecOps (.write wr))
    (hkey : wr.key = segment_key ns set_name k i) (t : ℕ) (old : Option Record) :
    ∃ pl, F.Cut ns set_name k pl ∧ pl.nseg ≠ 1 ∧
      (wr.applyTo t old).bins .b = some (.blob (slice pl.seg_b i (F.payload k))) := by
  cases hop with
  | python eng hop =>
    cases hop with
    | of_read h => cases h
    | @write_segment ck mo pl ttl j hput hplan hn hj =>
      obtain ⟨heng, hmo⟩ := hput
      have hns : eng.cfg.ns = ns := congrArg Key.ns hkey
      have hset : eng.cfg.set_name = set_name := congrArg Key.set_name hkey
      obtain ⟨rfl, rfl⟩ := segment_key_inj hkey
      rw [hmo] at hplan ⊢
      exact ⟨pl, .python eng heng hns hset hplan, hn, segment_write_b⟩
    | write_meta => exact (meta_key_ne_segment_key _ _ _ _ _ _ _ hkey).elim
    | write_pin => exact (meta_key_ne_segment_key _ _ _ _ _ _ _ hkey).elim
  | native conn key ck hconn hnative hop =>
    have haddr := hnative.addresses hconn
    cases hop with
    | @write_segment p pl j hp hplan hn hj =>
      subst hp
      have hwkey : (conn.native_segment_write ck pl (F.payload ck) j).key
          = segment_key conn.ns conn.set_name ck j := haddr.segment_eq j
      rw [hwkey] at hkey
      have hns : conn.ns = ns := congrArg Key.ns hkey
      have hset : conn.set_name = set_name := congrArg Key.set_name hkey
      obtain ⟨rfl, rfl⟩ := segment_key_inj hkey
      refine ⟨pl, .native conn key hconn hns hset hnative hplan, hn, ?_⟩
      rw [native_segment_write_b,
        native_segment_slice (native_plan_covers hnative.short hplan) hnative.short hn hj]
    | @write_meta p pl now hp hplan =>
      have hwkey : (conn.native_meta_write (meta_user_key ck) pl p.length
          (if pl.nseg = 1 then some p else none) now).key
          = meta_key conn.ns conn.set_name ck := haddr.meta_eq
      rw [hwkey] at hkey
      exact (meta_key_ne_segment_key _ _ _ _ _ _ _ hkey).elim

/-- A write of a meta record leaves its state and its number of pieces alone, or commits a cut
and names its number of pieces. -/
theorem meta_written {wr : Write} (hop : F.RecOps (.write wr))
    (hkey : wr.key = meta_key ns set_name k) (t : ℕ) (old : Option Record) :
    ((∀ v, (BinName.state, v) ∉ wr.ops) ∧
        ∀ n, n ≠ .pin → (wr.applyTo t old).bins n = oldBins old n) ∨
      ∃ pl, F.Cut ns set_name k pl ∧ (BinName.nseg, BinVal.int pl.nseg) ∈ wr.ops ∧
        (wr.applyTo t old).bins .state = some (.str "ready") ∧
        (wr.applyTo t old).bins .nseg = some (.int pl.nseg) := by
  cases hop with
  | python eng hop =>
    cases hop with
    | of_read h => cases h
    | write_segment => exact (meta_key_ne_segment_key _ _ _ _ _ _ _ hkey.symm).elim
    | @write_meta ck mo pl pinned now hput hplan =>
      obtain ⟨heng, hmo⟩ := hput
      have hns : eng.cfg.ns = ns := congrArg Key.ns hkey
      have hset : eng.cfg.set_name = set_name := congrArg Key.set_name hkey
      obtain rfl := meta_key_inj hkey
      rw [hmo] at hplan
      refine Or.inr ⟨pl, .python eng heng hns hset hplan, ?_,
        meta_write_bins mo pl pinned now .state, meta_write_bins mo pl pinned now .nseg⟩
      simp [Engine.meta_write, meta_bins]
    | write_pin =>
      refine Or.inl ⟨fun v hv => ?_, fun n hn => pin_write_of_ne hn⟩
      simp [Engine.pin_write] at hv
  | native conn key ck hconn hnative hop =>
    have haddr := hnative.addresses hconn
    cases hop with
    | @write_segment p pl j hp hplan hn hj =>
      have hwkey : (conn.native_segment_write ck pl p j).key
          = segment_key conn.ns conn.set_name ck j := haddr.segment_eq j
      rw [hwkey] at hkey
      exact (meta_key_ne_segment_key _ _ _ _ _ _ _ hkey.symm).elim
    | @write_meta p pl now hp hplan =>
      subst hp
      have hwkey : (conn.native_meta_write (meta_user_key ck) pl (F.payload ck).length
          (if pl.nseg = 1 then some (F.payload ck) else none) now).key
          = meta_key conn.ns conn.set_name ck := haddr.meta_eq
      rw [hwkey] at hkey
      have hns : conn.ns = ns := congrArg Key.ns hkey
      have hset : conn.set_name = set_name := congrArg Key.set_name hkey
      obtain rfl := meta_key_inj hkey
      have hbins := native_meta_write_bins conn (meta_user_key ck) pl (F.payload ck).length
        (if pl.nseg = 1 then some (F.payload ck) else none) now t old
      refine Or.inr ⟨pl, .native conn key hconn hns hset hnative hplan, ?_, hbins .state,
        hbins .nseg⟩
      simp [NativeConnector.native_meta_write]

/-! ## One operation -/

theorem Fleet.Lasts.refl (w : World) : F.Lasts ns set_name k w w :=
  ⟨fun _ _ _ _ _ h => h, fun h => h⟩

theorem Fleet.Lasts.trans {w'' : World} (h : F.Lasts ns set_name k w w')
    (h' : F.Lasts ns set_name k w' w'') : F.Lasts ns set_name k w w'' :=
  ⟨fun pl i hcut hn hi hp => h'.pieces pl i hcut hn hi (h.pieces pl i hcut hn hi hp),
    fun hc => h'.committed (h.committed hc)⟩

/-- A store with the same records of the key. -/
theorem Fleet.Lasts.of_records
    (h : ∀ key, KeyRecord ns set_name k key → w'.records key = w.records key) :
    F.Lasts ns set_name k w w' where
  pieces := fun pl i _ _ _ hp => by
    unfold Fleet.PieceStored
    rwa [h _ (Or.inr ⟨i, rfl⟩)]
  committed := fun hc => by
    unfold KeyCommitted
    rwa [h _ (Or.inl rfl)]

/-- Of a record that an operation did not take away, it has left the bins, or it has written it. -/
theorem Fleet.Admits.record {op : RecOp} (hop : F.Admits ns set_name k w op) {key : Key}
    (hkey : KeyRecord ns set_name k key) :
    ((op.perform w).2.records key).map Record.bins = (w.records key).map Record.bins ∨
      ∃ wr, op = .write wr ∧ wr.key = key ∧
        (op.perform w).2.records key = some (wr.applyTo w.now (w.records key)) := by
  rcases perform_record op w key with hsame | ⟨hremove, -⟩ | hwritten
  · exact Or.inl hsame
  · exact (hop.keeps key hremove hkey).elim
  · exact Or.inr hwritten

/-- **An operation undoes nothing.** -/
theorem Fleet.Admits.lasts (hagree : F.CutsAgree ns set_name k) {op : RecOp}
    (hop : F.Admits ns set_name k w op) : F.Lasts ns set_name k w (op.perform w).2 where
  pieces := fun pl i hcut hn hi ⟨r, hr, hb⟩ => by
    rcases hop.record (Or.inr ⟨i, rfl⟩) with hsame | ⟨wr, rfl, hkey, hwritten⟩
    · rw [hr] at hsame
      obtain ⟨r', hr', hbins⟩ := Option.map_eq_some_iff.mp hsame
      exact ⟨r', hr', by rw [hbins]; exact hb⟩
    · obtain ⟨pl', hcut', hn', hb'⟩ :=
        segment_written hop.allowed hkey w.now (w.records (segment_key ns set_name k i))
      obtain rfl := hagree pl pl' hcut hcut' hn hn'
      exact ⟨_, hwritten, hb'⟩
  committed := fun ⟨r, hr, hstate⟩ => by
    rcases hop.record (Or.inl rfl) with hsame | ⟨wr, rfl, hkey, hwritten⟩
    · rw [hr] at hsame
      obtain ⟨r', hr', hbins⟩ := Option.map_eq_some_iff.mp hsame
      exact ⟨r', hr', by rw [hbins]; exact hstate⟩
    · refine ⟨_, hwritten, ?_⟩
      rcases meta_written hop.allowed hkey w.now (w.records (meta_key ns set_name k)) with
        ⟨-, hbins⟩ | ⟨pl, -, -, hready, -⟩
      · rw [hbins .state (by decide), hr]
        exact hstate
      · exact hready

/-- **An operation keeps the key whole**: a meta record that counts several pieces comes after
them. -/
theorem Fleet.Admits.whole (hagree : F.CutsAgree ns set_name k) {op : RecOp}
    (hop : F.Admits ns set_name k w op) (hwhole : F.Whole ns set_name k w) :
    F.Whole ns set_name k (op.perform w).2 := by
  intro r pl hr hcut hn hnseg i hi
  have hlasts := hop.lasts hagree
  rcases hop.record (Or.inl rfl) with hsame | ⟨wr, rfl, hkey, hwritten⟩
  · rw [hr] at hsame
    obtain ⟨r', hr', hbins⟩ := Option.map_eq_some_iff.mp hsame.symm
    exact hlasts.pieces pl i hcut hn hi (hwhole r' pl hr' hcut hn (by rw [hbins]; exact hnseg) i hi)
  · rw [hwritten] at hr
    obtain rfl := Option.some.inj hr
    rcases meta_written hop.allowed hkey w.now (w.records (meta_key ns set_name k)) with
      ⟨-, hbins⟩ | ⟨pl', hcut', hops, -, hnseg'⟩
    · rw [hbins .nseg (by decide)] at hnseg
      rcases hold : w.records (meta_key ns set_name k) with _ | r'
      · rw [hold] at hnseg
        cases hnseg
      · rw [hold] at hnseg
        exact hlasts.pieces pl i hcut hn hi (hwhole r' pl hold hcut hn hnseg i hi)
    · rw [hnseg'] at hnseg
      have hsame : pl'.nseg = pl.nseg := by simpa using hnseg
      rw [hsame] at hops
      exact hlasts.pieces pl i hcut hn hi (hop.commits wr pl rfl hkey hcut hn hops i hi)

/-- **A write that is performed has achieved what it is for.** -/
theorem Fleet.Admits.told (hagree : F.CutsAgree ns set_name k) {wr : Write}
    (hop : F.RecOps (.write wr)) (w : World) : F.Told ns set_name k (w.applyWrite wr) wr where
  piece := fun pl i hkey hcut hn hi => by
    obtain ⟨pl', hcut', hn', hb⟩ := segment_written hop hkey w.now (w.records wr.key)
    obtain rfl := hagree pl pl' hcut hcut' hn hn'
    exact ⟨_, by rw [← hkey]; exact World.applyWrite_self w wr, hb⟩
  commit := fun v hkey hv => by
    refine ⟨_, by rw [← hkey]; exact World.applyWrite_self w wr, ?_⟩
    rcases meta_written hop hkey w.now (w.records wr.key) with ⟨hnot, -⟩ | ⟨pl, -, -, hready, -⟩
    · exact (hnot v hv).elim
    · exact hready

theorem Fleet.Told.later {wr : Write} (h : F.Told ns set_name k w wr)
    (hlasts : F.Lasts ns set_name k w w') : F.Told ns set_name k w' wr where
  piece := fun pl i hkey hcut hn hi => hlasts.pieces pl i hcut hn hi (h.piece pl i hkey hcut hn hi)
  commit := fun v hkey hv => hlasts.committed (h.commit v hkey hv)

theorem Fleet.Admits.later {op : RecOp} (h : F.Admits ns set_name k w op)
    (hlasts : F.Lasts ns set_name k w w') : F.Admits ns set_name k w' op where
  allowed := h.allowed
  keeps := h.keeps
  commits := fun wr pl hop hkey hcut hn hops i hi =>
    hlasts.pieces pl i hcut hn hi (h.commits wr pl hop hkey hcut hn hops i hi)

end Records
