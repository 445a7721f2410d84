/-
# A fleet of Python and native clients

Python engines and native connectors share the records of one store.  LMCache keys are
content-addressed, so every writer of a key writes the payload of that key; how it cuts the
payload is up to the limits it was configured with.

`Fleet.Allows` says which operations may be started: writes by the members of the fleet, and
everything else by any client.  Under any interleaving, any client stopping at any moment, any
call failing and any record expiring, every record that can exist under a key belongs to one of
the cuts that some member makes (`FleetRecord`, `fleet_kept`).
-/
import LmcacheAerospike.NativeCalls
import LmcacheAerospike.ReadSources
import LmcacheAerospike.RecordInvariant

/-! ## The operations -/

/-- An operation of a client: the engine's operations, its batched load, and the native ones. -/
inductive FleetOp : Type where
  | python (op : ClientOp)
  | load (eng : Engine) (items : List (Text × MemoryObj))
  | native_get (conn : NativeConnector) (key : Text) (buf : Bytes) (len : ℕ)
  | native_set (conn : NativeConnector) (key : Text) (buf : Bytes)
  | native_exists (conn : NativeConnector) (key : Text)
  | native_delete (conn : NativeConnector) (key : Text)

/-- What an operation returns. -/
inductive FleetResult : Type where
  | python (r : OpResult)
  | loaded (results : List (Option MemoryObj))
  | copied (buf : Bytes)
  | done
  | flag (v : Bool)
  deriving DecidableEq, Repr

/-- What an operation raises. -/
inductive FleetExc : Type where
  | python (e : PyExc)
  | native (e : RuntimeError)

/-- A program of a client of either kind. -/
abbrev FleetM (α : Type) := Prog Op Op.Res FleetExc α

/-- The program of an operation. -/
def FleetOp.prog : FleetOp → FleetM FleetResult
  | .python op => (op.prog.mapError .python).bind fun r => .ret (.python r)
  | .load eng items =>
    ((eng.batched_get_preallocated items).mapError .python).bind fun r => .ret (.loaded r)
  | .native_get conn key buf len =>
    ((conn.do_single_get key buf len).mapError fun e => .native e.1).bind fun b => .ret (.copied b)
  | .native_set conn key buf =>
    ((conn.do_single_set key buf).mapError .native).bind fun _ => .ret .done
  | .native_exists conn key =>
    ((conn.do_single_exists key).mapError .native).bind fun r => .ret (.flag r)
  | .native_delete conn key =>
    ((conn.do_single_delete key).mapError .native).bind fun r => .ret (.flag r)

/-! ## The fleet -/

/-- The members that write, and what they write under each logical key.  The native client sees
its namespace and set as C strings. -/
structure Fleet : Type where
  payload : Text → Bytes
  engines : Engine → Prop
  connectors : NativeConnector → Prop
  lawful : ∀ eng, engines eng → eng.LawfulMemory
  names : ∀ conn, connectors conn → '\x00' ∉ conn.ns ∧ '\x00' ∉ conn.set_name

namespace Fleet

variable (F : Fleet)

/-- A native key that is not cut short as a C string, under which the length of the payload fits
the 32 bits of a segment count. -/
structure NativeKey (conn : NativeConnector) (key ck : Text) : Prop where
  reads : native_key_to_cache_engine_key key conn.dtype = .ok ck
  no_nul : '\x00' ∉ ck
  short : (F.payload ck).length < 2 ^ 32

/-- A way in which some member cuts the payload of `k` in this namespace and set. -/
inductive Cut (ns set_name k : Text) (pl : ShardPlan) : Prop
  | python (eng : Engine) : F.engines eng → eng.cfg.ns = ns → eng.cfg.set_name = set_name →
      eng.resolved.shard_plan (F.payload k).length = .ok pl → Cut ns set_name k pl
  | native (conn : NativeConnector) (key : Text) : F.connectors conn → conn.ns = ns →
      conn.set_name = set_name → F.NativeKey conn key k →
      conn.limits.plan (F.payload k).length = .ok pl → Cut ns set_name k pl

/-- The members that record no CRC: the native ones, and the engines with CRCs off. -/
def unchecked : Fleet where
  payload := F.payload
  engines := fun eng => F.engines eng ∧ eng.cfg.enable_crc32 = false
  connectors := F.connectors
  lawful := fun eng h => F.lawful eng h.1
  names := F.names

/-- All cuts of the payload into several pieces are one cut. -/
def CutsAgree (ns set_name k : Text) : Prop :=
  ∀ pl pl', F.Cut ns set_name k pl → F.Cut ns set_name k pl' → pl.nseg ≠ 1 → pl'.nseg ≠ 1 →
    pl = pl'

/-- A connector on a key that, if it is well-formed at all, is as `NativeKey` says. -/
def NativeWithin (conn : NativeConnector) (key : Text) : Prop :=
  F.connectors conn ∧ ∀ ck, native_key_to_cache_engine_key key conn.dtype = .ok ck →
    F.NativeKey conn key ck

/-- The operations that may be started: puts of the payload of the key by members, and anything
else by anybody. -/
def Allows : FleetOp → Prop
  | .python op => op.eng.LawfulMemory ∧
      op.Within (fun _ => True) fun ck mo => F.engines op.eng ∧ mo.byte_array = F.payload ck
  | .load eng _ => eng.LawfulMemory
  | .native_get conn key buf len => F.NativeWithin conn key ∧ len ≤ buf.length ∧ len < 2 ^ 64
  | .native_set conn key buf => F.NativeWithin conn key ∧
      ∀ ck, native_key_to_cache_engine_key key conn.dtype = .ok ck → buf = F.payload ck
  | .native_exists conn key | .native_delete conn key => F.NativeWithin conn key

/-- Their single-record operations. -/
inductive RecOps (op : RecOp) : Prop
  | python (eng : Engine) : EngineRecOp eng (fun _ => True)
      (fun ck mo => F.engines eng ∧ mo.byte_array = F.payload ck) op → RecOps op
  | native (conn : NativeConnector) (key ck : Text) : F.connectors conn →
      F.NativeKey conn key ck →
      NativeRecOp conn ck (fun p => p = F.payload ck) op → RecOps op

variable {F}

/-- Every cut covers the payload. -/
theorem Cut.covers {ns set_name k : Text} {pl : ShardPlan} (h : F.Cut ns set_name k pl) :
    pl.Covers (F.payload k).length := by
  cases h with
  | python eng _ _ _ hplan => exact plan_covers _ _ _ _ _ _ hplan
  | native conn key _ _ _ hkey hplan => exact native_plan_covers hkey.short hplan

theorem NativeKey.addresses {conn : NativeConnector} {key ck : Text} (h : F.NativeKey conn key ck)
    (hconn : F.connectors conn) : conn.Addresses conn.ns conn.set_name ck :=
  addresses_of_notMem (F.names conn hconn).1 (F.names conn hconn).2 h.no_nul

end Fleet

/-! ## The records -/

section Records

variable (F : Fleet)

/-- A meta record that has a state says ready and describes one cut of the payload, with the
payload inline when it has one piece. -/
def FleetMeta (ns set_name k : Text) (bins : Bins) : Prop :=
  ∀ state, bins .state = some state → state = .str "ready" ∧ ∃ pl, F.Cut ns set_name k pl ∧
    bins .nseg = some (.int pl.nseg) ∧ bins .seg_b = some (.int pl.seg_b) ∧
    bins .tot_b = some (.int (F.payload k).length) ∧
    (pl.nseg = 1 → bins .b = some (.blob (F.payload k)))

/-- A segment record holds the piece of its index of some cut, or nothing. -/
def FleetSegment (ns set_name k : Text) (i : ℕ) (bins : Bins) : Prop :=
  ∀ chunk, bins .b = some chunk → ∃ pl, F.Cut ns set_name k pl ∧ pl.nseg ≠ 1 ∧
    i < pl.nseg ∧ chunk = .blob (slice pl.seg_b i (F.payload k))

/-- A CRC in a meta record is the CRC of the payload, recorded by an engine with CRCs on; a meta
record without one describes a cut of a member that records none. -/
structure FleetCrc (ns set_name k : Text) (bins : Bins) : Prop where
  value : ∀ v, bins .crc32 = some v → v = .int (crc32 (F.payload k)) ∧
    ∃ eng, F.engines eng ∧ eng.cfg.enable_crc32 = true
  unrecorded : ∀ state, bins .state = some state → bins .crc32 = none →
    ∃ pl, F.unchecked.Cut ns set_name k pl ∧ bins .nseg = some (.int pl.nseg) ∧
      bins .seg_b = some (.int pl.seg_b)

/-- **What is true of every record that can ever exist** under a key. -/
structure FleetRecord (key : Key) (bins : Bins) : Prop where
  of_meta : ∀ ns set_name k, key = meta_key ns set_name k → FleetMeta F ns set_name k bins
  of_crc : ∀ ns set_name k, key = meta_key ns set_name k → FleetCrc F ns set_name k bins
  of_segment : ∀ ns set_name k i, key = segment_key ns set_name k i →
    FleetSegment F ns set_name k i bins

end Records

section Kept

variable {F : Fleet}

theorem fleetRecord_of_meta {ns set_name k : Text} {bins : Bins}
    (h : FleetMeta F ns set_name k bins) (hcrc : FleetCrc F ns set_name k bins) :
    FleetRecord F (meta_key ns set_name k) bins where
  of_meta := fun ns' set_name' k' hkey => by
    have hns : ns = ns' := congrArg Key.ns hkey
    have hset : set_name = set_name' := congrArg Key.set_name hkey
    rw [← hns, ← hset, ← meta_key_inj hkey]
    exact h
  of_crc := fun ns' set_name' k' hkey => by
    have hns : ns = ns' := congrArg Key.ns hkey
    have hset : set_name = set_name' := congrArg Key.set_name hkey
    rw [← hns, ← hset, ← meta_key_inj hkey]
    exact hcrc
  of_segment := fun _ _ _ _ hkey => (meta_key_ne_segment_key _ _ _ _ _ _ _ hkey).elim

theorem fleetRecord_of_segment {ns set_name k : Text} {i : ℕ} {bins : Bins}
    (h : FleetSegment F ns set_name k i bins) :
    FleetRecord F (segment_key ns set_name k i) bins where
  of_meta := fun _ _ _ hkey => (meta_key_ne_segment_key _ _ _ _ _ _ _ hkey.symm).elim
  of_crc := fun _ _ _ hkey => (meta_key_ne_segment_key _ _ _ _ _ _ _ hkey.symm).elim
  of_segment := fun ns' set_name' k' j hkey => by
    have hns : ns = ns' := congrArg Key.ns hkey
    have hset : set_name = set_name' := congrArg Key.set_name hkey
    obtain ⟨hk, hi⟩ := segment_key_inj hkey
    rw [← hns, ← hset, ← hk, ← hi]
    exact h

/-- A segment write leaves a piece of the cut. -/
theorem fleetSegment_of_slice {ns set_name k : Text} {i : ℕ} {bins : Bins} {pl : ShardPlan}
    (hcut : F.Cut ns set_name k pl) (hn : pl.nseg ≠ 1) (hi : i < pl.nseg)
    (hb : bins .b = some (.blob (slice pl.seg_b i (F.payload k)))) :
    FleetSegment F ns set_name k i bins := by
  intro chunk hchunk
  rw [hb] at hchunk
  exact ⟨pl, hcut, hn, hi, (Option.some.inj hchunk).symm⟩

/-- What is true of every record is true of the bins of a record that is not there. -/
theorem fleetRecord_old {key : Key} {old : Option Record}
    (hold : ∀ r, old = some r → FleetRecord F key r.bins) : FleetRecord F key (oldBins old) := by
  rcases old with _ | r
  · refine ⟨fun _ _ _ _ _ h => ?_, fun _ _ _ _ => ⟨fun _ h => ?_, fun _ h => ?_⟩,
      fun _ _ _ _ _ _ h => ?_⟩ <;> cases h
  · exact hold r rfl

/-- A meta write with a CRC leaves it. -/
theorem fleetCrc_of_recorded {eng : Engine} (heng : F.engines eng)
    (hon : eng.cfg.enable_crc32 = true) {ns set_name k : Text} {bins : Bins}
    (hcrc : bins .crc32 = some (.int (crc32 (F.payload k)))) : FleetCrc F ns set_name k bins where
  value := fun v hv => by
    rw [hcrc] at hv
    exact ⟨(Option.some.inj hv).symm, eng, heng, hon⟩
  unrecorded := fun _ _ hnone => by
    rw [hcrc] at hnone
    cases hnone

/-- A meta write without CRC leaves the one that is there. -/
theorem fleetCrc_of_unrecorded {ns set_name k : Text} {bins old : Bins} {pl : ShardPlan}
    (hold : FleetCrc F ns set_name k old) (hcut : F.unchecked.Cut ns set_name k pl)
    (hnseg : bins .nseg = some (.int pl.nseg)) (hseg : bins .seg_b = some (.int pl.seg_b))
    (hcrc : bins .crc32 = old .crc32) : FleetCrc F ns set_name k bins where
  value := fun v hv => hold.value v (by rwa [hcrc] at hv)
  unrecorded := fun _ _ _ => ⟨pl, hcut, hnseg, hseg⟩

/-- **The step lemma for the engine**: each of its writes keeps the invariant of the record it
falls on. -/
theorem fleet_kept_python {eng : Engine} {wr : Write} {w : World}
    (hop : EngineRecOp eng (fun _ => True)
      (fun ck mo => F.engines eng ∧ mo.byte_array = F.payload ck) (.write wr))
    (hold : ∀ r, w.records wr.key = some r → FleetRecord F wr.key r.bins) :
    FleetRecord F wr.key (wr.applyTo w.now (w.records wr.key)).bins := by
  have hold' := fleetRecord_old hold
  cases hop with
  | of_read h => cases h
  | @write_segment ck mo pl ttl i hput hplan hn hi =>
    obtain ⟨heng, hmo⟩ := hput
    rw [hmo] at hplan ⊢
    exact fleetRecord_of_segment
      (fleetSegment_of_slice (.python eng heng rfl rfl hplan) hn hi segment_write_b)
  | @write_meta ck mo pl pinned now hput hplan =>
    obtain ⟨heng, hmo⟩ := hput
    rw [hmo] at hplan
    have hbins := @meta_write_bins eng ck w.now
      (w.records (eng.meta_write ck mo pl pinned now).key) mo pl pinned now
    refine fleetRecord_of_meta (fun state hstate => ⟨?_, pl, .python eng heng rfl rfl hplan,
      hbins .nseg, hbins .seg_b, ?_, fun hn => ?_⟩) ?_
    · exact (Option.some.inj ((hbins .state).symm.trans hstate)).symm
    · rw [← hmo]
      exact hbins .tot_b
    · rw [← hmo]
      exact (hbins .b).trans (if_pos hn)
    · rcases hon : eng.cfg.enable_crc32 with _ | _
      · refine fleetCrc_of_unrecorded (hold'.of_crc _ _ _ rfl)
          (.python eng ⟨heng, hon⟩ rfl rfl hplan) (hbins .nseg) (hbins .seg_b) ?_
        exact (hbins .crc32).trans (if_neg (by simp [hon]))
      · refine fleetCrc_of_recorded heng hon ?_
        rw [← hmo]
        exact (hbins .crc32).trans (if_pos hon)
  | @write_pin ck v ttl hck =>
    -- the bins that the invariant speaks about are those of the old record
    have hbins : ∀ n, n ≠ .pin → ((eng.pin_write ck v ttl).applyTo w.now
        (w.records (eng.pin_write ck v ttl).key)).bins n
        = oldBins (w.records (eng.pin_write ck v ttl).key) n := fun n hn => pin_write_of_ne hn
    have hcrc := hold'.of_crc _ _ _ rfl
    refine fleetRecord_of_meta (fun state hstate => ?_) ⟨fun v hv => ?_, fun state hstate => ?_⟩
    · rw [hbins .state (by decide)] at hstate
      rw [hbins .nseg (by decide), hbins .seg_b (by decide), hbins .tot_b (by decide),
        hbins .b (by decide)]
      exact hold'.of_meta _ _ _ rfl state hstate
    · rw [hbins .crc32 (by decide)] at hv
      exact hcrc.value v hv
    · rw [hbins .state (by decide)] at hstate
      rw [hbins .crc32 (by decide), hbins .nseg (by decide), hbins .seg_b (by decide)]
      exact hcrc.unrecorded state hstate

/-- **The step lemma for the connector.** -/
theorem fleet_kept_native {conn : NativeConnector} {key ck : Text} (hconn : F.connectors conn)
    (hkey : F.NativeKey conn key ck) {wr : Write} (t : ℕ) {old : Option Record}
    (hop : NativeRecOp conn ck (fun p => p = F.payload ck) (.write wr))
    (hold : ∀ r, old = some r → FleetRecord F wr.key r.bins) :
    FleetRecord F wr.key (wr.applyTo t old).bins := by
  have haddr := hkey.addresses hconn
  have hshort := hkey.short
  cases hop with
  | @write_segment p pl i hp hplan hn hi =>
    subst hp
    have hcov := native_plan_covers hshort hplan
    have hwkey : (conn.native_segment_write ck pl (F.payload ck) i).key
        = segment_key conn.ns conn.set_name ck i := haddr.segment_eq i
    rw [hwkey]
    refine fleetRecord_of_segment
      (fleetSegment_of_slice (.native conn key hconn rfl rfl hkey hplan) hn hi ?_)
    rw [native_segment_write_b, native_segment_slice hcov hshort hn hi]
  | @write_meta p pl now hp hplan =>
    subst hp
    have hseg := (native_plan_covers hshort hplan).seg_b_le_length
    have hbins := native_meta_write_bins conn (meta_user_key ck) pl (F.payload ck).length
      (if pl.nseg = 1 then some (F.payload ck) else none) now t old
    have hwkey : (conn.native_meta_write (meta_user_key ck) pl (F.payload ck).length
        (if pl.nseg = 1 then some (F.payload ck) else none) now).key
        = meta_key conn.ns conn.set_name ck := haddr.meta_eq
    have hcrc : FleetCrc F conn.ns conn.set_name ck (oldBins old) :=
      (fleetRecord_old hold).of_crc _ _ _ hwkey
    have hseg_b := hbins .seg_b
    dsimp only at hseg_b
    rw [size_to_int64_of_lt (by omega)] at hseg_b
    rw [hwkey]
    refine fleetRecord_of_meta (fun state hstate => ⟨?_, pl,
      .native conn key hconn rfl rfl hkey hplan, hbins .nseg, hseg_b, ?_, fun hn => ?_⟩)
      (fleetCrc_of_unrecorded hcrc (.native conn key hconn rfl rfl
        ⟨hkey.reads, hkey.no_nul, hkey.short⟩ hplan) (hbins .nseg) hseg_b (hbins .crc32))
    · exact (Option.some.inj ((hbins .state).symm.trans hstate)).symm
    · rw [hbins .tot_b]
      dsimp only
      rw [size_to_int64_of_lt (by omega)]
    · rw [hbins .b, if_pos hn]
      dsimp only
      rw [to_uint32, Nat.mod_eq_of_lt hshort, List.take_length]

/-- **The step lemma**: every write keeps the invariant of the record it falls on. -/
theorem fleet_kept : KeepsRecords (FleetRecord F) (fun _ _ => True) F.RecOps := by
  intro wr w hop _ hold
  cases hop with
  | python eng hop => exact fleet_kept_python hop hold
  | native conn key ck hconn hkey hop => exact fleet_kept_native hconn hkey _ hop hold

variable (F) in
/-- The protocol of the fleet. -/
def fleetProtocol : Protocol client Expiry :=
  recordProtocol (G := fun _ _ => True) faulty_unguarded (FleetRecord F) F.RecOps fleet_kept

end Kept
