/-
# What CRCs protect in a fleet

Where the members of a fleet cut a payload differently, a reader can meet pieces of several
cuts.  A reader that checks CRCs compares what it has put together with the CRC in the meta
record, but the members that record no CRC leave it nothing to compare with.

So the check protects it from every mixture but those under the meta record of such a member:
unless a mixture has the CRC of the payload by accident, checking readers are safe in every
interleaving if and only if no such member cuts the payload into several pieces that differ
from those of another member (`checked_reads_deliver_iff`).
-/
import LmcacheAerospike.FleetCuts

section FleetChecks

variable {F : Fleet} {ns set_name k : Text} {pl pl' : ShardPlan}

namespace Fleet

variable (F)

/-- Every `get` of `k` in this namespace and set, by an engine that checks CRCs, delivers the
payload, in every interleaving.  What it has written lies in the `byte_array`, whose CRC it
compares, and not in the padding. -/
def CheckedReadsDeliver (ns set_name k : Text) : Prop :=
  ∀ c : Pool client FleetOp FleetExc FleetResult,
    Pool.Reachable Expiry FleetOp.prog F.Allows World.empty c →
    ∀ eng preallocated hit, eng.cfg.ns = ns → eng.cfg.set_name = set_name →
      eng.cfg.enable_crc32 = true →
      Thread.at (.python (.get eng k preallocated)) (.ret (.python (.got (some hit))))
        ∈ c.threads →
      hit.total_written ≤ hit.filled.byte_array.length →
      hit.Delivers eng preallocated (F.payload k)

/-- A cut into several pieces that a member makes without recording a CRC is that of all
members. -/
def UncheckedCutsAgree (ns set_name k : Text) : Prop :=
  ∀ pl pl', F.unchecked.Cut ns set_name k pl → F.Cut ns set_name k pl' → pl.nseg ≠ 1 →
    pl'.nseg ≠ 1 → pl = pl'

/-- No mixture of cuts has the CRC of the payload by accident. -/
def NoCollision (ns set_name k : Text) : Prop :=
  ∀ pl pieces, F.Cut ns set_name k pl → F.Mix ns set_name k pl pieces →
    crc32 pieces.flatten = crc32 (F.payload k) → pieces.flatten = F.payload k

variable {F}

theorem NativeWithin.of_unchecked {conn : NativeConnector} {key : Text}
    (h : F.unchecked.NativeWithin conn key) : F.NativeWithin conn key :=
  ⟨h.1, fun ck hck => ⟨hck, (h.2 ck hck).no_nul, (h.2 ck hck).short⟩⟩

theorem Allows.of_unchecked {op : FleetOp} (h : F.unchecked.Allows op) : F.Allows op := by
  cases op with
  | python op =>
    obtain ⟨heng, hwithin⟩ := h
    refine ⟨heng, ?_⟩
    cases op with
    | put eng ck mo pinned => exact ⟨hwithin.1.1, hwithin.2⟩
    | batched_put eng items pinned =>
      intro item hitem
      exact ⟨(hwithin item hitem).1.1, (hwithin item hitem).2⟩
    | _ => exact hwithin
  | load eng items => exact h
  | native_get conn key buf len => exact ⟨h.1.of_unchecked, h.2⟩
  | native_set conn key buf => exact ⟨h.1.of_unchecked, h.2⟩
  | native_exists conn key => exact NativeWithin.of_unchecked h
  | native_delete conn key => exact NativeWithin.of_unchecked h

/-- Members that record no CRC leave none on an empty store. -/
theorem crc_none_of_unchecked {op : FleetOp} (hop : F.unchecked.Allows op)
    {r : Except FleetExc FleetResult} {w : World}
    (hexec : client.Exec op.prog World.empty r w) {rec : Record}
    (hrec : w.records (meta_key ns set_name k) = some rec) : rec.bins .crc32 = none := by
  have hinv := ((fleetProtocol F.unchecked).exec_ok (fleet_safe op hop) hexec
    (World.each_empty _)).1
  by_contra hsome
  obtain ⟨v, hv⟩ := Option.ne_none_iff_exists'.mp hsome
  obtain ⟨-, eng, heng, hon⟩ := ((hinv _ rec hrec).of_crc _ _ k rfl).value v hv
  rw [heng.2] at hon
  cases hon

end Fleet

/-! ## What the check finds -/

/-- What a checking `get` has put together is the payload: the recorded CRC says so, or the meta
record has none and there are no pieces but those of its cut. -/
theorem hitGathers_checked {eng : Engine} {preallocated : Option MemoryObj} {hit : Hit}
    (h : HitGathers (fleetProtocol F) eng k preallocated hit)
    (hon : eng.cfg.enable_crc32 = true)
    (hinside : hit.total_written ≤ hit.filled.byte_array.length)
    (hcollide : F.NoCollision eng.cfg.ns eng.cfg.set_name k)
    (hagree : F.UncheckedCutsAgree eng.cfg.ns eng.cfg.set_name k) :
    hit.Delivers eng preallocated (F.payload k) := by
  obtain ⟨bins, mo, reshaped, pieces, hmeta, hstate, hbuffer, hpieces, hfills, hcrc, -⟩ := h
  obtain ⟨pl, hcut, hnseg, hseg, hmix⟩ := hpieces.mix hmeta hstate
  have hbins := (resOk_get hmeta).of_crc _ _ k rfl
  have hspells : pieces.flatten = F.payload k := by
    rcases hv : bins .crc32 with _ | v
    · obtain ⟨pl', hcut', hnseg', hseg'⟩ := hbins.unrecorded _ hstate hv
      have hpl : pl = pl' := by
        rw [hnseg] at hnseg'
        rw [hseg] at hseg'
        simp only [Option.some.injEq, BinVal.int.injEq, Nat.cast_inj] at hnseg' hseg'
        rcases pl with ⟨n, b⟩
        rcases pl' with ⟨n', b'⟩
        simp_all
      subst hpl
      exact hmix.flatten hcut fun pl' => hagree pl pl' hcut'
    · obtain ⟨rfl, -⟩ := hbins.value v hv
      apply hcollide pl pieces hcut hmix
      rw [hfills.length_filled, hfills.written] at hinside
      rw [hfills.filled, hfills.written] at hcrc
      have hsame := (crc_matches_iff eng bins hinside).mp hcrc hon _ hv
      rw [pyEqInt_crc32] at hsame
      exact hsame.symm
  rw [hspells] at hfills
  exact ⟨bins, mo, reshaped, hbuffer, hfills⟩

/-! ## What it misses -/

/-- A reader of this namespace and set that checks CRCs. -/
def checkingReader (ns set_name : Text) : Engine :=
  { engineOn ns set_name with
    cfg := { (engineOn ns set_name).cfg with enable_crc32 := true } }

theorem checkingReader_lawful (ns set_name : Text) : (checkingReader ns set_name).LawfulMemory where
  frombuffer_eq := (fakeEngine_lawful (.ofTarget 1) false false 0).frombuffer_eq
  reshape_take := (fakeEngine_lawful (.ofTarget 1) false false 0).reshape_take

/-- Under a meta record without CRC it reads whatever the store holds. -/
theorem checkingReader_hits {pieces : List Bytes} {bins : Bins} {w : World}
    (h : w.Holds ns set_name k pieces bins) (hnone : bins .crc32 = none) :
    ∃ buf hit, client.Exec ((checkingReader ns set_name).get k (some buf)) w (.ok (some hit)) w ∧
      hit.Fills buf pieces.flatten ∧ pieces.flatten.length ≤ buf.byte_array.length := by
  have hread : w.Holds (checkingReader ns set_name).cfg.ns (checkingReader ns set_name).cfg.set_name
      k pieces bins := h
  have hinside := (MemoryObj.length_zeros pieces.flatten.length).ge
  have hbuf : (checkingReader ns set_name).receive_buffer bins
      (some (.zeros pieces.flatten.length)) = .ok (some (.zeros pieces.flatten.length), false) :=
    rfl
  have hcrc := (crc_matches_iff (checkingReader ns set_name) bins hinside).mpr
    fun _ expected hexpected => by
      rw [hnone] at hexpected
      cases hexpected
  obtain ⟨hit, hrun, hfills⟩ := run_get_hit hread hbuf
    ((checkingReader ns set_name).receives_zeros pieces) hcrc (fun h => by cases h)
  refine ⟨_, hit, ?_, hfills, hinside⟩
  have hexec := exec_run_perform ((checkingReader ns set_name).get k
    (some (.zeros pieces.flatten.length))) w
  rwa [hrun] at hexec

/-- **What CRCs protect.**  In a fleet whose members have limits of their own, and where no
mixture of pieces has the CRC of the payload by accident, every `get` that checks CRCs delivers
the payload or nothing, in every interleaving, if and only if a cut into several pieces by a
member that records no CRC is the only such cut. -/
theorem checked_reads_deliver_iff (F : Fleet) (ns set_name k : Text)
    (hcollide : F.NoCollision ns set_name k) :
    F.CheckedReadsDeliver ns set_name k ↔ F.UncheckedCutsAgree ns set_name k := by
  constructor
  · intro hsafe pl pl' hcut hcut' hn hn'
    by_contra hne
    -- the member that completes its write records no CRC
    obtain ⟨opA, hA, rA, w₁, bins, hexecA, hstored⟩ := hcut.completes World.empty
    obtain ⟨rec, hrec, rfl⟩ := hstored.holds.found
    have hnone := Fleet.crc_none_of_unchecked hA hexecA hrec
    obtain ⟨w₂, ts, hmixed, hholds⟩ :=
      mixture_reachable hA.of_unchecked hexecA hstored hn hcut' hn'
    -- so a reader that checks CRCs hits, and has received the mixture
    obtain ⟨buf, hit, hread, hfills, hinside⟩ := checkingReader_hits hholds hnone
    rw [← hfills.written, ← hfills.length_filled] at hinside
    have hget : F.Allows (.python (.get (checkingReader ns set_name) k (some buf))) :=
      ⟨checkingReader_lawful _ _, trivial⟩
    have hrun := Pool.reachable_exec hmixed _ hget
      (client.exec_bind_ret _ (client.exec_mapError _ (client.exec_bind_ret _ hread)))
    obtain ⟨_, _, _, _, hdelivers⟩ := hsafe _ hrun _ _ hit rfl rfl rfl List.mem_cons_self hinside
    exact mixedPieces_first_ne hcut.covers hcut'.covers hn hn' hne (hfills.unique hdelivers)
  · intro hagree c hc eng preallocated hit hns hset hon hhit hinside
    subst hns hset
    exact hitGathers_checked
      (((fleetProtocol F).reachable fleet_safe (World.each_empty _) hc).2 _ hhit hit rfl) hon
      hinside hcollide hagree

/-- Two engines that record CRCs, one with segments of two bytes and one with segments of one,
write three bytes under every key. -/
def guardedFleet : Fleet where
  payload := fun _ => [1, 2, 3]
  engines := fun eng => eng = fakeEngine (.ofTarget 2) true true 8 ∨
    eng = fakeEngine (.ofTarget 1) true true 8
  connectors := fun _ => False
  lawful := by
    rintro eng (rfl | rfl) <;> exact fakeEngine_lawful _ _ _ _
  names := fun _ h => h.elim

theorem guardedFleet_cut (h : guardedFleet.Cut ns set_name k pl) :
    pl = ⟨2, 2⟩ ∨ pl = ⟨3, 1⟩ := by
  cases h with
  | python eng heng _ _ hplan =>
    have htwo : (ResolvedLimits.ofTarget 2).shard_plan 3 = .ok ⟨2, 2⟩ := rfl
    have hone : (ResolvedLimits.ofTarget 1).shard_plan 3 = .ok ⟨3, 1⟩ := rfl
    rcases heng with rfl | rfl
    · exact Or.inl (Except.ok.inj (hplan.symm.trans htwo))
    · exact Or.inr (Except.ok.inj (hplan.symm.trans hone))
  | native conn key hconn => exact hconn.elim

/-- A piece that a reader of this fleet can meet. -/
theorem guardedFleet_piece {i : ℕ} {piece : Bytes}
    (h : ∃ pl', guardedFleet.Cut ns set_name k pl' ∧ pl'.nseg ≠ 1 ∧ i < pl'.nseg ∧
      piece = slice pl'.seg_b i (guardedFleet.payload k)) :
    piece = slice 2 i [1, 2, 3] ∨ piece = slice 1 i [1, 2, 3] := by
  obtain ⟨pl', hcut', -, -, rfl⟩ := h
  rcases guardedFleet_cut hcut' with rfl | rfl
  · exact Or.inl rfl
  · exact Or.inr rfl

theorem guardedFleet_noCollision (ns set_name k : Text) :
    guardedFleet.NoCollision ns set_name k := by
  intro pl pieces hcut hmix
  show crc32 _ = crc32 [1, 2, 3] → _ = [1, 2, 3]
  rcases guardedFleet_cut hcut with rfl | rfl
  · rw [Fleet.Mix, if_neg (by decide)] at hmix
    obtain ⟨a, rest, ha, hmix₁, rfl⟩ := List.forall₂_cons_left_iff.mp hmix
    obtain ⟨b, rest, hb, hmix₂, rfl⟩ := List.forall₂_cons_left_iff.mp hmix₁
    obtain rfl := List.forall₂_nil_left_iff.mp hmix₂
    rcases guardedFleet_piece ha with rfl | rfl <;> rcases guardedFleet_piece hb with rfl | rfl <;>
      decide +kernel
  · rw [Fleet.Mix, if_neg (by decide)] at hmix
    obtain ⟨a, rest, ha, hmix₁, rfl⟩ := List.forall₂_cons_left_iff.mp hmix
    obtain ⟨b, rest, hb, hmix₂, rfl⟩ := List.forall₂_cons_left_iff.mp hmix₁
    obtain ⟨c, rest, hc, hmix₃, rfl⟩ := List.forall₂_cons_left_iff.mp hmix₂
    obtain rfl := List.forall₂_nil_left_iff.mp hmix₃
    rcases guardedFleet_piece ha with rfl | rfl <;> rcases guardedFleet_piece hb with rfl | rfl <;>
      rcases guardedFleet_piece hc with rfl | rfl <;> decide +kernel

/-- Checking readers of this fleet are safe, although its members cut differently. -/
theorem checked_reads_deliver_iff_guarded :
    guardedFleet.CheckedReadsDeliver "lmcache".toList "kv_chunks".toList "ck".toList := by
  apply (checked_reads_deliver_iff guardedFleet "lmcache".toList "kv_chunks".toList "ck".toList
    (guardedFleet_noCollision _ _ _)).mpr
  intro pl pl' hcut
  cases hcut with
  | python eng heng =>
    obtain ⟨rfl | rfl, hoff⟩ := heng <;> cases hoff
  | native conn key hconn => exact hconn.elim

end FleetChecks
