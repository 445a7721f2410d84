/-
# Safety of one key that every writer gives one payload

LMCache keys are content-addressed: all writers of `k` write the same payload `p`.
When all engines also cut it by the same limits, a read of `k` may find records of any
mixture of puts, removals, expiries and crashed writers, and still every record that
can exist under the key agrees with the one plan of `p` (`SharedRecord`).  A `get` that
returns an object has therefore written `p` into its buffer and nothing else.
-/
import LmcacheAerospike.EngineWrites
import LmcacheAerospike.Reader
import LmcacheAerospike.RecordInvariant

/-! ## The records of the key -/

/-- What is true of every record that can ever exist under the keys of `k`: a meta record
that says ready names the plan `pl`, with the payload inline when it has one piece, and a
segment record holds its slice or nothing. -/
structure SharedRecord (k : Text) (p : Bytes) (pl : ShardPlan) (key : Key) (bins : Bins) :
    Prop where
  of_meta : ∀ ns set_name, key = meta_key ns set_name k →
    bins .state = some (.str "ready") →
    bins .nseg = some (.int pl.nseg) ∧ (pl.nseg = 1 → bins .b = some (.blob p))
  of_segment : ∀ ns set_name i, key = segment_key ns set_name k i →
    ∀ chunk, bins .b = some chunk → chunk = .blob (slice pl.seg_b i p)

/-- The single-record operations of the engines that work on `k` and put `p` under the
limits `L`. -/
def SharedOp (L : ResolvedLimits) (k : Text) (p : Bytes) (op : RecOp) : Prop :=
  ∃ eng : Engine, eng.resolved = L ∧
    EngineRecOp eng (fun ck => ck = k) (fun ck mo => ck = k ∧ mo.byte_array = p) op

section SharedKey

variable {L : ResolvedLimits} {k : Text} {p : Bytes} {pl : ShardPlan}

/-- **The step lemma**: every write keeps the invariant of the record it falls on. -/
theorem sharedRecord_kept
    (hL : ∀ pl', L.shard_plan p.length = .ok pl' → pl' = pl) :
    KeepsRecords (SharedRecord k p pl) (fun _ _ => True) (SharedOp L k p) := by
  intro wr w hop _ hold
  obtain ⟨eng, hlim, hop⟩ := hop
  cases hop with
  | of_read h => cases h
  | @write_segment ck mo p' ttl i hput hplan hn hi =>
    obtain ⟨rfl, rfl⟩ := hput
    rw [hlim] at hplan
    obtain rfl := hL p' hplan
    constructor
    · intro ns set_name hkey
      exact (meta_key_ne_segment_key _ _ _ _ _ _ _ hkey.symm).elim
    · intro ns set_name j hkey chunk hchunk
      obtain ⟨-, rfl⟩ := segment_key_inj hkey
      rw [segment_write_b] at hchunk
      exact (Option.some.inj hchunk).symm
  | @write_meta ck mo p' pinned now hput hplan =>
    obtain ⟨rfl, rfl⟩ := hput
    rw [hlim] at hplan
    obtain rfl := hL p' hplan
    constructor
    · intro ns set_name _ _
      refine ⟨meta_write_bins mo p' pinned now .nseg, fun hn => ?_⟩
      exact (meta_write_bins mo p' pinned now .b).trans (if_pos hn)
    · intro ns set_name i hkey
      exact (meta_key_ne_segment_key _ _ _ _ _ _ _ hkey).elim
  | @write_pin ck v ttl hck =>
    subst hck
    constructor
    · intro ns set_name hkey hstate
      -- the bins that the invariant speaks about are those of the old record
      rw [pin_write_of_ne (by decide)] at hstate
      rw [pin_write_of_ne (by decide), pin_write_of_ne (by decide)]
      cases hrec : w.records (eng.pin_write ck v ttl).key with
      | none =>
        rw [hrec] at hstate
        cases hstate
      | some r =>
        rw [hrec] at hstate
        exact (hold r hrec).of_meta ns set_name hkey hstate
    · intro ns set_name i hkey
      exact (meta_key_ne_segment_key _ _ _ _ _ _ _ hkey).elim

/-- The protocol of the key. -/
def sharedProtocol (hL : ∀ pl', L.shard_plan p.length = .ok pl' → pl' = pl) :
    Protocol client Expiry :=
  recordProtocol (G := fun _ _ => True) faulty_unguarded (SharedRecord k p pl)
    (SharedOp L k p) (sharedRecord_kept hL)

theorem shared_call {eng : Engine} (hlim : eng.resolved = L) {o : Op}
    (h : EngineCall eng (fun ck => ck = k) (fun ck mo => ck = k ∧ mo.byte_array = p) o) :
    ∀ i ∈ o.items, SharedOp L k p i :=
  fun i hi => ⟨eng, hlim, h i hi⟩

/-- A read of `k` meets nothing but the pieces of `p`. -/
theorem shared_reads {eng : Engine} (hlim : eng.resolved = L)
    (hL : ∀ pl', L.shard_plan p.length = .ok pl' → pl' = pl) (hcov : pl.Covers p.length) :
    (sharedProtocol (k := k) hL).Reads eng k (pl.pieces p) where
  good_get := shared_call hlim (engineCall_single rfl (.of_read (.read_meta rfl)))
  good_batch_read := shared_call hlim (engineCall_of_read (engineCall_read_segments _ rfl))
  good_ref_count_down := shared_call hlim (engineCall_single rfl (.of_read .ref_count_down))
  of_get := fun bins hx hstate => by
    rw [pl.length_pieces, hcov.flatten_pieces]
    exact (resOk_get hx).of_meta _ _ rfl hstate
  of_batch_read := fun _ recs hx => by
    have hrecs := resOk_batch_read hx
    rw [pl.length_pieces, segment_keys, List.forall₂_map_left_iff] at hrecs
    rw [ShardPlan.pieces, List.forall₂_map_right_iff]
    apply hrecs.flip.imp
    intro rec i hrec bins hbins chunk hchunk
    obtain ⟨full, hfull, rfl⟩ := hrec bins hbins
    exact hfull.of_segment _ _ i rfl chunk hchunk

/-! ## Any interleaving -/

/-- The operations of clients that all use the limits `L`, work on `k` and give it `p`. -/
def SharedClient (L : ResolvedLimits) (k : Text) (p : Bytes) (op : ClientOp) : Prop :=
  op.Within (fun ck => ck = k) (fun ck mo => ck = k ∧ mo.byte_array = p) ∧
    op.eng.resolved = L ∧ op.eng.LawfulMemory

/-- What an operation of such a client may end in: a `get` that hits has delivered `p`. -/
def SharedPost (p : Bytes) : ClientOp → Except PyExc OpResult → Prop
  | .get eng _ preallocated, .ok (.got (some hit)) => hit.Delivers eng preallocated p
  | _, _ => True

theorem shared_safe (hL : ∀ pl', L.shard_plan p.length = .ok pl' → pl' = pl)
    (hcov : pl.Covers p.length) (op : ClientOp) (hop : SharedClient L k p op) :
    (sharedProtocol (k := k) hL).Safe (SharedPost p op) op.prog := by
  obtain ⟨hwithin, hlim, heng⟩ := hop
  have hcalls : op.prog.AllCalls (sharedProtocol (k := k) hL).Good :=
    Prog.allCalls_mono (fun o ho => shared_call hlim ho) _ (op.prog_calls hwithin)
  cases op with
  | get eng ck preallocated =>
    obtain rfl : ck = k := hwithin
    have hget := get_safe (shared_reads (k := ck) hlim hL hcov) heng preallocated
    rw [hcov.flatten_pieces] at hget
    refine Protocol.safe_bind _ _ _ hget (fun hit hh => ?_) fun e _ => trivial
    cases hit with
    | none => trivial
    | some hit => exact hh
  | _ => exact Protocol.safe_of_allCalls _ (fun r => trivial) _ hcalls

/-- **Protocol safety of the shared store.**  Any number of clients with the limits `L`
work on `k`, each writing `p`, under any interleaving of the single-record steps of their
calls, any client stopping at any moment and any record expiring at any moment: a `get`
that has returned an object has written exactly the `p.length` bytes of `p` into it. -/
theorem shared_key_get_delivers (L : ResolvedLimits) (k : Text) (p : Bytes)
    (c : Pool client ClientOp PyExc OpResult)
    (hc : Pool.Reachable Expiry ClientOp.prog (SharedClient L k p) World.empty c)
    (eng : Engine) (preallocated : Option MemoryObj) (hit : Hit)
    (hhit : Thread.at (.get eng k preallocated) (.ret (.got (some hit))) ∈ c.threads) :
    hit.Delivers eng preallocated p := by
  -- limits under which no plan exists let no writer write
  have hplan : ∃ pl : ShardPlan, pl.Covers p.length ∧
      ∀ pl', L.shard_plan p.length = .ok pl' → pl' = pl := by
    cases hpl : L.shard_plan p.length with
    | error e => exact ⟨_, covers_single _, fun pl' h => by cases h⟩
    | ok pl => exact ⟨pl, plan_covers _ _ _ _ _ _ hpl, fun pl' h => by cases h; rfl⟩
  obtain ⟨pl, hcov, hL⟩ := hplan
  have hreach := (sharedProtocol (k := k) hL).reachable (shared_safe hL hcov)
    (World.each_empty _) hc
  exact hreach.2 _ hhit

/-- One such run: a put of three bytes in two pieces, and then a `get`. -/
theorem shared_key_get_delivers_two_pieces :
    ∃ (c : Pool client ClientOp PyExc OpResult) (hit : Hit),
      Pool.Reachable Expiry ClientOp.prog
        (SharedClient (.ofTarget 2) "k".toList [1, 2, 3]) World.empty c ∧
      Thread.at (.get (fakeEngine (.ofTarget 2) true true 8) "k".toList none)
        (.ret (.got (some hit))) ∈ c.threads ∧
      hit.Delivers (fakeEngine (.ofTarget 2) true true 8) none [1, 2, 3] := by
  have hlawful := fakeEngine_lawful (.ofTarget 2) true true 8
  have hput : SharedClient (.ofTarget 2) "k".toList [1, 2, 3]
      (.put (fakeEngine (.ofTarget 2) true true 8) "k".toList
        { byte_array := [1, 2, 3] } false) := ⟨⟨rfl, rfl⟩, rfl, hlawful⟩
  have hget : SharedClient (.ofTarget 2) "k".toList [1, 2, 3]
      (.get (fakeEngine (.ofTarget 2) true true 8) "k".toList none) := ⟨rfl, rfl, hlawful⟩
  have hstart : Pool.Reachable Expiry ClientOp.prog
      (SharedClient (.ofTarget 2) "k".toList [1, 2, 3]) World.empty
      (⟨World.empty, []⟩ : Pool client ClientOp PyExc OpResult) := Relation.ReflTransGen.refl
  have hrun := Pool.reachable_exec (Pool.reachable_exec hstart _ hput
    (exec_run_perform _ _)) _ hget (exec_run_perform _ _)
  exact ⟨_, _, hrun, List.mem_cons_self,
    shared_key_get_delivers _ _ _ _ hrun _ _ _ List.mem_cons_self⟩

end SharedKey
