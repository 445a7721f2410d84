/-
# Completed writes stay readable

Members of a fleet write, read and pin, in any interleaving, any call failing and any client
stopping at any moment, while nobody removes the key and its records do not expire.  Where the
cuts of the payload agree, once a write of the key has returned, every read that then runs
through delivers the payload (`completed_writes_stay`).
-/
import LmcacheAerospike.FleetAnswers

section FleetDurable

variable {F : Fleet} {ns set_name k : Text}

/-! ## Any interleaving -/

/-- The operation has written the key: a put or a native write that has returned, or an item of
a batch whose flag is set. -/
def FleetOp.Wrote (ns set_name k : Text) : FleetOp → FleetResult → Prop
  | .python (.put eng ck _ _), _ => eng.metaKey ck = meta_key ns set_name k
  | .python (.batched_put eng items _), .python (.flags flags) =>
    ∃ (i : ℕ) (ck : Text) (mo : MemoryObj), items[i]? = some (ck, mo) ∧
      eng.metaKey ck = meta_key ns set_name k ∧ flags[i]? = some true
  | .native_set conn key _, _ => ∃ ck, native_key_to_cache_engine_key key conn.dtype = .ok ck ∧
      meta_key conn.ns conn.set_name ck = meta_key ns set_name k
  | _, _ => False

/-- What holds from where an operation has ended. -/
def DurablePost (ns set_name k : Text) (op : FleetOp) (w : World)
    (r : Except FleetExc FleetResult) : Prop :=
  ∀ x, r = .ok x → op.Wrote ns set_name k x → KeyCommitted ns set_name k w

section Safe

variable {hagree : F.CutsAgree ns set_name k} {w : World}

/-- An operation whose program ends as `Mid` says. -/
theorem durable_of_safe {op : FleetOp} {α E : Type} {Mid : World → Except E α → Prop}
    (f : E → FleetExc) (g : α → FleetResult) (p : Prog Op Op.Res E α)
    (hp : (storedProtocol hagree).Safe Mid w p)
    (hdone : ∀ w a, Mid w (.ok a) → op.Wrote ns set_name k (g a) → KeyCommitted ns set_name k w) :
    (storedProtocol hagree).Safe (DurablePost ns set_name k op) w
      ((p.mapError f).bind fun a => .ret (g a)) := by
  apply LastingProtocol.safe_map
  apply LastingProtocol.safe_mapError
  refine LastingProtocol.safe_mono _ (fun w r hr x heq hwrote => ?_) _ hp
  rcases r with e | a
  · cases heq
  · cases heq
    exact hdone w a hr hwrote

/-- An operation with quiet calls that does not write the key. -/
theorem durable_of_quiet {op : FleetOp} (hp : op.prog.AllCalls (F.QuietCall ns set_name k))
    (hwrote : ∀ x, ¬ op.Wrote ns set_name k x) :
    (storedProtocol hagree).Safe (DurablePost ns set_name k op) w op.prog := by
  have hsafe : (storedProtocol hagree).Safe (fun _ _ => True) w op.prog :=
    LastingProtocol.safe_of_allCalls _ (fun _ _ _ => trivial)
      (fun w o ho i hi => (ho i hi).alwaysAdmits w) _ hp
  exact LastingProtocol.safe_mono _ (fun _ _ _ x _ hx => absurd hx (hwrote x)) _ hsafe

/-- A put. -/
theorem durable_put {eng : Engine} {ck : Text} {mo : MemoryObj} {pinned : Bool}
    (hop : F.Allows (.python (.put eng ck mo pinned))) :
    (storedProtocol hagree).Safe (DurablePost ns set_name k (.python (.put eng ck mo pinned))) w
      (FleetOp.prog (.python (.put eng ck mo pinned))) := by
  obtain ⟨-, heng, hmo⟩ := hop
  have hput : (storedProtocol hagree).Safe
      (fun w r => ∀ x, r = .ok x → KeyDone (eng.metaKey ck) ns set_name k w) w
      ((eng.put ck mo pinned).bind fun _ => .ret OpResult.done) := by
    apply LastingProtocol.safe_bind _ _ _ (put_lasts heng hmo pinned)
    · exact fun w₁ _ _ hdone w₂ hlasts _ _ => (hdone rfl).later hlasts
    · intro w₁ e _ _ x heq
      cases heq
  exact durable_of_safe _ _ _ hput fun w x hdone hwrote => hdone x rfl hwrote

/-- A batch. -/
theorem durable_batched_put {eng : Engine} {items : List (Text × MemoryObj)} {pinned : Bool}
    (hop : F.Allows (.python (.batched_put eng items pinned))) :
    (storedProtocol hagree).Safe
      (DurablePost ns set_name k (.python (.batched_put eng items pinned))) w
      (FleetOp.prog (.python (.batched_put eng items pinned))) := by
  have hput : (storedProtocol hagree).Safe
      (fun w r => ∀ x, r = .ok x → ∃ flags, x = .flags flags ∧
        eng.FlagsDone ns set_name k items w (.ok flags)) w
      ((eng.batched_put items pinned).bind fun r => .ret (OpResult.flags r)) := by
    apply LastingProtocol.safe_bind _ _ _ (batched_put_lasts hop.2)
    · intro w₁ flags _ hdone w₂ hlasts x heq
      cases heq
      exact ⟨flags, rfl, hdone.later hlasts⟩
    · intro w₁ e _ _ x heq
      cases heq
  refine durable_of_safe _ _ _ hput fun w x hdone hwrote => ?_
  obtain ⟨flags, rfl, hflags⟩ := hdone x rfl
  obtain ⟨i, ck, mo, hitem, hkey, hflag⟩ := hwrote
  obtain ⟨hi, hitem⟩ := List.getElem?_eq_some_iff.mp hitem
  obtain ⟨hi', hflag⟩ := List.getElem?_eq_some_iff.mp hflag
  have hcommitted := (hflags flags rfl).get hi hi'
  rw [List.get_eq_getElem, List.get_eq_getElem, hitem, hflag] at hcommitted
  exact hcommitted rfl hkey

/-- The native write. -/
theorem durable_native_set {conn : NativeConnector} {key : Text} {buf : Bytes}
    (hop : F.Allows (.native_set conn key buf)) :
    (storedProtocol hagree).Safe (DurablePost ns set_name k (.native_set conn key buf)) w
      (FleetOp.prog (.native_set conn key buf)) := by
  obtain ⟨⟨hconn, hkeys⟩, hbuf⟩ := hop
  rcases hkey : native_key_to_cache_engine_key key conn.dtype with e | ck
  · have hraise : conn.do_single_set key buf = .raise e := by
      unfold NativeConnector.do_single_set
      rw [hkey]
      rfl
    show LastingProtocol.Safe _ _ _ (Prog.bind (Prog.mapError _ (conn.do_single_set key buf)) _)
    rw [hraise]
    intro w₁ _ x heq
    cases heq
  · obtain rfl := hbuf ck hkey
    refine durable_of_safe FleetExc.native (fun _ => .done) _
      (set_lasts hconn (hkeys ck hkey)) fun w a hdone hwrote => ?_
    obtain ⟨ck', hkey', hsame⟩ := hwrote
    rw [hkey] at hkey'
    cases hkey'
    exact hdone rfl hsame

/-- **Every operation but a removal of the key** keeps it, and has committed it when it has
written it. -/
theorem durable_safe (op : FleetOp) (w : World)
    (hop : F.Allows op ∧ ¬ op.Removes ns set_name k) :
    (storedProtocol hagree).Safe (DurablePost ns set_name k op) w op.prog := by
  obtain ⟨hallows, hremoves⟩ := hop
  have hquiet : ¬ op.Writes ns set_name k → (∀ x, ¬ op.Wrote ns set_name k x) →
      (storedProtocol hagree).Safe (DurablePost ns set_name k op) w op.prog := fun hwrites =>
    durable_of_quiet (op.quiet_calls hallows hwrites hremoves)
  rcases op with op | _ | _ | _ | _ | _
  · cases op with
    | put => exact durable_put hallows
    | batched_put => exact durable_batched_put hallows
    | _ => exact hquiet id fun _ => id
  · exact hquiet id fun _ => id
  · exact hquiet id fun _ => id
  · exact durable_native_set hallows
  · exact hquiet id fun _ => id
  · exact hquiet id fun _ => id

end Safe

/-! ## Reading what is committed -/

/-- A committed key holds the payload in the pieces of one cut, and its CRC, if it has one. -/
theorem storedBy_of_committed {w : World} (hrecords : w.Each (FleetRecord F))
    (hwhole : F.Whole ns set_name k w) (h : KeyCommitted ns set_name k w) :
    ∃ pl bins, w.StoredBy ns set_name k (F.payload k) pl bins ∧
      ∀ v, bins .crc32 = some v → v = .int (crc32 (F.payload k)) := by
  obtain ⟨pl, r, hr, hmeta⟩ := metaOf_committed hrecords h
  exact ⟨pl, r.bins, hmeta.storedBy ⟨r, hr, rfl⟩ fun hne => hwhole r pl hr hmeta.cut hne hmeta.nseg,
    hmeta.crc⟩

/-- **Completed writes stay readable.**  Any number of Python and native clients share a store,
under any interleaving of the single-record steps of their calls, any call failing and any
client stopping at any moment; nobody removes the key `k` and its records do not expire, and all
writers cut its payload into several pieces in one way only.  Once a put or a native write of
the key has returned, or a batch has flagged it as stored, every later state of the store has
the key: `exists` finds it, every `get` into a buffer that fits, checking CRCs or not, hits with
the payload, and every native read of its length copies it. -/
theorem completed_writes_stay (F : Fleet) (ns set_name k : Text)
    (hagree : F.CutsAgree ns set_name k) (c : Pool client FleetOp FleetExc FleetResult)
    (hc : Pool.Reachable (KeyKept ns set_name k) FleetOp.prog
      (fun op => F.Allows op ∧ ¬ op.Removes ns set_name k) World.empty c)
    (op : FleetOp) (x : FleetResult) (hdone : Thread.at op (.ret x) ∈ c.threads)
    (hwrote : op.Wrote ns set_name k x) :
    (∀ eng : Engine, eng.cfg.ns = ns → eng.cfg.set_name = set_name →
      (eng.exists_ k).run Op.perform c.state = (.ok true, c.state) ∧
      ∀ buf : MemoryObj, eng.TorchReads → (F.payload k).length ≤ buf.byte_array.length →
        (buf.raw_is_tensor = true → F.payload k ≠ []) →
        ∃ hit, (eng.get k (some buf)).run Op.perform c.state = (.ok (some hit), c.state) ∧
          hit.Fills buf (F.payload k)) ∧
    ∀ (conn : NativeConnector) (key : Text) (buf : Bytes), conn.Addresses ns set_name k →
      native_key_to_cache_engine_key key conn.dtype = .ok k →
      (conn.do_single_exists key).run Op.perform c.state = (.ok true, c.state) ∧
      (1 ≤ (F.payload k).length → (F.payload k).length < 2 ^ 32 →
        (F.payload k).length ≤ buf.length →
        (conn.do_single_get key buf (F.payload k).length).run Op.perform c.state
          = (.ok (splice 0 (F.payload k) buf), c.state)) := by
  have hempty : World.empty.Each (FleetRecord F) ∧ F.Whole ns set_name k World.empty :=
    ⟨World.each_empty _, fun r pl hr => by cases hr⟩
  obtain ⟨⟨hrecords, hwhole⟩, hthreads⟩ :=
    (storedProtocol hagree).reachable durable_safe hempty hc
  have hcommitted : KeyCommitted ns set_name k c.state :=
    hthreads _ hdone c.state (Fleet.Lasts.refl _) x rfl hwrote
  obtain ⟨pl, bins, hstored, hcrc⟩ := storedBy_of_committed hrecords hwhole hcommitted
  obtain ⟨r, hr, rfl⟩ := hstored.holds.found
  refine ⟨?_, fun conn key buf haddr hkey => ⟨?_, fun hp₁ hp hbuf => ?_⟩⟩
  · rintro eng rfl rfl
    refine ⟨?_, fun buf htorch hroom hne => ?_⟩
    · rw [run_exists, World.hasMeta, hr]
      rfl
    · have hflat : (pl.pieces (F.payload k)).flatten = F.payload k := hstored.covers.flatten_pieces
      have hrec := Engine.Receives.of_covers htorch hstored.covers hroom hne
      have hbuf : eng.receive_buffer r.bins (some buf) = .ok (some buf, false) := rfl
      obtain ⟨hit, hrun, hfills⟩ := run_get_hit hstored.holds hbuf hrec
        (by
          rw [hflat, crc_matches_iff _ _ hroom]
          intro _ expected hexpected
          rw [hcrc expected hexpected]
          simp)
        (by rintro ⟨⟩)
      rw [hflat] at hfills
      exact ⟨hit, hrun, hfills⟩
  · rw [run_do_single_exists hkey, haddr.meta_eq, hr]
    rfl
  · exact run_do_single_get_stored hkey haddr hstored hp₁ hp hbuf

/-- One such run: a native write of three bytes in two segments, and then a pin. -/
theorem completed_writes_stay_small :
    ∃ c : Pool client FleetOp FleetExc FleetResult,
      Pool.Reachable (KeyKept "lmcache".toList "kv_chunks".toList "m@1@0@a@bfloat16".toList)
        FleetOp.prog (fun op => smallFleet.Allows op ∧ ¬ op.Removes "lmcache".toList
          "kv_chunks".toList "m@1@0@a@bfloat16".toList) World.empty c ∧
      (∃ hit, ((fakeEngine (.ofTarget 2) true true 8).get "m@1@0@a@bfloat16".toList
          (some { byte_array := [0, 0, 0, 9] })).run Op.perform c.state
            = (.ok (some hit), c.state) ∧
        hit.Fills { byte_array := [0, 0, 0, 9] } [1, 2, 3]) ∧
      (nativeExample.do_single_get "m@01000000@0a".toList [0, 0, 0, 9] 3).run Op.perform c.state
        = (.ok [1, 2, 3, 9], c.state) := by
  have hset : smallFleet.Allows (.native_set nativeExample "m@01000000@0a".toList [1, 2, 3]) :=
    ⟨smallFleet_within, fun _ _ => rfl⟩
  have hpin : smallFleet.Allows (.python (.pin (fakeEngine (.ofTarget 2) true true 8)
      "m@1@0@a@bfloat16".toList)) := ⟨fakeEngine_lawful _ _ _ _, trivial⟩
  have hstart : Pool.Reachable (KeyKept "lmcache".toList "kv_chunks".toList
      "m@1@0@a@bfloat16".toList) FleetOp.prog (fun op => smallFleet.Allows op ∧
        ¬ op.Removes "lmcache".toList "kv_chunks".toList "m@1@0@a@bfloat16".toList) World.empty
      (⟨World.empty, []⟩ : Pool client FleetOp FleetExc FleetResult) :=
    Relation.ReflTransGen.refl
  have hrun := Pool.reachable_exec (Pool.reachable_exec hstart _ ⟨hset, id⟩
    (exec_run_perform _ _)) _ ⟨hpin, id⟩ (exec_run_perform _ _)
  obtain ⟨hpython, hnative⟩ := completed_writes_stay smallFleet _ _ _
    (smallFleet_cutsAgree _ _ _) _ hrun _ .done (List.mem_cons_of_mem _ List.mem_cons_self)
    ⟨"m@1@0@a@bfloat16".toList, by decide, rfl⟩
  obtain ⟨-, hget⟩ := hpython (fakeEngine (.ofTarget 2) true true 8) rfl rfl
  have hgot := hget { byte_array := [0, 0, 0, 9] } (fakeEngine_torchReads _ _ _ _) (by decide)
    (by decide)
  obtain ⟨-, hcopies⟩ := hnative nativeExample "m@01000000@0a".toList [0, 0, 0, 9]
    (addresses_of_notMem (by decide) (by decide) (by decide)) (by decide)
  exact ⟨_, hrun, hgot, hcopies (by decide) (by decide) (by decide)⟩

end FleetDurable
