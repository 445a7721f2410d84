/-
# Operations that leave a key alone

Of the operations of a fleet, those that neither write the key nor remove it leave its records
as they are, but for pins and times to live: every single-record operation that one of them can
make, whatever it is answered, is quiet (`FleetOp.quiet_calls`).
-/
import LmcacheAerospike.Fleet

/-- The records of the key. -/
def KeyRecord (ns set_name k : Text) (key : Key) : Prop :=
  key = meta_key ns set_name k ∨ ∃ i, key = segment_key ns set_name k i

/-- An operation of the fleet that neither removes a record of the key nor writes one, but for
the pin of its meta record. -/
structure Fleet.QuietOp (F : Fleet) (ns set_name k : Text) (op : RecOp) : Prop where
  allowed : F.RecOps op
  keeps : ∀ key, op = .remove key → ¬ KeyRecord ns set_name k key
  pins : ∀ wr, op = .write wr → KeyRecord ns set_name k wr.key →
    wr.key = meta_key ns set_name k ∧ ∀ kv ∈ wr.ops, kv.1 = .pin

/-- A call of quiet operations. -/
def Fleet.QuietCall (F : Fleet) (ns set_name k : Text) (o : Op) : Prop :=
  ∀ i ∈ o.items, F.QuietOp ns set_name k i

/-- The operation removes the key. -/
def FleetOp.Removes (ns set_name k : Text) : FleetOp → Prop
  | .python (.remove eng ck) => eng.metaKey ck = meta_key ns set_name k
  | .native_delete conn key => ∃ ck, native_key_to_cache_engine_key key conn.dtype = .ok ck ∧
      meta_key conn.ns conn.set_name ck = meta_key ns set_name k
  | _ => False

/-- The operation writes the key. -/
def FleetOp.Writes (ns set_name k : Text) : FleetOp → Prop
  | .python (.put eng ck _ _) => eng.metaKey ck = meta_key ns set_name k
  | .python (.batched_put eng items _) =>
    ∃ item ∈ items, eng.metaKey item.1 = meta_key ns set_name k
  | .native_set conn key _ => ∃ ck, native_key_to_cache_engine_key key conn.dtype = .ok ck ∧
      meta_key conn.ns conn.set_name ck = meta_key ns set_name k
  | _ => False

section Quiet

variable {F : Fleet} {ns set_name k : Text}

/-! ## Keys -/

/-- A meta record is of the key only if it is its meta record. -/
theorem keyRecord_of_meta {ns' set_name' ck : Text}
    (h : KeyRecord ns set_name k (meta_key ns' set_name' ck)) :
    meta_key ns' set_name' ck = meta_key ns set_name k := by
  rcases h with hsame | ⟨i, hsame⟩
  · exact hsame
  · exact (meta_key_ne_segment_key _ _ _ _ _ _ _ hsame).elim

/-- A segment record is of the key only if it is one of its segments. -/
theorem keyRecord_of_segment {ns' set_name' ck : Text} {i : ℕ}
    (h : KeyRecord ns set_name k (segment_key ns' set_name' ck i)) :
    meta_key ns' set_name' ck = meta_key ns set_name k := by
  rcases h with hsame | ⟨j, hsame⟩
  · exact (meta_key_ne_segment_key _ _ _ _ _ _ _ hsame.symm).elim
  · have hns : ns' = ns := congrArg Key.ns hsame
    have hset : set_name' = set_name := congrArg Key.set_name hsame
    obtain ⟨rfl, -⟩ := segment_key_inj hsame
    rw [hns, hset]

/-! ## Single operations -/

/-- An operation that neither writes nor removes. -/
theorem quiet_of_neither {op : RecOp} (hop : F.RecOps op) (hwrite : ∀ wr, op ≠ .write wr)
    (hremove : ∀ key, op ≠ .remove key) : F.QuietOp ns set_name k op :=
  ⟨hop, fun key hkey => absurd hkey (hremove key), fun wr hwr => absurd hwr (hwrite wr)⟩

theorem quiet_read {eng : Engine} {K : Text → Prop} {op : RecOp} (h : EngineReadOp eng K op) :
    F.QuietOp ns set_name k op := by
  cases h with
  | read_meta =>
    exact quiet_of_neither (.python eng (.of_read (.read_meta trivial))) (by simp) (by simp)
  | read_segment =>
    exact quiet_of_neither (.python eng (.of_read (.read_segment trivial))) (by simp) (by simp)
  | ref_count_down =>
    exact quiet_of_neither (.python eng (.of_read .ref_count_down)) (by simp) (by simp)

theorem quiet_pin (eng : Engine) (ck : Text) (v : Bool) (ttl : ℤ) :
    F.QuietOp ns set_name k (.write (eng.pin_write ck v ttl)) where
  allowed := .python eng (.write_pin trivial)
  keeps := by simp
  pins := by
    rintro wr hwr hrec
    cases hwr
    exact ⟨keyRecord_of_meta hrec, by simp [Engine.pin_write]⟩

theorem quiet_touch (eng : Engine) (ck : Text) (ttl : ℤ) :
    F.QuietOp ns set_name k (.touch (eng.metaKey ck) ttl) :=
  quiet_of_neither (.python eng (.touch_meta trivial)) (by simp) (by simp)

/-- The operations of an engine on other keys. -/
theorem quiet_of_engine {eng : Engine} {K : Text → Prop} {P : Text → MemoryObj → Prop} {op : RecOp}
    (hK : ∀ ck, K ck → eng.metaKey ck ≠ meta_key ns set_name k)
    (hP : ∀ ck mo, P ck mo → (F.engines eng ∧ mo.byte_array = F.payload ck) ∧
      eng.metaKey ck ≠ meta_key ns set_name k)
    (h : EngineRecOp eng K P op) : F.QuietOp ns set_name k op := by
  cases h with
  | of_read h => exact quiet_read h
  | @write_segment ck mo pl ttl i hput hplan hn hi =>
    obtain ⟨hmember, hother⟩ := hP ck mo hput
    refine ⟨.python eng (.write_segment hmember hplan hn hi), by simp, fun wr hwr hrec => ?_⟩
    cases hwr
    exact (hother (keyRecord_of_segment hrec)).elim
  | @write_meta ck mo pl pinned now hput hplan =>
    obtain ⟨hmember, hother⟩ := hP ck mo hput
    refine ⟨.python eng (.write_meta hmember hplan), by simp, fun wr hwr hrec => ?_⟩
    cases hwr
    exact (hother (keyRecord_of_meta hrec)).elim
  | write_pin => exact quiet_pin eng _ _ _
  | touch_meta => exact quiet_touch eng _ _
  | clock => exact quiet_of_neither (.python eng .clock) (by simp) (by simp)
  | @remove_meta ck hck =>
    refine ⟨.python eng (.remove_meta trivial), fun key hkey hrec => ?_, by simp⟩
    rw [← RecOp.remove.inj hkey] at hrec
    exact hK ck hck (keyRecord_of_meta hrec)
  | @remove_segment ck i hck =>
    refine ⟨.python eng (.remove_segment trivial), fun key hkey hrec => ?_, by simp⟩
    rw [← RecOp.remove.inj hkey] at hrec
    exact hK ck hck (keyRecord_of_segment hrec)

section Native

variable {conn : NativeConnector} {key ck : Text}

/-- The reads of a connector. -/
theorem quiet_native_read {user_key : Text} {bins : Option (List BinName)}
    (hconn : F.connectors conn) (hnative : F.NativeKey conn key ck)
    (huser : user_key = meta_user_key ck ∨ ∃ i, user_key = segment_user_key ck i) :
    F.QuietOp ns set_name k (.read (conn.as_key user_key) bins) := by
  rcases huser with rfl | ⟨i, rfl⟩
  · exact quiet_of_neither (.native conn key ck hconn hnative .read_meta) (by simp) (by simp)
  · exact quiet_of_neither (.native conn key ck hconn hnative .read_segment) (by simp) (by simp)

/-- The operations of a connector on other keys. -/
theorem quiet_of_native {op : RecOp} (hconn : F.connectors conn) (hnative : F.NativeKey conn key ck)
    (hother : meta_key conn.ns conn.set_name ck ≠ meta_key ns set_name k)
    (h : NativeRecOp conn ck (fun p => p = F.payload ck) op) : F.QuietOp ns set_name k op := by
  have haddr := hnative.addresses hconn
  have hmeta : ¬ KeyRecord ns set_name k (conn.as_key (meta_user_key ck)) := fun hrec => by
    rw [haddr.meta_eq] at hrec
    exact hother (keyRecord_of_meta hrec)
  have hsegment : ∀ i, ¬ KeyRecord ns set_name k (conn.as_key (segment_user_key ck i)) :=
    fun i hrec => by
      rw [haddr.segment_eq i] at hrec
      exact hother (keyRecord_of_segment hrec)
  refine ⟨.native conn key ck hconn hnative h, fun key' hkey hrec => ?_, fun wr hwr hrec => ?_⟩
  · subst hkey
    cases h with
    | remove_meta => exact hmeta hrec
    | remove_segment => exact hsegment _ hrec
  · subst hwr
    cases h with
    | write_segment => exact (hsegment _ hrec).elim
    | write_meta => exact (hmeta hrec).elim

end Native

/-! ## Programs -/

theorem quiet_single {o : Op} {i : RecOp} (ho : o.items = [i]) (hi : F.QuietOp ns set_name k i) :
    F.QuietCall ns set_name k o := by
  intro j hj
  rw [ho, List.mem_singleton] at hj
  rw [hj]
  exact hi

/-- A program that only reads. -/
theorem quiet_reads {eng : Engine} {α : Type} {p : EngineM α}
    (hp : p.AllCalls (EngineReadCall eng fun _ => True)) :
    p.AllCalls (F.QuietCall ns set_name k) :=
  Prog.allCalls_mono (fun _ ho i hi => quiet_read (ho i hi)) _ hp

theorem pin_keys_quiet (eng : Engine) (keys : List Text) :
    (eng.pin_keys keys).AllCalls (F.QuietCall ns set_name k) := by
  unfold Engine.pin_keys
  split_ifs with hnil
  · trivial
  · refine ⟨fun i hi => ?_, fun _ => trivial⟩
    simp only [Op.items, List.map_map, List.mem_map, Function.comp] at hi
    obtain ⟨ck, -, rfl⟩ := hi
    exact quiet_pin eng ck _ _

theorem batched_async_contains_quiet (eng : Engine) (keys : List Text) (pin : Bool) :
    (eng.batched_async_contains keys pin).AllCalls (F.QuietCall ns set_name k) := by
  apply Prog.allCalls_bind
  · exact quiet_reads (batched_contains_calls keys fun _ _ => trivial)
  · intro count
    split_ifs
    · exact Prog.allCalls_bind _ _ (pin_keys_quiet eng _) fun _ => trivial
    · trivial

theorem unpin_quiet (eng : Engine) (ck : Text) :
    (eng.unpin ck).AllCalls (F.QuietCall ns set_name k) := by
  refine ⟨quiet_single rfl (quiet_touch eng ck _), fun x => ?_⟩
  rcases x with exc | u
  · trivial
  · refine ⟨quiet_single rfl (quiet_pin eng ck _ _), fun y => ?_⟩
    rcases y with exc | u <;> trivial

theorem pin_quiet (eng : Engine) (ck : Text) :
    (eng.pin ck).AllCalls (F.QuietCall ns set_name k) := by
  apply Prog.allCalls_bind
  · exact quiet_reads (exists_calls ck trivial)
  · intro found
    split_ifs
    · exact Prog.allCalls_bind _ _ (pin_keys_quiet eng [ck]) fun _ => trivial
    · trivial

/-- The operations of an engine. -/
theorem ClientOp.quiet_calls (op : ClientOp) (hop : F.Allows (.python op))
    (hwrites : ¬ FleetOp.Writes ns set_name k (.python op))
    (hremoves : ¬ FleetOp.Removes ns set_name k (.python op)) :
    op.prog.AllCalls (F.QuietCall ns set_name k) := by
  obtain ⟨-, hwithin⟩ := hop
  -- an operation on other keys only
  have hothers : op.Within (fun ck => op.eng.metaKey ck ≠ meta_key ns set_name k)
      (fun ck mo => (F.engines op.eng ∧ mo.byte_array = F.payload ck) ∧
        op.eng.metaKey ck ≠ meta_key ns set_name k) →
      op.prog.AllCalls (F.QuietCall ns set_name k) := fun h =>
    Prog.allCalls_mono (fun o ho i hi => quiet_of_engine (fun _ h => h) (fun _ _ h => h) (ho i hi))
      _ (op.prog_calls h)
  cases op with
  | get eng ck preallocated =>
    exact Prog.allCalls_bind _ _ (quiet_reads (get_calls ck preallocated trivial)) fun _ => trivial
  | exists_ eng ck =>
    exact Prog.allCalls_bind _ _ (quiet_reads (exists_calls ck trivial)) fun _ => trivial
  | batched_contains eng keys =>
    exact Prog.allCalls_bind _ _ (quiet_reads (batched_contains_calls keys fun _ _ => trivial))
      fun _ => trivial
  | batched_async_contains eng keys pin =>
    exact Prog.allCalls_bind _ _ (batched_async_contains_quiet eng keys pin) fun _ => trivial
  | pin_keys eng keys => exact Prog.allCalls_bind _ _ (pin_keys_quiet eng keys) fun _ => trivial
  | unpin eng ck => exact Prog.allCalls_bind _ _ (unpin_quiet eng ck) fun _ => trivial
  | pin eng ck => exact Prog.allCalls_bind _ _ (pin_quiet eng ck) fun _ => trivial
  | put eng ck mo pinned => exact hothers ⟨hwithin, hwrites⟩
  | batched_put eng items pinned =>
    exact hothers fun item hitem => ⟨hwithin item hitem, fun hsame => hwrites ⟨item, hitem, hsame⟩⟩
  | remove eng ck => exact hothers hremoves

/-- A native operation on a key, when it makes calls. -/
theorem native_quiet_calls (conn : NativeConnector) (key : Text) {α E : Type}
    {p : Prog Op Op.Res E α}
    (hread : ∀ ck, native_key_to_cache_engine_key key conn.dtype = .ok ck →
      p.AllCalls (F.QuietCall ns set_name k))
    (hunread : ∀ e, native_key_to_cache_engine_key key conn.dtype = .error e →
      ∃ e', p = .raise e') : p.AllCalls (F.QuietCall ns set_name k) := by
  rcases hkey : native_key_to_cache_engine_key key conn.dtype with e | ck
  · obtain ⟨e', rfl⟩ := hunread e hkey
    trivial
  · exact hread ck hkey

/-- **The calls of an operation that neither writes the key nor removes it** are quiet. -/
theorem FleetOp.quiet_calls (op : FleetOp) (hop : F.Allows op)
    (hwrites : ¬ op.Writes ns set_name k) (hremoves : ¬ op.Removes ns set_name k) :
    op.prog.AllCalls (F.QuietCall ns set_name k) := by
  have hwrap : ∀ {α E : Type} {f : E → FleetExc} {g : α → FleetResult} {p : Prog Op Op.Res E α},
      p.AllCalls (F.QuietCall ns set_name k) →
      ((p.mapError f).bind fun a => .ret (g a)).AllCalls (F.QuietCall ns set_name k) :=
    fun hp => Prog.allCalls_bind _ _ (Prog.allCalls_mapError _ _ hp) fun _ => trivial
  cases op with
  | python op => exact hwrap (op.quiet_calls hop hwrites hremoves)
  | load eng items => exact hwrap (quiet_reads (batched_get_preallocated_calls items))
  | native_get conn key buf len =>
    obtain ⟨⟨hconn, hkeys⟩, -⟩ := hop
    refine hwrap (native_quiet_calls conn key (fun ck hkey => ?_) fun e hkey => ?_)
    · exact do_single_get_calls hkey
        (quiet_single rfl (quiet_native_read hconn (hkeys ck hkey) (Or.inl rfl)))
        (fun i => quiet_single rfl (quiet_native_read hconn (hkeys ck hkey) (Or.inr ⟨i, rfl⟩)))
        buf len
    · unfold NativeConnector.do_single_get
      rw [hkey]
      exact ⟨_, rfl⟩
  | native_set conn key buf =>
    obtain ⟨⟨hconn, hkeys⟩, hbuf⟩ := hop
    refine hwrap (native_quiet_calls conn key (fun ck hkey => ?_) fun e hkey => ?_)
    · exact Prog.allCalls_mono (fun o ho i hi => quiet_of_native hconn (hkeys ck hkey)
        (fun hsame => hwrites ⟨ck, hkey, hsame⟩) (ho i hi)) _
        (do_single_set_calls hkey (hbuf ck hkey))
    · unfold NativeConnector.do_single_set
      rw [hkey]
      exact ⟨_, rfl⟩
  | native_exists conn key =>
    obtain ⟨hconn, hkeys⟩ := hop
    refine hwrap (native_quiet_calls conn key (fun ck hkey => ?_) fun e hkey => ?_)
    · exact do_single_exists_calls hkey
        (quiet_single rfl (quiet_native_read hconn (hkeys ck hkey) (Or.inl rfl)))
    · unfold NativeConnector.do_single_exists
      rw [hkey]
      exact ⟨_, rfl⟩
  | native_delete conn key =>
    obtain ⟨hconn, hkeys⟩ := hop
    refine hwrap (native_quiet_calls conn key (fun ck hkey => ?_) fun e hkey => ?_)
    · exact Prog.allCalls_mono (fun o ho i hi => quiet_of_native hconn (hkeys ck hkey)
        (fun hsame => hremoves ⟨ck, hkey, hsame⟩) (ho i hi)) _ (do_single_delete_calls hkey)
    · unfold NativeConnector.do_single_delete
      rw [hkey]
      exact ⟨_, rfl⟩

end Quiet
