/-
# Listing the stored keys

`list` of `connector.py` scans the set and takes the names from the user keys that the scan
returns.  A record has its user key only when it was written with `POLICY_KEY_SEND`, so the
names are those of the stored keys exactly if the configuration sends keys, or there is
nothing to list (`list_names_iff`).
-/
import LmcacheAerospike.Isolation

/-! ## The scan -/

/-- `_key[2]` of a record that a scan returns. -/
inductive UserKey : Type where
  | none
  | str (s : Text)
  | bytes (raw : Bytes)
  deriving DecidableEq, Repr

/-- The name that `list` takes from a user key, if it is that of a meta record; `decode` is
`bytes.decode("utf-8", errors="replace")`. -/
def listed_name (decode : Bytes → Text) (user_key : UserKey) : Option Text :=
  let text := match user_key with
    | .none => "None".toList
    | .str s => s
    | .bytes raw => decode raw
  if ['|', 'm'] <:+ text then some (text.take (text.length - 2)) else none

/-- `list`, for the user keys of `scan.results()`. -/
def RemoteConnector.list (decode : Bytes → Text) (cfg : AerospikeConfig)
    (results : List UserKey) : List Text :=
  if cfg.enable_list then results.filterMap (listed_name decode) else []

/-- The user key that a scan returns for a record. -/
def scanned (r : Option Record) : UserKey :=
  match r.bind Record.user_key with
  | none => .none
  | some s => .str s

/-- What a scan of the set returns: every record once, in any order. -/
def ScanResults (w : World) (ns set_name : Text) (results : List UserKey) : Prop :=
  ∃ keys : List Key, keys.Nodup ∧
    (∀ key, key ∈ keys ↔
      key.ns = ns ∧ key.set_name = set_name ∧ ∃ r, w.records key = some r) ∧
    results = keys.map fun key => scanned (w.records key)

/-! ## The user keys of the records -/

/-- Every record has its user key if keys are sent, and none has if they are not. -/
def UserKeysSent (send_key : Bool) (w : World) : Prop :=
  ∀ key r, w.records key = some r → r.user_key = if send_key then some key.user_key else none

/-- The writes of the operation send keys or not. -/
def SendsKeys (send_key : Bool) (op : RecOp) : Prop :=
  ∀ wr, op = .write wr → wr.policy.key = key_policy send_key

section UserKeys

variable {send_key : Bool} {w : World}

theorem UserKeysSent.set_record (hw : UserKeysSent send_key w) {key : Key} {r : Option Record}
    (hr : ∀ rec, r = some rec →
      rec.user_key = if send_key then some key.user_key else none) :
    UserKeysSent send_key (w.setRecord key r) := by
  intro key' rec hrec
  by_cases heq : key' = key
  · subst heq
    rw [World.setRecord_self] at hrec
    exact hr rec hrec
  · rw [w.setRecord_of_ne heq] at hrec
    exact hw key' rec hrec

/-- **The step lemma**: whatever an operation does, the user keys stay as the policy says. -/
theorem UserKeysSent.perform (hw : UserKeysSent send_key w) {op : RecOp}
    (hop : SendsKeys send_key op) : UserKeysSent send_key (op.perform w).2 := by
  cases op with
  | read key names =>
    simp only [RecOp.perform]
    split <;> exact hw
  | write wr =>
    refine hw.set_record fun rec hrec => ?_
    cases hrec
    show (if wr.policy.key = .send then some wr.key.user_key
      else (w.records wr.key).bind Record.user_key) = _
    rw [hop wr rfl]
    cases send_key with
    | true => rfl
    | false =>
      -- the record that was there before has no user key either
      cases hold : w.records wr.key with
      | none => rfl
      | some old => exact hw wr.key old hold
  | touch key ttl =>
    simp only [RecOp.perform]
    cases hold : w.records key with
    | none => exact hw
    | some old =>
      refine hw.set_record fun rec hrec => ?_
      cases hrec
      exact hw key old hold
  | remove key =>
    simp only [RecOp.perform]
    cases w.records key with
    | none => exact hw
    | some old =>
      refine hw.set_record fun rec hrec => ?_
      cases hrec
  | clock => exact hw
  | ref_count_down => exact hw

theorem UserKeysSent.faulty (hw : UserKeysSent send_key w) {op : RecOp} {r : RecRes} {w' : World}
    (hop : SendsKeys send_key op) (h : Faulty op w r w') : UserKeysSent send_key w' := by
  rcases h with hp | ⟨-, rfl | rfl⟩
  · rw [show w' = (op.perform w).2 from congrArg Prod.snd hp]
    exact hw.perform hop
  · exact hw
  · exact hw.perform hop

theorem UserKeysSent.expiry (hw : UserKeysSent send_key w) {w' : World} (h : Expiry w w') :
    UserKeysSent send_key w' := by
  cases h with
  | expire key =>
    refine hw.set_record fun rec hrec => ?_
    cases hrec
  | tick t ht => exact hw

end UserKeys

/-- Clients that all send keys, or all do not. -/
def userKeyProtocol (send_key : Bool) : Protocol client Expiry :=
  Protocol.itemwise (UserKeysSent send_key) (SendsKeys send_key) (fun _ _ => True)
    (fun h hw => hw.expiry h) (fun hop hw h => ⟨hw.faulty hop h, trivial⟩)

/-- Every write of an engine uses the one write policy of its configuration. -/
theorem engineRecOp_sendsKeys {eng : Engine} {K : Text → Prop} {P : Text → MemoryObj → Prop}
    {op : RecOp} (h : EngineRecOp eng K P op) : SendsKeys eng.cfg.send_key op := by
  rintro wr rfl
  cases h with
  | of_read h => cases h
  | write_segment => rfl
  | write_meta => rfl
  | write_pin => rfl

/-- Clients whose engines have the configuration. -/
abbrev Configured (cfg : AerospikeConfig) (op : ClientOp) : Prop := op.eng.cfg = cfg

/-- **The run lemma.** -/
theorem user_keys_of_reachable {cfg : AerospikeConfig}
    {c : Pool client ClientOp PyExc OpResult}
    (hc : Pool.Reachable Expiry ClientOp.prog (Configured cfg) World.empty c) :
    UserKeysSent cfg.send_key c.state := by
  have hsafe : ∀ op, Configured cfg op →
      (userKeyProtocol cfg.send_key).Safe (fun _ => True) op.prog := by
    rintro op rfl
    refine Protocol.safe_of_allCalls _ (fun _ => trivial) _ ?_
    refine Prog.allCalls_mono (fun o ho i hi => engineRecOp_sendsKeys (ho i hi)) _
      (op.prog_calls (K := fun _ => True) (P := fun _ _ => True) ?_)
    cases op <;> simp [ClientOp.Within]
  exact ((userKeyProtocol cfg.send_key).reachable hsafe (fun _ _ h => by cases h) hc).1

/-! ## The names -/

section Names

variable {decode : Bytes → Text} {cfg : AerospikeConfig} {w : World} {results : List UserKey}

/-- The names of a scan are those of the stored meta records, each once; the segment records
of the set give none. -/
structure ListsStored (decode : Bytes → Text) (cfg : AerospikeConfig) (w : World)
    (results : List UserKey) : Prop where
  nodup : (RemoteConnector.list decode cfg results).Nodup
  mem_iff : ∀ ck, ck ∈ RemoteConnector.list decode cfg results ↔
    ∃ r, w.records (meta_key cfg.ns cfg.set_name ck) = some r
  segments : ∀ ck i, listed_name decode (scanned (w.records (segment_key cfg.ns cfg.set_name ck i)))
    = none

/-- A user key gives a name exactly if it is that name's meta key. -/
theorem listed_name_str_iff (s ck : Text) :
    listed_name decode (.str s) = some ck ↔ s = ck ++ ['|', 'm'] := by
  unfold listed_name
  dsimp only
  constructor
  · intro h
    split_ifs at h with hsuffix
    obtain ⟨t, rfl⟩ := hsuffix
    rw [← Option.some.inj h]
    simp
  · rintro rfl
    rw [if_pos (List.suffix_append _ _)]
    simp

theorem listed_name_none : listed_name decode .none = none := rfl

/-- With the keys sent, a scanned record gives the name of its key. -/
theorem listed_name_sent_iff (hw : UserKeysSent true w) (key : Key) (ck : Text) :
    listed_name decode (scanned (w.records key)) = some ck ↔
      (∃ r, w.records key = some r) ∧ key.user_key = ck ++ ['|', 'm'] := by
  cases hr : w.records key with
  | none =>
    rw [show scanned none = .none from rfl, listed_name_none]
    simp
  | some r =>
    have huser : r.user_key = some key.user_key := hw key r hr
    have hscanned : scanned (some r) = .str key.user_key := by
      rw [scanned, Option.bind_some, huser]
    rw [hscanned, listed_name_str_iff]
    simp

theorem scanned_unsent (hw : UserKeysSent false w) (key : Key) :
    scanned (w.records key) = .none := by
  cases hr : w.records key with
  | none => rfl
  | some r =>
    have huser : r.user_key = none := hw key r hr
    rw [scanned, Option.bind_some, huser]

theorem lists_stored_of_sent (hlist : cfg.enable_list = true) (hw : UserKeysSent true w)
    (hscan : ScanResults w cfg.ns cfg.set_name results) : ListsStored decode cfg w results := by
  obtain ⟨keys, hnodup, hkeys, rfl⟩ := hscan
  have hnames : RemoteConnector.list decode cfg (keys.map fun key => scanned (w.records key))
      = keys.filterMap fun key => listed_name decode (scanned (w.records key)) := by
    rw [RemoteConnector.list, if_pos hlist, List.filterMap_map]
    rfl
  constructor
  · rw [hnames, List.Nodup, List.pairwise_filterMap]
    refine hnodup.imp_of_mem fun {a b} ha hb hne ck hck ck' hck' heq => hne ?_
    subst heq
    obtain ⟨hnsa, hseta, -⟩ := (hkeys a).mp ha
    obtain ⟨hnsb, hsetb, -⟩ := (hkeys b).mp hb
    have huser := ((listed_name_sent_iff hw a ck).mp hck).2.trans
      ((listed_name_sent_iff hw b ck).mp hck').2.symm
    cases a
    cases b
    simp only at hnsa hseta hnsb hsetb huser
    rw [hnsa, hseta, huser, hnsb, hsetb]
  · intro ck
    rw [hnames, List.mem_filterMap]
    constructor
    · rintro ⟨key, hkey, hname⟩
      obtain ⟨hns, hset, -⟩ := (hkeys key).mp hkey
      obtain ⟨hr, huser⟩ := (listed_name_sent_iff hw key ck).mp hname
      have heq : key = meta_key cfg.ns cfg.set_name ck := by
        cases key
        simp only at hns hset huser
        rw [hns, hset, huser, meta_key]
      rwa [← heq]
    · intro hr
      exact ⟨_, (hkeys _).mpr ⟨rfl, rfl, hr⟩, (listed_name_sent_iff hw _ ck).mpr ⟨hr, rfl⟩⟩
  · intro ck i
    refine Option.eq_none_iff_forall_ne_some.mpr fun name hname => ?_
    have huser := ((listed_name_sent_iff hw _ name).mp hname).2
    exact meta_user_key_ne cfg.ns cfg.ns cfg.set_name cfg.set_name name ck i huser.symm

theorem list_unsent (hw : UserKeysSent false w)
    (hscan : ScanResults w cfg.ns cfg.set_name results) :
    RemoteConnector.list decode cfg results = [] := by
  obtain ⟨keys, -, -, rfl⟩ := hscan
  unfold RemoteConnector.list
  split_ifs
  · rw [List.filterMap_map, List.filterMap_eq_nil_iff]
    intro key _
    rw [Function.comp_apply, scanned_unsent hw, listed_name_none]
  · rfl

end Names

/-- **When `list` names exactly the stored keys.** -/
theorem list_names_iff {cfg : AerospikeConfig} (hlist : cfg.enable_list = true)
    {c : Pool client ClientOp PyExc OpResult}
    (hc : Pool.Reachable Expiry ClientOp.prog (Configured cfg) World.empty c)
    {results : List UserKey} (hscan : ScanResults c.state cfg.ns cfg.set_name results)
    (decode : Bytes → Text) :
    ListsStored decode cfg c.state results ↔
      cfg.send_key = true ∨ ∀ ck, c.state.records (meta_key cfg.ns cfg.set_name ck) = none := by
  have hw := user_keys_of_reachable hc
  cases hsend : cfg.send_key with
  | true =>
    rw [hsend] at hw
    exact ⟨fun _ => .inl rfl, fun _ => lists_stored_of_sent hlist hw hscan⟩
  | false =>
    rw [hsend] at hw
    have hempty : RemoteConnector.list decode cfg results = [] := list_unsent hw hscan
    constructor
    · intro h
      refine .inr fun ck => Option.eq_none_iff_forall_ne_some.mpr fun r hr => ?_
      have hmem := (h.mem_iff ck).mpr ⟨r, hr⟩
      rw [hempty] at hmem
      cases hmem
    · rintro (h | hnone)
      · cases h
      · constructor
        · rw [hempty]
          exact List.nodup_nil
        · intro ck
          rw [hempty, hnone ck]
          simp
        · intro ck i
          rw [scanned_unsent hw, listed_name_none]

/-- An engine that may list, with keys sent or not. -/
def listingEngine (send_key : Bool) : Engine :=
  { shortSegments with
    cfg := { shortSegments.cfg with enable_list := true, send_key := send_key } }

/-- The store after a put of one byte. -/
def listedWorld (send_key : Bool) : World :=
  World.empty.applyWrite
    ((listingEngine send_key).meta_write "k".toList { byte_array := [7] } ⟨1, 1⟩ false 0)

theorem listedWorld_reachable (send_key : Bool) :
    ∃ c : Pool client ClientOp PyExc OpResult, c.state = listedWorld send_key ∧
      Pool.Reachable Expiry ClientOp.prog (Configured (listingEngine send_key).cfg) World.empty
        c := by
  have hstart : Pool.Reachable Expiry ClientOp.prog (Configured (listingEngine send_key).cfg)
      World.empty (⟨World.empty, []⟩ : Pool client ClientOp PyExc OpResult) :=
    Relation.ReflTransGen.refl
  exact ⟨_, rfl, Pool.reachable_exec hstart
    (.put (listingEngine send_key) "k".toList { byte_array := [7] } false) rfl
    (exec_run_perform _ _)⟩

theorem listedWorld_scan (send_key : Bool) :
    ScanResults (listedWorld send_key) (listingEngine send_key).cfg.ns
      (listingEngine send_key).cfg.set_name
      [if send_key then .str "k|m".toList else .none] := by
  refine ⟨[(listingEngine send_key).metaKey "k".toList], List.nodup_singleton _, fun key => ?_, ?_⟩
  · rw [List.mem_singleton]
    constructor
    · rintro rfl
      exact ⟨rfl, rfl, _, World.applyWrite_self _ _⟩
    · rintro ⟨-, -, r, hr⟩
      by_contra hne
      rw [listedWorld, World.applyWrite_of_ne _ hne] at hr
      cases hr
  · cases send_key <;> rfl

/-- The store after a second put, of three bytes in two segments under another key. -/
def twoListed : World :=
  (((listingEngine true).put "j".toList { byte_array := [1, 2, 3] } false).run Op.perform
    (listedWorld true)).2

theorem twoListed_reachable : ∃ c : Pool client ClientOp PyExc OpResult, c.state = twoListed ∧
    Pool.Reachable Expiry ClientOp.prog (Configured (listingEngine true).cfg) World.empty c := by
  obtain ⟨⟨_, _⟩, rfl, hc⟩ := listedWorld_reachable true
  exact ⟨_, rfl, Pool.reachable_exec hc
    (.put (listingEngine true) "j".toList { byte_array := [1, 2, 3] } false) rfl
    (exec_run_perform _ _)⟩

/-- Two meta records and two segments, all with their user keys. -/
theorem twoListed_scan :
    ScanResults twoListed (listingEngine true).cfg.ns (listingEngine true).cfg.set_name
      [.str "k|m".toList, .str "j|s|0".toList, .str "j|s|1".toList, .str "j|m".toList] := by
  refine ⟨[(listingEngine true).metaKey "k".toList, (listingEngine true).segmentKey "j".toList 0,
    (listingEngine true).segmentKey "j".toList 1, (listingEngine true).metaKey "j".toList],
    by decide, fun key => ?_, rfl⟩
  simp only [List.mem_cons, List.not_mem_nil, or_false]
  constructor
  · rintro (rfl | rfl | rfl | rfl) <;> exact ⟨rfl, rfl, _, rfl⟩
  · rintro ⟨-, -, r, hr⟩
    by_contra hnot
    obtain ⟨hk, hs₀, hs₁, hj⟩ : _ ∧ _ ∧ _ ∧ _ := by simpa only [not_or] using hnot
    have hempty : twoListed.records key = none :=
      (World.applyWrite_of_ne _ hj).trans <| (World.applyWrite_of_ne _ hs₁).trans <|
        (World.applyWrite_of_ne _ hs₀).trans (World.applyWrite_of_ne _ hk)
    rw [hempty] at hr
    cases hr

/-- A connector that sends keys lists the two keys that were put, and no segment. -/
theorem list_names_sent : ∃ c : Pool client ClientOp PyExc OpResult,
    c.state = twoListed ∧
      ListsStored (fun _ => []) (listingEngine true).cfg c.state
        [.str "k|m".toList, .str "j|s|0".toList, .str "j|s|1".toList, .str "j|m".toList] := by
  obtain ⟨c, hstate, hc⟩ := twoListed_reachable
  refine ⟨c, hstate, (list_names_iff rfl hc ?_ _).mpr (.inl rfl)⟩
  rw [hstate]
  exact twoListed_scan

/-- With the default, a scan returns the record of the key that was put without its user key, and
the list is empty. -/
theorem list_names_unsent : ∃ c : Pool client ClientOp PyExc OpResult,
    Pool.Reachable Expiry ClientOp.prog (Configured (listingEngine false).cfg) World.empty c ∧
      ScanResults c.state (listingEngine false).cfg.ns (listingEngine false).cfg.set_name [.none] ∧
      ¬ ListsStored (fun _ => []) (listingEngine false).cfg c.state [.none] := by
  obtain ⟨c, hstate, hc⟩ := listedWorld_reachable false
  refine ⟨c, hc, hstate ▸ listedWorld_scan false, fun h => ?_⟩
  have hmem := (h.mem_iff "k".toList).mpr (by
    rw [hstate]
    exact ⟨_, World.applyWrite_self _ _⟩)
  cases hmem
