/-
# Limits discovered from the server

`limits.py`: the record-size cap and `nsup-period` that the namespace reports, and the
segment limits that are derived from them and the configuration.  Both the operator's
`target_segment_bytes` and `max_segment_bytes` are clamped to the server's cap, but not the
one to the other (`target_le_max_iff`).
-/
import LmcacheAerospike.ConfigParsing
import LmcacheAerospike.PutWorld

/-- `SAFETY_MARGIN_BYTES`. -/
def SAFETY_MARGIN_BYTES : ℤ := 65536

/-- `_MIN_RECORD_BYTES`. -/
def MIN_RECORD_BYTES : ℤ := 131072

/-- `_MAX_RECORD_BYTES`. -/
def MAX_RECORD_BYTES : ℤ := 8388608

structure ServerLimits : Type where
  server_max_record_bytes : ℤ
  source : String
  nsup_period : ℤ
  deriving DecidableEq, Repr

/-! ## Discovery -/

/-- The pairs `key=value` of an info response. -/
def parse_namespace_info (response : Text) : Text → Option Text :=
  let tab := Char.ofNat 9
  let text := PyText.strip response
  let text := if tab ∈ text then (PyText.splitFirst tab text).2 else text
  (text.splitOn ';').foldl (fun pairs part =>
    if '=' ∈ part then
      let (key, value) := PyText.splitFirst '=' part
      Function.update pairs (PyText.strip key) (some (PyText.strip value))
    else pairs) fun _ => none

/-- The value of a field that is an integer, if it is there. -/
def info_int (pairs : Text → Option Text) (name : String) : Except PyExc (Option ℤ) :=
  match pairs name.toList with
  | none => .ok none
  | some text =>
    match PyText.integer text with
    | some value => .ok (some value)
    | none => .error (.connector .serverLimit
        ("invalid " ++ name ++ ": " ++ String.ofList (PyText.repr text)))

/-- The record-size cap: the first of the two fields that is positive. -/
def record_cap (pairs : Text → Option Text) : Except PyExc (ℤ × String) := do
  let max_record_size ← info_int pairs "max-record-size"
  if max_record_size.getD 0 > 0 then return (max_record_size.getD 0, "max-record-size")
  let write_block_size ← info_int pairs "write-block-size"
  if write_block_size.getD 0 > 0 then return (write_block_size.getD 0, "write-block-size")
  throw (.connector .serverLimit "namespace info missing max-record-size and write-block-size")

/-- `discover_limits`, where `info` is what `client.info_random_node` comes to. -/
def discover_limits (info : Except AxError Text) (ns : Text) : Except PyExc ServerLimits := do
  match info with
  | .error exc =>
    throw (.connector .namespaceProbe
      ("info namespace/" ++ String.ofList ns ++ " failed: " ++ exc.str))
  | .ok [] =>
    throw (.connector .namespaceProbe
      ("empty info response for namespace/" ++ String.ofList ns))
  | .ok response =>
    let pairs := parse_namespace_info response
    let (cap, source) ← record_cap pairs
    if cap < MIN_RECORD_BYTES ∨ cap > MAX_RECORD_BYTES then
      throw (.connector .serverLimit ("record size cap " ++ toString cap ++ " outside ["
        ++ toString MIN_RECORD_BYTES ++ ", " ++ toString MAX_RECORD_BYTES ++ "]"))
    let nsup_period ← info_int pairs "nsup-period"
    return ⟨cap, source, nsup_period.getD 0⟩

/-! ## Reconciliation -/

/-- `value or default`. -/
def orElseLimit (value : Option ℤ) (default : ℤ) : ℤ :=
  match value with
  | none | some 0 => default
  | some v => v

/-- The longest segment that the server takes. -/
def ServerLimits.effective_max (server : ServerLimits) : ℤ :=
  server.server_max_record_bytes - SAFETY_MARGIN_BYTES

def max_segment (cfg : AerospikeConfig) (server : ServerLimits) : ℤ :=
  min (orElseLimit cfg.max_segment_bytes server.effective_max) server.effective_max

def target_segment (cfg : AerospikeConfig) (server : ServerLimits) : ℤ :=
  min cfg.target_segment_bytes server.effective_max

def single_threshold (cfg : AerospikeConfig) (server : ServerLimits) : ℤ :=
  min (orElseLimit cfg.single_record_threshold_bytes (target_segment cfg server))
    server.effective_max

/-- `resolve_segment_limits`; the byte counts are positive where the configuration and the
response were accepted (`resolved_positive`). -/
def resolve_segment_limits (cfg : AerospikeConfig) (server : ServerLimits) :
    Except PyExc ResolvedLimits :=
  if cfg.default_ttl_seconds > 0 ∧ server.nsup_period ≤ 0 then
    .error (.connector .ttlConfig ("namespace " ++ String.ofList (PyText.repr cfg.ns)
      ++ " has nsup-period=0 but default_ttl_seconds=" ++ toString cfg.default_ttl_seconds
      ++ "; set nsup-period > 0"))
  else .ok {
    server_max_record_bytes := server.server_max_record_bytes.toNat
    effective_max_segment_bytes := server.effective_max.toNat
    max_segment_bytes := (max_segment cfg server).toNat
    target_segment_bytes := (target_segment cfg server).toNat
    single_record_threshold_bytes := (single_threshold cfg server).toNat
    min_segment_bytes := cfg.min_segment_bytes.toNat }

/-! ## What is accepted -/

/-- **A cap that is discovered is in its range.** -/
theorem discovered_range {info : Except AxError Text} {ns : Text} {server : ServerLimits}
    (h : discover_limits info ns = .ok server) :
    MIN_RECORD_BYTES ≤ server.server_max_record_bytes ∧
      server.server_max_record_bytes ≤ MAX_RECORD_BYTES := by
  unfold discover_limits at h
  split at h
  · cases h
  · cases h
  · obtain ⟨⟨cap, source⟩, -, h⟩ := bind_ok_iff.mp h
    dsimp only at h
    by_cases hrange : cap < MIN_RECORD_BYTES ∨ cap > MAX_RECORD_BYTES
    · rw [if_pos hrange] at h
      cases h
    · rw [if_neg hrange] at h
      obtain ⟨nsup_period, -, h⟩ := bind_ok_iff.mp h
      cases h
      dsimp only
      omega

/-- The clamps of a resolved configuration, its byte counts positive. -/
structure ResolvedLimits.Clamps (r : ResolvedLimits) (cfg : AerospikeConfig)
    (server : ServerLimits) : Prop where
  max : (r.max_segment_bytes : ℤ) = max_segment cfg server
  target : (r.target_segment_bytes : ℤ) = target_segment cfg server
  target_pos : 0 < r.target_segment_bytes
  max_pos : 0 < r.max_segment_bytes
  min_pos : 0 < r.min_segment_bytes
  threshold_pos : 0 < r.single_record_threshold_bytes

theorem orElseLimit_pos {value : Option ℤ} {default : ℤ} (hvalue : ∀ val ∈ value, 0 < val)
    (hdefault : 0 < default) : 0 < orElseLimit value default := by
  unfold orElseLimit
  split
  · exact hdefault
  · exact hdefault
  · exact hvalue _ rfl

/-- **The limits of an accepted configuration and response are positive.** -/
theorem resolved_clamps {cfg : AerospikeConfig} {server : ServerLimits} {r : ResolvedLimits}
    (hcfg : cfg.Positive) (hserver : MIN_RECORD_BYTES ≤ server.server_max_record_bytes)
    (h : resolve_segment_limits cfg server = .ok r) : r.Clamps cfg server := by
  unfold resolve_segment_limits at h
  split_ifs at h
  cases h
  have heff : 0 < server.effective_max := by
    unfold ServerLimits.effective_max SAFETY_MARGIN_BYTES
    unfold MIN_RECORD_BYTES at hserver
    omega
  have htarget : 0 < target_segment cfg server := lt_min hcfg.target heff
  have hmax : 0 < max_segment cfg server := lt_min (orElseLimit_pos hcfg.max heff) heff
  have hthreshold : 0 < single_threshold cfg server :=
    lt_min (orElseLimit_pos hcfg.threshold htarget) heff
  have hmin := hcfg.min
  constructor
  · exact Int.toNat_of_nonneg (le_of_lt hmax)
  · exact Int.toNat_of_nonneg (le_of_lt htarget)
  · dsimp only
    omega
  · dsimp only
    omega
  · dsimp only
    omega
  · dsimp only
    omega

/-- **When the resolved target fits**: there is no override of the maximum, or one that is at
least the smaller of the configured target and what the server takes. -/
theorem target_le_max_iff {cfg : AerospikeConfig} {server : ServerLimits} (hcfg : cfg.Positive) :
    target_segment cfg server ≤ max_segment cfg server ↔
      ∀ val ∈ cfg.max_segment_bytes,
        min cfg.target_segment_bytes server.effective_max ≤ val := by
  unfold target_segment max_segment
  cases hmax : cfg.max_segment_bytes with
  | none => simp [orElseLimit]
  | some val =>
    have hval : 0 < val := hcfg.max val hmax
    have helse : orElseLimit (some val) server.effective_max = val := by
      unfold orElseLimit
      split
      · next heq => cases heq
      · next heq =>
        cases heq
        omega
      · next heq =>
        cases heq
        rfl
    rw [helse]
    simp

/-! ## The payload bins of a put -/

/-- The payload bin of a meta record is the whole payload, in a plan of one segment. -/
theorem payload_mem_meta_bins {serialize : RemoteMetadata → Bytes} {pl : ShardPlan}
    {mo : MemoryObj} {save crc pinned : Bool} {now : ℕ} {bytes : Bytes}
    (h : (.b, .blob bytes) ∈ meta_bins serialize pl mo save crc pinned now) :
    pl.nseg = 1 ∧ bytes = mo.byte_array := by
  unfold meta_bins at h
  by_cases hn : pl.nseg = 1
  · refine ⟨hn, ?_⟩
    cases save <;> cases crc <;> simpa [hn] using h
  · cases save <;> cases crc <;> simp [hn] at h

/-- **No payload bin of a put is longer than a segment of its plan.** -/
theorem put_writes_payload_le {eng : Engine} {ck : Text} {mo : MemoryObj} {pinned : Bool}
    {pl : ShardPlan} {now : ℕ} (hpl : pl.Covers mo.byte_array.length) {w : Write}
    (hw : w ∈ eng.put_writes ck mo pinned pl now) {bytes : Bytes}
    (hbytes : (.b, .blob bytes) ∈ w.ops) : bytes.length ≤ pl.seg_b := by
  have hmeta : w = eng.meta_write ck mo pl pinned now → bytes.length ≤ pl.seg_b := by
    rintro rfl
    obtain ⟨hn, rfl⟩ := payload_mem_meta_bins hbytes
    rw [hpl.seg_b_of_single hn]
  -- the meta record is written in both layouts, and holds the payload in the first only
  unfold Engine.put_writes at hw
  split_ifs at hw
  · exact hmeta (List.mem_singleton.mp hw)
  · rcases List.mem_append.mp hw with hsegment | hlast
    · obtain ⟨i, -, rfl⟩ := List.mem_map.mp hsegment
      have hslice : bytes = slice pl.seg_b i mo.byte_array := by
        unfold Engine.segment_write at hbytes
        cases hcrc : eng.cfg.enable_crc32 <;> simpa [hcrc] using hbytes
      rw [hslice, length_slice]
      exact Nat.min_le_left _ _
    · exact hmeta (List.mem_singleton.mp hlast)

/-- **The shard plan partitions the payload.**  The planner refuses exactly where a payload
has any bytes and the target is above the maximum.  Otherwise there is a segment, none is
longer than the maximum, and a single one is the payload; the slices that a put of several
segments writes are not empty and no longer than the target and the maximum, have the lengths
of `slice_lengths`, and spell the payload.  With the limits of `resolve_segment_limits` every
payload bin stays below the server's cap by the safety margin. -/
theorem shard_plan_partitions {t m : ℕ} (ht : 0 < t) (hm : 0 < m) (P lo th : ℕ) :
    ((∃ e, plan P t m lo th = .error e) ↔ 0 < P ∧ t > m) ∧
    (∀ pl, plan P t m lo th = .ok pl →
      1 ≤ pl.nseg ∧ pl.seg_b ≤ m ∧ (pl.nseg = 1 → pl.seg_b = P) ∧
      (1 < pl.nseg → ∀ (eng : Engine) (ck : Text) (payload : Bytes) (ttl : ℤ),
        payload.length = P →
        (eng.segment_writes ck payload pl ttl).map (fun w => w.ops.head?)
          = (pl.pieces payload).map (fun piece => some (.b, .blob piece)) ∧
        (∀ piece ∈ pl.pieces payload, piece ≠ [] ∧ piece.length ≤ min t m) ∧
        (pl.pieces payload).map List.length = slice_lengths P pl ∧
        (pl.pieces payload).flatten = payload)) ∧
    (∀ cfg server (eng : Engine), resolve_segment_limits cfg server = .ok eng.resolved →
      eng.resolved.target_segment_bytes = t → eng.resolved.max_segment_bytes = m →
      ∀ (ck : Text) (mo : MemoryObj) (pinned : Bool) (now : ℕ) (pl : ShardPlan),
        mo.byte_array.length = P → eng.resolved.shard_plan P = .ok pl →
        ∀ w ∈ eng.put_writes ck mo pinned pl now, ∀ bytes, (.b, .blob bytes) ∈ w.ops →
          (bytes.length : ℤ) ≤ server.server_max_record_bytes - SAFETY_MARGIN_BYTES) := by
  refine ⟨plan_raises_iff ht P m lo th, ?_, ?_⟩
  · intro pl hpl
    have hcovers := plan_covers P t m lo th pl hpl
    obtain ⟨hmax, hmin⟩ := plan_seg_b_le hpl
    refine ⟨hcovers.nseg_pos, hmax, hcovers.seg_b_of_single, ?_⟩
    rintro hn eng ck payload ttl rfl
    refine ⟨?_, fun piece hpiece => ⟨?_, ?_⟩, hcovers.slice_lengths_eq.symm,
      hcovers.flatten_pieces⟩
    · rw [Engine.segment_writes, ShardPlan.pieces, List.map_map, List.map_map]
      rfl
    · refine hcovers.piece_ne_nil ?_ hpiece
      -- several segments start inside the payload, so it has bytes
      rintro rfl
      have hstart := hcovers.starts_inside (by omega)
      simp at hstart
    · obtain ⟨i, -, rfl⟩ := List.mem_map.mp hpiece
      rw [length_slice]
      exact (Nat.min_le_left _ _).trans (hmin (by omega))
  · rintro cfg server eng hresolve - hmax ck mo pinned now pl rfl hpl w hw bytes hbytes
    have hle := put_writes_payload_le (plan_covers _ _ _ _ _ _ hpl) hw hbytes
    have hseg := (plan_seg_b_le hpl).1
    -- the maximum is clamped to the cap less the margin, whatever the configuration says
    have hclamp : (max_segment cfg server).toNat = m := by
      unfold resolve_segment_limits at hresolve
      split_ifs at hresolve
      rw [← hmax, ← Except.ok.inj hresolve]
    have heff : max_segment cfg server ≤ server.effective_max := min_le_right _ _
    unfold ServerLimits.effective_max at heff
    omega

theorem shard_plan_ten :
    plan 10 4 8 1 4 = .ok ⟨3, 4⟩ ∧ slice_lengths 10 ⟨3, 4⟩ = [4, 4, 2] ∧
      1 ≤ 3 ∧ 4 ≤ 8 ∧ ∃ e, plan 10 8 4 1 4 = .error e := by
  have hplan : plan 10 4 8 1 4 = .ok ⟨3, 4⟩ := rfl
  obtain ⟨-, hok, -⟩ := shard_plan_partitions (t := 4) (m := 8) (by decide) (by decide) 10 1 4
  obtain ⟨hpos, hmax, -, -⟩ := hok _ hplan
  have hraises := (shard_plan_partitions (t := 8) (m := 4) (by decide) (by decide) 10 1 4).1
  exact ⟨hplan, by decide, hpos, hmax, hraises.mpr (by decide)⟩

/-! ## Startup -/

/-- The record-size cap of a response that was accepted. -/
theorem discovered_cap {response ns : Text} {server : ServerLimits}
    (h : discover_limits (.ok response) ns = .ok server) :
    ∃ source, record_cap (parse_namespace_info response)
      = .ok (server.server_max_record_bytes, source) := by
  unfold discover_limits at h
  split at h
  · cases h
  · cases h
  · next heq =>
    cases heq
    obtain ⟨⟨cap, source⟩, hcap, h⟩ := bind_ok_iff.mp h
    dsimp only at h
    by_cases hrange : cap < MIN_RECORD_BYTES ∨ cap > MAX_RECORD_BYTES
    · rw [if_pos hrange] at h
      cases h
    · rw [if_neg hrange] at h
      obtain ⟨nsup_period, -, h⟩ := bind_ok_iff.mp h
      cases h
      exact ⟨source, hcap⟩

/-- **When an accepted configuration can store every payload.**  Every payload has a plan
exactly if the dict has no `max_segment_bytes`, or one that is at least the smaller of the
target and the server's cap less the safety margin. -/
theorem accepted_config_plans {extra_config : Option PyDict} {plugin_name : Text}
    {config_pre : Option Text} {cfg : AerospikeConfig} {response : Text} {server : ServerLimits}
    {r : ResolvedLimits}
    (hcfg : from_extra_config extra_config plugin_name config_pre = .ok cfg)
    (hserver : discover_limits (.ok response) cfg.ns = .ok server)
    (hr : resolve_segment_limits cfg server = .ok r) :
    (∀ P, ∃ pl, r.shard_plan P = .ok pl) ↔
      ∀ target max cap source,
        int_value (extra_config.getD fun _ => none) (key_pre plugin_name config_pre)
          "target_segment_bytes" (4 * 1024 * 1024) = .ok target →
        optional_int (extra_config.getD fun _ => none) (key_pre plugin_name config_pre)
          "max_segment_bytes" = .ok (some max) →
        record_cap (parse_namespace_info response) = .ok (cap, source) →
        min target (cap - SAFETY_MARGIN_BYTES) ≤ max := by
  have hpositive := from_extra_config_positive hcfg
  have hclamps := resolved_clamps hpositive (discovered_range hserver).1 hr
  have hplans : (∀ P, ∃ pl, r.shard_plan P = .ok pl) ↔
      target_segment cfg server ≤ max_segment cfg server := by
    rw [← hclamps.target, ← hclamps.max, Int.ofNat_le]
    constructor
    · intro hall
      -- a payload of one byte shows a target above the maximum
      by_contra hlt
      obtain ⟨e, he⟩ := (plan_raises_iff hclamps.target_pos 1 r.max_segment_bytes
        r.min_segment_bytes r.single_record_threshold_bytes).mpr ⟨Nat.one_pos, by omega⟩
      obtain ⟨pl, hpl⟩ := hall 1
      rw [show r.shard_plan 1 = .error e from he] at hpl
      cases hpl
    · intro hle P
      cases hplan : r.shard_plan P with
      | ok pl => exact ⟨pl, rfl⟩
      | error e =>
        have hraises := (plan_raises_iff hclamps.target_pos P _ _ _).mp ⟨e, hplan⟩
        omega
  obtain ⟨cfg', hparse, hchecked⟩ := bind_ok_iff.mp hcfg
  obtain ⟨-, -, hsame⟩ := bind_ok_iff.mp hchecked
  cases hsame
  obtain ⟨htarget, hmax⟩ := parse_values_limits hparse
  obtain ⟨source, hcap⟩ := discovered_cap hserver
  rw [hplans, target_le_max_iff hpositive]
  constructor
  · intro hall target max cap source' htarget' hmax' hcap'
    rw [htarget] at htarget'
    rw [hmax] at hmax'
    rw [hcap] at hcap'
    cases htarget'
    cases hcap'
    exact hall max (Except.ok.inj hmax')
  · intro hall val hval
    refine hall _ val _ source htarget ?_ hcap
    rw [hmax]
    exact congrArg Except.ok hval

/-- An operator's override of the maximum alone, 1 MiB, below the default target. -/
def overriddenDict : PyDict := fun key =>
  if key = "remote_storage_plugin.aerospike.hosts".toList then some (.str "db:3000".toList)
  else if key = "remote_storage_plugin.aerospike.max_segment_bytes".toList then
    some (.int 1048576)
  else none

/-- What a namespace with the largest record size reports. -/
def namespaceInfo : Text := "max-record-size=8388608;nsup-period=120".toList

/-- The configuration of the dict. -/
def overriddenConfig : AerospikeConfig where
  plugin_name := "aerospike".toList
  hosts := [("db".toList, 3000)]
  max_segment_bytes := some 1048576

set_option maxRecDepth 20000 in
theorem overriddenDict_accepted :
    from_extra_config (some overriddenDict) "aerospike".toList none = .ok overriddenConfig := rfl

theorem namespaceInfo_accepted :
    discover_limits (.ok namespaceInfo) overriddenConfig.ns
      = .ok ⟨8388608, "max-record-size", 120⟩ := by
  decide +kernel

/-- What the two resolve to: a target of 4 MiB and a maximum of 1 MiB. -/
def overriddenLimits : ResolvedLimits := ⟨8388608, 8323072, 1048576, 4194304, 4194304, 65536⟩

theorem overridden_resolved :
    resolve_segment_limits overriddenConfig ⟨8388608, "max-record-size", 120⟩
      = .ok overriddenLimits := by
  decide

/-- **The configuration is accepted, and no payload that has any bytes can be stored.** -/
theorem overridden_config_stores_nothing :
    ∃ cfg server r,
      from_extra_config (some overriddenDict) "aerospike".toList none = .ok cfg ∧
      discover_limits (.ok namespaceInfo) cfg.ns = .ok server ∧
      resolve_segment_limits cfg server = .ok r ∧
      r.shard_plan 1 = .error (.connector .config
        "target_segment_bytes exceeds max_segment_bytes after server clamping") :=
  ⟨overriddenConfig, _, overriddenLimits, overriddenDict_accepted, namespaceInfo_accepted,
    overridden_resolved, rfl⟩

theorem overridden_config_plans_iff :
    (∀ P, ∃ pl, overriddenLimits.shard_plan P = .ok pl) ↔
      ∀ target max cap source,
        int_value overriddenDict (key_pre "aerospike".toList none)
          "target_segment_bytes" (4 * 1024 * 1024) = .ok target →
        optional_int overriddenDict (key_pre "aerospike".toList none)
          "max_segment_bytes" = .ok (some max) →
        record_cap (parse_namespace_info namespaceInfo) = .ok (cap, source) →
        min target (cap - SAFETY_MARGIN_BYTES) ≤ max :=
  accepted_config_plans overriddenDict_accepted namespaceInfo_accepted overridden_resolved
