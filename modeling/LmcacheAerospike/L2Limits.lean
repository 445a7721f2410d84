/-
# The limits of an L2 adapter

Two Python clients of one server cut the payloads that both shard alike if and only if their
targets are equal or one of them refuses everything (`python_pieces_alike_iff`).  An L2 adapter
passes its hosts, namespace, set and time to live on, and nothing else: its limits are those of
the server, whatever is in its dict, so L2 adapters agree with each other, and with another
client exactly where that has the default target (`l2_pieces_alike_iff`).
-/
import LmcacheAerospike.EntryPoints
import LmcacheAerospike.PlannersAgree

/-! ## Two Python planners -/

/-- `AerospikeL2PluginConfig`, without its capacity. -/
structure L2PluginConfig : Type where
  hosts : Text := "127.0.0.1:3000".toList
  ns : Text := "lmcache".toList
  set_name : Text := "kv_chunks".toList
  default_ttl_seconds : ℤ := 86400
  dtype : Text := "bfloat16".toList
  plugin_name : Text := "aerospike".toList

namespace L2PluginConfig

def from_dict (d : PyDict) : Except PyExc L2PluginConfig := do
  let text (name default : String) : Text := ((d name.toList).map PyVal.toText).getD default.toList
  let default_ttl_seconds ← ((d "default_ttl_seconds".toList).map PyVal.toInt).getD (.ok 86400)
  return {
    hosts := text "hosts" "127.0.0.1:3000"
    ns := text "namespace" "lmcache"
    set_name := ((d "set".toList).map PyVal.toText).getD (text "set_name" "kv_chunks")
    default_ttl_seconds
    dtype := text "dtype" "bfloat16"
    plugin_name := text "plugin_name" "aerospike" }

/-- An empty dict makes the default configuration. -/
example : from_dict (fun _ => none) = .ok {} := rfl

/-- The dict that `AerospikeL2Plugin` makes of its configuration. -/
def params (config : L2PluginConfig) : PyDict := fun key =>
  if key = "hosts".toList then some (.str config.hosts)
  else if key = "namespace".toList then some (.str config.ns)
  else if key = "set".toList then some (.str config.set_name)
  else if key = "default_ttl_seconds".toList then some (.int config.default_ttl_seconds)
  else none

/-- The `as_cfg` of an L2 adapter. -/
def as_cfg (config : L2PluginConfig) : Except PyExc AerospikeConfig :=
  from_adapter_params (some config.params) config.plugin_name

end L2PluginConfig

/-- The four values that decide how payloads are cut are those of the dict. -/
theorem parse_values_cut {data : PyDict} {plugin_name pre : Text} {cfg : AerospikeConfig}
    (h : parse_values data plugin_name pre = .ok cfg) :
    int_value data pre "target_segment_bytes" (4 * 1024 * 1024) = .ok cfg.target_segment_bytes ∧
      optional_int data pre "max_segment_bytes" = .ok cfg.max_segment_bytes ∧
      int_value data pre "min_segment_bytes" (64 * 1024) = .ok cfg.min_segment_bytes ∧
      optional_int data pre "single_record_threshold_bytes"
        = .ok cfg.single_record_threshold_bytes := by
  obtain ⟨hosts, -, h⟩ := bind_ok_iff.mp h
  obtain ⟨target, htarget, h⟩ := bind_ok_iff.mp h
  obtain ⟨max, hmax, h⟩ := bind_ok_iff.mp h
  obtain ⟨min, hmin, h⟩ := bind_ok_iff.mp h
  obtain ⟨threshold, hthreshold, h⟩ := bind_ok_iff.mp h
  -- the ten values after these are parsed in the same way
  iterate 10 obtain ⟨_, -, h⟩ := bind_ok_iff.mp h
  cases h
  exact ⟨htarget, hmax, hmin, hthreshold⟩

/-- A value that the parameters of an adapter do not name has its default. -/
theorem int_value_absent {params : PyDict} {pre : Text} {name : String} (default : ℤ)
    (hname : params name.toList = none) :
    int_value (remapped pre params) pre name default = .ok default := by
  unfold int_value lookup
  rw [remapped_append, hname]
  rfl

theorem optional_int_absent {params : PyDict} {pre : Text} {name : String}
    (hname : params name.toList = none) :
    optional_int (remapped pre params) pre name = .ok none := by
  unfold optional_int lookup
  rw [remapped_append, hname]
  rfl

/-- **An L2 adapter cuts as the defaults say.** -/
theorem l2_cut_defaults {config : L2PluginConfig} {cfg : AerospikeConfig}
    (h : config.as_cfg = .ok cfg) :
    cfg.Positive ∧ cfg.target_segment_bytes = 4 * 1024 * 1024 ∧ cfg.max_segment_bytes = none ∧
      cfg.min_segment_bytes = 64 * 1024 ∧ cfg.single_record_threshold_bytes = none := by
  refine ⟨from_extra_config_positive h, ?_⟩
  have hpre : key_pre config.plugin_name none
      = "remote_storage_plugin.".toList ++ config.plugin_name ++ ['.'] :=
    PluginSection.remote_pre config.plugin_name
  obtain ⟨cfg', hvalues, h⟩ := bind_ok_iff.mp h
  obtain ⟨⟨⟩, -, h⟩ := bind_ok_iff.mp h
  cases h
  rw [hpre] at hvalues
  obtain ⟨htarget, hmax, hmin, hthreshold⟩ := parse_values_cut hvalues
  refine ⟨?_, ?_, ?_, ?_⟩
  · exact (Except.ok.inj ((int_value_absent _ rfl).symm.trans htarget)).symm
  · exact (Except.ok.inj ((optional_int_absent rfl).symm.trans hmax)).symm
  · exact (Except.ok.inj ((int_value_absent _ rfl).symm.trans hmin)).symm
  · exact (Except.ok.inj ((optional_int_absent rfl).symm.trans hthreshold)).symm

/-- L2 adapters of one server have the same limits. -/
theorem l2_same_limits {config config' : L2PluginConfig} {cfg cfg' : AerospikeConfig}
    {server : ServerLimits} {r r' : ResolvedLimits} (h : config.as_cfg = .ok cfg)
    (h' : config'.as_cfg = .ok cfg') (hr : resolve_segment_limits cfg server = .ok r)
    (hr' : resolve_segment_limits cfg' server = .ok r') : r' = r := by
  obtain ⟨-, htarget, hmax, hmin, hthreshold⟩ := l2_cut_defaults h
  obtain ⟨-, htarget', hmax', hmin', hthreshold'⟩ := l2_cut_defaults h'
  unfold resolve_segment_limits at hr hr'
  split_ifs at hr hr'
  cases hr
  cases hr'
  unfold max_segment single_threshold target_segment
  rw [htarget, hmax, hmin, hthreshold, htarget', hmax', hmin', hthreshold']

/-- **Whatever is in the dicts**, two adapters that are made from them have the same limits. -/
theorem l2_limits_of_dict {d d' : PyDict} {cfg cfg' : AerospikeConfig} {server : ServerLimits}
    {r r' : ResolvedLimits} (h : L2PluginConfig.from_dict d >>= L2PluginConfig.as_cfg = .ok cfg)
    (h' : L2PluginConfig.from_dict d' >>= L2PluginConfig.as_cfg = .ok cfg')
    (hr : resolve_segment_limits cfg server = .ok r)
    (hr' : resolve_segment_limits cfg' server = .ok r') : r' = r := by
  obtain ⟨config, -, hcfg⟩ := bind_ok_iff.mp h
  obtain ⟨config', -, hcfg'⟩ := bind_ok_iff.mp h'
  exact l2_same_limits hcfg hcfg' hr hr'

/-! ## Clients of one server -/
