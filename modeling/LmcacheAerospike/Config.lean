/-
# Configuration and write policy

The `AerospikeConfig` of a connector with the defaults of `config.py`, and the write
policy that `policies.py` derives from it.
-/
import LmcacheAerospike.Errors

inductive Replica : Type where
  | master | any | sequence | prefer_rack
  deriving DecidableEq, Repr

/-- Frozen configuration parsed from LMCache `extra_config`. -/
structure AerospikeConfig : Type where
  plugin_name : Text
  hosts : List (Text × ℤ)
  ns : Text := "lmcache".toList
  set_name : Text := "kv_chunks".toList
  target_segment_bytes : ℤ := 4 * 1024 * 1024
  max_segment_bytes : Option ℤ := none
  min_segment_bytes : ℤ := 64 * 1024
  single_record_threshold_bytes : Option ℤ := none
  default_ttl_seconds : ℤ := 86400
  read_timeout_ms : ℤ := 1000
  write_timeout_ms : ℤ := 2000
  batch_max_in_flight : ℤ := 64
  executor_threads : ℤ := 16
  enable_list : Bool := false
  enable_crc32 : Bool := false
  commit_level : CommitLevel := .all
  replica : Replica := .sequence
  send_key : Bool := false
  username : Text := []
  password : Text := []
  tls_name : Text := []

/-- `_key_policy`. -/
def key_policy (send_key : Bool) : KeyPolicy := if send_key then .send else .digest

/-- `write_policy`; its `exists` is always `POLICY_EXISTS_IGNORE` and its `gen` always
`POLICY_GEN_IGNORE`, which is how `Write.applyTo` and `RecOp.perform` are defined. -/
def write_policy (cfg : AerospikeConfig) : WritePolicy where
  total_timeout := cfg.write_timeout_ms
  socket_timeout := cfg.write_timeout_ms
  commit_level := cfg.commit_level
  key := key_policy cfg.send_key
  max_retries := 0
