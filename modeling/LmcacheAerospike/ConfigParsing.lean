/-
# Parsing the configuration

`AerospikeConfig.from_extra_config` of `config.py`: every value of the dict is parsed or has
its default, and every byte count, timeout and thread count of a configuration that is
accepted is positive (`from_extra_config_positive`).
-/
import LmcacheAerospike.Config
import LmcacheAerospike.PyText

/-- An object of a type that the parsers do not ask for, by what `int()`, `str()` and `repr()`
make of it. -/
structure PyObject : Type where
  int : Except PyExc ℤ
  str : Text
  repr : Text

/-- A value of the dict. -/
inductive PyVal : Type where
  | none
  | bool (v : Bool)
  | int (i : ℤ)
  | str (s : Text)
  | obj (o : PyObject)

/-- A dict with texts as keys. -/
abbrev PyDict := Text → Option PyVal

namespace PyVal

/-- `int(value)`. -/
def toInt : PyVal → Except PyExc ℤ
  | .none => .error (.builtin .TypeError)
  | .bool v => .ok (if v then 1 else 0)
  | .int i => .ok i
  | .str s => (PyText.integer s).elim (.error (.builtin .ValueError)) .ok
  | .obj o => o.int

/-- `str(value)`. -/
def toText : PyVal → Text
  | .none => "None".toList
  | .bool v => (if v then "True" else "False").toList
  | .int i => (toString i).toList
  | .str s => s
  | .obj o => o.str

/-- `repr(value)`. -/
def repr : PyVal → Text
  | .str s => PyText.repr s
  | .obj o => o.repr
  | value => value.toText

end PyVal

/-! ## The values -/

/-- An `AerospikeConfigError` about a key. -/
def config_error {α : Type} (fq_key : Text) (text : String) : Except PyExc α :=
  .error (.connector .config (String.ofList fq_key ++ text))

def parse_bool (value : PyVal) (fq_key : Text) : Except PyExc Bool :=
  let other : Except PyExc Bool :=
    config_error fq_key (": expected a boolean, got " ++ String.ofList value.repr)
  match value with
  | .bool v => .ok v
  | .str s =>
    let lowered := PyText.lower (PyText.strip s)
    if lowered ∈ ["true", "1", "yes", "on"].map String.toList then .ok true
    else if lowered ∈ ["false", "0", "no", "off"].map String.toList then .ok false
    else other
  | _ => other

def parse_int (value : PyVal) (fq_key : Text) : Except PyExc ℤ :=
  match value with
  | .bool _ => config_error fq_key ": expected an integer, got bool"
  | value =>
    match value.toInt with
    | .ok i => .ok i
    | .error (.builtin .TypeError) | .error (.builtin .ValueError) =>
      config_error fq_key (": expected an integer, got " ++ String.ofList value.repr)
    | .error e => .error e

/-- One `host:port`. -/
def parse_host (fq_key part : Text) : Except PyExc (Text × ℤ) :=
  if ':' ∉ part then
    config_error fq_key (": each host must be host:port, got " ++ String.ofList (PyText.repr part))
  else
    let (host, port_s) := PyText.splitLast ':' part
    let host := PyText.strip host
    if host = [] then config_error fq_key (": empty host in " ++ String.ofList (PyText.repr part))
    else match PyText.integer port_s with
      | none => config_error fq_key (": invalid port in " ++ String.ofList (PyText.repr part))
      | some port =>
        if port ≤ 0 ∨ port > 65535 then
          config_error fq_key (": port out of range in " ++ String.ofList (PyText.repr part))
        else .ok (host, port)

def parse_hosts (value : PyVal) (fq_key : Text) : Except PyExc (List (Text × ℤ)) :=
  let required : Except PyExc (List (Text × ℤ)) := config_error fq_key ": hosts is required"
  match value with
  | .str s =>
    if PyText.strip s = [] then required
    else do
      let parts := ((s.splitOn ',').map PyText.strip).filter (· ≠ [])
      let hosts ← parts.mapM (parse_host fq_key)
      if hosts = [] then required else return hosts
  | _ => required

/-- `_COMMIT_LEVELS`. -/
def parse_commit_level (value : Text) (pre : Text) : Except PyExc CommitLevel :=
  if value = "all".toList then .ok .all
  else if value = "master".toList then .ok .master
  else config_error pre ("commit_level: must be one of ['all', 'master'], got "
    ++ String.ofList (PyText.repr value))

/-- `_REPLICAS`. -/
def parse_replica (value : Text) (pre : Text) : Except PyExc Replica :=
  if value = "master".toList then .ok .master
  else if value = "any".toList then .ok .any
  else if value = "sequence".toList then .ok .sequence
  else if value = "prefer_rack".toList then .ok .prefer_rack
  else config_error pre
    ("replica: must be one of ['any', 'master', 'prefer_rack', 'sequence'], got "
      ++ String.ofList (PyText.repr value))

/-- `default if raw is None else parse(raw)`. -/
def orDefault {α : Type} (default : α) (parse : PyVal → Except PyExc α) : PyVal → Except PyExc α
  | .none => .ok default
  | raw => parse raw

/-! ## The configuration -/

/-- `lookup(short_name, *aliases)`: the value of the first key that is there. -/
def lookup (data : PyDict) (pre : Text) : List Text → PyVal
  | [] => .none
  | k :: keys => (data (pre ++ k)).getD (lookup data pre keys)

/-- The first of the named values that is not positive. -/
def check_positive (pre : Text) : List (String × ℤ) → Except PyExc Unit
  | [] => .ok ()
  | (name, val) :: values =>
    if val ≤ 0 then
      config_error pre (name ++ ": must be positive, got " ++ toString val)
    else check_positive pre values

/-- The checks before the configuration is built. -/
def check_values (pre : Text) (cfg : AerospikeConfig) : Except PyExc Unit := do
  check_positive pre
    [("target_segment_bytes", cfg.target_segment_bytes),
      ("min_segment_bytes", cfg.min_segment_bytes),
      ("read_timeout_ms", cfg.read_timeout_ms), ("write_timeout_ms", cfg.write_timeout_ms),
      ("batch_max_in_flight", cfg.batch_max_in_flight),
      ("executor_threads", cfg.executor_threads)]
  check_positive pre (cfg.max_segment_bytes.toList.map fun val => ("max_segment_bytes", val))
  check_positive pre
    (cfg.single_record_threshold_bytes.toList.map fun val =>
      ("single_record_threshold_bytes", val))

/-- An integer of the dict, or its default. -/
def int_value (data : PyDict) (pre : Text) (name : String) (default : ℤ) : Except PyExc ℤ :=
  orDefault default (fun raw => parse_int raw (pre ++ name.toList))
    (lookup data pre [name.toList])

/-- An integer of the dict that has no default. -/
def optional_int (data : PyDict) (pre : Text) (name : String) : Except PyExc (Option ℤ) :=
  orDefault none (fun raw => (parse_int raw (pre ++ name.toList)).map some)
    (lookup data pre [name.toList])

/-- The hosts of the dict, which it must have. -/
def hosts_value (data : PyDict) (pre : Text) : Except PyExc (List (Text × ℤ)) :=
  match lookup data pre ["hosts".toList] with
  | .none => config_error pre "hosts is required"
  | raw => parse_hosts raw (pre ++ "hosts".toList)

/-- The values of the dict, their ranges not checked yet. -/
def parse_values (data : PyDict) (plugin_name pre : Text) : Except PyExc AerospikeConfig := do
  let get (name : String) : PyVal := lookup data pre [name.toList]
  let int := int_value data pre
  let optional := optional_int data pre
  let bool (name : String) : Except PyExc Bool :=
    orDefault false (fun raw => parse_bool raw (pre ++ name.toList)) (get name)
  let text (default : String) : PyVal → Text
    | .none => default.toList
    | raw => raw.toText
  let hosts ← hosts_value data pre
  let target_segment_bytes ← int "target_segment_bytes" (4 * 1024 * 1024)
  let max_segment_bytes ← optional "max_segment_bytes"
  let min_segment_bytes ← int "min_segment_bytes" (64 * 1024)
  let single_record_threshold_bytes ← optional "single_record_threshold_bytes"
  let default_ttl_seconds ← int "default_ttl_seconds" 86400
  let read_timeout_ms ← int "read_timeout_ms" 1000
  let write_timeout_ms ← int "write_timeout_ms" 2000
  let batch_max_in_flight ← int "batch_max_in_flight" 64
  let executor_threads ← int "executor_threads" 16
  let enable_list ← bool "enable_list"
  let enable_crc32 ← bool "enable_crc32"
  let send_key ← bool "send_key"
  let word (default : String) (raw : PyVal) : Text :=
    match raw with
    | .none => default.toList
    | raw => PyText.lower (PyText.strip raw.toText)
  let commit_level ← parse_commit_level (word "all" (get "commit_level")) pre
  let replica ← parse_replica (word "sequence" (get "replica")) pre
  return {
    plugin_name, hosts
    ns := text "lmcache" (get "namespace")
    set_name := text "kv_chunks" (lookup data pre ["set".toList, "set_name".toList])
    target_segment_bytes, max_segment_bytes, min_segment_bytes, single_record_threshold_bytes
    default_ttl_seconds, read_timeout_ms, write_timeout_ms, batch_max_in_flight
    executor_threads, enable_list, enable_crc32, commit_level, replica, send_key
    username := text "" (get "username")
    password := text "" (get "password")
    tls_name := text "" (get "tls_name") }

/-- The part of the keys before the short names. -/
def key_pre (plugin_name : Text) (config_pre : Option Text) : Text :=
  let pre := match config_pre with
    | none | some [] => "remote_storage_plugin.".toList ++ plugin_name ++ ['.']
    | some pre => pre
  if pre.getLast? = some '.' then pre else pre ++ ['.']

def from_extra_config (extra_config : Option PyDict) (plugin_name : Text)
    (config_pre : Option Text) : Except PyExc AerospikeConfig := do
  let data := extra_config.getD fun _ => none
  let pre := key_pre plugin_name config_pre
  let cfg ← parse_values data plugin_name pre
  check_values pre cfg
  return cfg

/-! ## What is accepted -/

/-- The values that a configuration must have positive. -/
structure AerospikeConfig.Positive (cfg : AerospikeConfig) : Prop where
  target : 0 < cfg.target_segment_bytes
  min : 0 < cfg.min_segment_bytes
  max : ∀ val ∈ cfg.max_segment_bytes, 0 < val
  threshold : ∀ val ∈ cfg.single_record_threshold_bytes, 0 < val
  read_timeout : 0 < cfg.read_timeout_ms
  write_timeout : 0 < cfg.write_timeout_ms
  batch_max_in_flight : 0 < cfg.batch_max_in_flight
  executor_threads : 0 < cfg.executor_threads

theorem bind_ok_iff {ε α β : Type} {x : Except ε α} {f : α → Except ε β} {b : β} :
    (x >>= f) = .ok b ↔ ∃ a, x = .ok a ∧ f a = .ok b := by
  cases x with
  | error e => simp [bind, Except.bind]
  | ok a => simp [bind, Except.bind]

theorem bind_error_cases {α β : Type} {x : Except PyExc α} {f : α → Except PyExc β} {e : PyExc}
    (h : (x >>= f) = .error e) : x = .error e ∨ ∃ a, x = .ok a ∧ f a = .error e := by
  cases x with
  | error e' =>
    cases h
    exact Or.inl rfl
  | ok a => exact Or.inr ⟨a, rfl, h⟩

theorem check_positive_ok {pre : Text} {values : List (String × ℤ)}
    (h : check_positive pre values = .ok ()) : ∀ x ∈ values, 0 < x.2 := by
  induction values with
  | nil => simp
  | cons x values ih =>
    rw [check_positive] at h
    by_cases hx : x.2 ≤ 0
    · rw [if_pos hx] at h
      cases h
    · rw [if_neg hx] at h
      rw [List.forall_mem_cons]
      exact ⟨by omega, ih h⟩

/-- The byte counts of a configuration are those of the dict. -/
theorem parse_values_limits {data : PyDict} {plugin_name pre : Text} {cfg : AerospikeConfig}
    (h : parse_values data plugin_name pre = .ok cfg) :
    int_value data pre "target_segment_bytes" (4 * 1024 * 1024) = .ok cfg.target_segment_bytes ∧
      optional_int data pre "max_segment_bytes" = .ok cfg.max_segment_bytes := by
  obtain ⟨hosts, -, h⟩ := bind_ok_iff.mp h
  obtain ⟨target, htarget, h⟩ := bind_ok_iff.mp h
  obtain ⟨max, hmax, h⟩ := bind_ok_iff.mp h
  -- the twelve values after these are parsed in the same way
  iterate 12 obtain ⟨_, -, h⟩ := bind_ok_iff.mp h
  cases h
  exact ⟨htarget, hmax⟩

/-- **A configuration that is accepted has positive values.** -/
theorem from_extra_config_positive {extra_config : Option PyDict} {plugin_name : Text}
    {config_pre : Option Text} {cfg : AerospikeConfig}
    (h : from_extra_config extra_config plugin_name config_pre = .ok cfg) : cfg.Positive := by
  obtain ⟨cfg', -, h⟩ := bind_ok_iff.mp h
  obtain ⟨⟨⟩, hcheck, h⟩ := bind_ok_iff.mp h
  cases h
  obtain ⟨⟨⟩, hvalues, hcheck⟩ := bind_ok_iff.mp hcheck
  obtain ⟨⟨⟩, hmax, hthreshold⟩ := bind_ok_iff.mp hcheck
  have hvalues := check_positive_ok hvalues
  simp only [List.forall_mem_cons, List.not_mem_nil, false_imp_iff, implies_true] at hvalues
  obtain ⟨htarget, hmin, hread, hwrite, hbatch, hexec, -⟩ := hvalues
  refine ⟨htarget, hmin, fun val hval => ?_, fun val hval => ?_, hread, hwrite, hbatch, hexec⟩
  · exact check_positive_ok hmax ("max_segment_bytes", val)
      (List.mem_map_of_mem (Option.mem_toList.mpr hval))
  · exact check_positive_ok hthreshold ("single_record_threshold_bytes", val)
      (List.mem_map_of_mem (Option.mem_toList.mpr hval))
