/-
# Host lists

The two parsers of a list of hosts, `_parse_hosts` of `config.py` and `parse_hosts` of
`connector.cpp`.  A list written as `host:port[,host:port...]` is what both read back from it
(`host_lists_parsed`), also when a host contains colons: the last one belongs to the port.
-/
import LmcacheAerospike.ConfigParsing
import LmcacheAerospike.CxxText
import LmcacheAerospike.NativeConnector

/-- A C++ exception: a `std::runtime_error`, or what a number conversion throws. -/
inductive CxxExc : Type where
  | runtime (e : RuntimeError)
  | number (e : CxxText.NumberError)
  deriving DecidableEq, Repr

namespace NativeConnector

/-- One `host:port`. -/
def parse_host (part : Text) : Except CxxExc (Text × ℤ) :=
  let malformed : Except CxxExc (Text × ℤ) :=
    .error (.runtime ⟨"hosts must be host:port[,host:port...]"⟩)
  match CxxText.rfind ':' part with
  | none => malformed
  | some colon =>
    if colon = 0 ∨ colon + 1 ≥ part.length then malformed
    else
      match CxxText.stoi (part.drop (colon + 1)) with
      | .error e => .error (.number e)
      | .ok port => .ok (part.take colon, port)

/-- `parse_hosts` of the native connector. -/
def parse_hosts (hosts : Text) : Except CxxExc (List (Text × ℤ)) := do
  let out ← (split hosts ',').mapM parse_host
  if out = [] then throw (.runtime ⟨"hosts must not be empty"⟩)
  else return out

end NativeConnector

/-! ## The documented format -/

/-- A host that a list can name: not empty, without a comma, and trimmed. -/
structure HostName (host : Text) : Prop where
  ne_nil : host ≠ []
  no_comma : ',' ∉ host
  trimmed : PyText.Trimmed host

/-- A port that a list can name. -/
def PortNumber (port : ℕ) : Prop := 1 ≤ port ∧ port ≤ 65535

/-- `host:port`, the port in decimal. -/
def host_port (entry : Text × ℕ) : Text := entry.1 ++ ':' :: Nat.toDigits 10 entry.2

/-- `host:port[,host:port...]`. -/
def host_list (entries : List (Text × ℕ)) : Text := [','].intercalate (entries.map host_port)

/-- What a parser should make of an entry. -/
def hostEntry (entry : Text × ℕ) : Text × ℤ := (entry.1, entry.2)

section Entries

variable {entry : Text × ℕ} (hhost : HostName entry.1) (hport : PortNumber entry.2)

theorem colon_notMem_port (n : ℕ) : ':' ∉ Nat.toDigits 10 n := notMem_toDigits_ten (by decide) n

theorem isDigit_port {n : ℕ} {c : Char} (hc : c ∈ Nat.toDigits 10 n) : c.isDigit = true :=
  Nat.isDigit_of_mem_toDigits (by decide) (by decide) hc

include hhost in
/-- A host with its port has no comma. -/
theorem HostName.comma_notMem : ',' ∉ host_port entry := by
  rw [host_port, List.mem_append, List.mem_cons]
  rintro (hmem | heq | hmem)
  · exact hhost.no_comma hmem
  · cases heq
  · exact notMem_toDigits_ten (by decide) _ hmem

include hhost in
/-- A host with its port has no space around it. -/
theorem HostName.host_port_trimmed : PyText.Trimmed (host_port entry) :=
  hhost.trimmed.append_sep hhost.ne_nil (PyText.trimmed_of_digits fun _ => isDigit_port)
    Nat.toDigits_ne_nil ':'

include hhost hport in
/-- `config.py` reads an entry back. -/
theorem parse_host_port (fq_key : Text) :
    parse_host fq_key (host_port entry) = .ok (hostEntry entry) := by
  have hcolon : ':' ∈ host_port entry := List.mem_append_right _ List.mem_cons_self
  have hsplit : PyText.splitLast ':' (host_port entry) = (entry.1, Nat.toDigits 10 entry.2) :=
    PyText.splitLast_append_sep (colon_notMem_port _) _
  have hinteger : PyText.integer (Nat.toDigits 10 entry.2) = some (entry.2 : ℤ) := by
    rw [PyText.integer_digits Nat.toDigits_ne_nil fun _ => isDigit_port,
      Nat.ofDigitChars_ten_toDigits]
  obtain ⟨hlow, hhigh⟩ := hport
  unfold parse_host
  rw [if_neg (not_not.mpr hcolon), hsplit]
  dsimp only
  rw [hhost.trimmed.strip_eq, if_neg hhost.ne_nil, hinteger]
  dsimp only
  rw [if_neg (by omega)]
  rfl

include hhost hport in
/-- `connector.cpp` reads an entry back. -/
theorem native_parse_host_port :
    NativeConnector.parse_host (host_port entry) = .ok (hostEntry entry) := by
  have hdigits : 0 < (Nat.toDigits 10 entry.2).length := Nat.length_toDigits_pos
  have hhostlen : 0 < entry.1.length := List.length_pos_iff.mpr hhost.ne_nil
  have hrfind : CxxText.rfind ':' (host_port entry) = some entry.1.length :=
    CxxText.rfind_append_sep (colon_notMem_port _) _
  have hdrop : (host_port entry).drop (entry.1.length + 1) = Nat.toDigits 10 entry.2 := by
    rw [host_port, ← List.drop_drop, List.drop_left, List.drop_one, List.tail_cons]
  have htake : (host_port entry).take entry.1.length = entry.1 := List.take_left
  obtain ⟨-, hhigh⟩ := hport
  unfold NativeConnector.parse_host
  rw [hrfind]
  dsimp only
  rw [if_neg, hdrop, htake, CxxText.stoi_toDigits (by omega)]
  · rfl
  · rw [host_port, List.length_append, List.length_cons]
    omega

end Entries

/-! ## The whole list -/

section Lists

variable {entries : List (Text × ℕ)}

/-- What reads back every entry reads back the list of them. -/
theorem mapM_host_port {ε : Type} {parse : Text → Except ε (Text × ℤ)}
    (h : ∀ entry ∈ entries, parse (host_port entry) = .ok (hostEntry entry)) :
    (entries.map host_port).mapM parse = .ok (entries.map hostEntry) := by
  induction entries with
  | nil => rfl
  | cons entry entries ih =>
    rw [List.forall_mem_cons] at h
    rw [List.map_cons, List.mapM_cons, h.1, List.map_cons]
    show (do let rest ← (entries.map host_port).mapM parse; pure (hostEntry entry :: rest)) = _
    rw [ih h.2]
    rfl

/-- A list splits into its hosts with their ports. -/
theorem splitOn_host_list (hne : entries ≠ []) (hhosts : ∀ entry ∈ entries, HostName entry.1) :
    (host_list entries).splitOn ',' = entries.map host_port := by
  refine List.splitOn_intercalate ',' (fun part hpart => ?_) (by simpa using hne)
  obtain ⟨entry, hentry, rfl⟩ := List.mem_map.mp hpart
  exact (hhosts entry hentry).comma_notMem

theorem colon_mem_host_list (hne : entries ≠ []) : ':' ∈ host_list entries := by
  cases entries with
  | nil => exact absurd rfl hne
  | cons entry entries =>
    have hcolon : ':' ∈ host_port entry := List.mem_append_right _ List.mem_cons_self
    exact (prefix_intercalate_cons ',' (host_port entry) _).subset hcolon

/-- The parts that `config.py` looks at are the entries. -/
theorem stripped_parts (hhosts : ∀ entry ∈ entries, HostName entry.1) :
    ((entries.map host_port).map PyText.strip).filter (· ≠ []) = entries.map host_port := by
  have hstrip : (entries.map host_port).map PyText.strip = entries.map host_port := by
    rw [List.map_map]
    exact List.map_congr_left fun entry hentry => (hhosts entry hentry).host_port_trimmed.strip_eq
  rw [hstrip, List.filter_eq_self]
  intro part hpart
  obtain ⟨entry, -, rfl⟩ := List.mem_map.mp hpart
  refine decide_eq_true fun hnil => ?_
  exact List.cons_ne_nil _ _ (List.append_eq_nil_iff.mp hnil).2

end Lists

/-- **Both parsers read back a list of hosts.** -/
theorem host_lists_parsed (fq_key : Text) {entries : List (Text × ℕ)} (hne : entries ≠ [])
    (hhosts : ∀ entry ∈ entries, HostName entry.1 ∧ PortNumber entry.2) :
    parse_hosts (.str (host_list entries)) fq_key = .ok (entries.map hostEntry) ∧
      NativeConnector.parse_hosts (host_list entries) = .ok (entries.map hostEntry) := by
  have hnames : ∀ entry ∈ entries, HostName entry.1 := fun entry hentry => (hhosts entry hentry).1
  have hsplit := splitOn_host_list hne hnames
  have hresult : entries.map hostEntry ≠ [] := by simpa using hne
  constructor
  · have hblank : PyText.strip (host_list entries) ≠ [] :=
      List.ne_nil_of_mem (PyText.mem_strip (colon_mem_host_list hne) (by decide))
    unfold parse_hosts
    dsimp only
    rw [if_neg hblank, hsplit, stripped_parts hnames,
      mapM_host_port fun entry hentry =>
        parse_host_port (hnames entry hentry) (hhosts entry hentry).2 fq_key]
    show (if _ then _ else _) = _
    rw [if_neg hresult]
    rfl
  · unfold NativeConnector.parse_hosts
    rw [split_eq, hsplit, mapM_host_port fun entry hentry =>
      native_parse_host_port (hnames entry hentry) (hhosts entry hentry).2]
    show (if _ then _ else _) = _
    rw [if_neg hresult]
    rfl

theorem host_lists_parsed_ipv6 :
    parse_hosts (.str "::1:3000,db:3001".toList) "hosts".toList
        = .ok [("::1".toList, 3000), ("db".toList, 3001)] ∧
      NativeConnector.parse_hosts "::1:3000,db:3001".toList
        = .ok [("::1".toList, 3000), ("db".toList, 3001)] := by
  have hhost : ∀ host ∈ ["::1".toList, "db".toList], HostName host := by
    rintro host (_ | ⟨_, _ | ⟨_, ⟨⟩⟩⟩) <;> exact ⟨by decide, by decide, by decide⟩
  have hentries : ∀ entry ∈ [("::1".toList, 3000), ("db".toList, 3001)],
      HostName entry.1 ∧ PortNumber entry.2 := by
    rintro entry (_ | ⟨_, _ | ⟨_, ⟨⟩⟩⟩)
    · exact ⟨hhost _ List.mem_cons_self, by decide, by decide⟩
    · exact ⟨hhost _ (List.mem_cons_of_mem _ List.mem_cons_self), by decide, by decide⟩
  exact host_lists_parsed "hosts".toList (List.cons_ne_nil _ _) hentries
