/-
# The two discoveries of the record cap

`discover_limits` of `limits.py` and `discover_record_cap` of `connector.cpp` read the same
info response.  Python looks the fields up by their whole names and reads the values with
`int()`; the native side searches for `name=`, which finds the first key that ends in the
name, reads a numeric prefix with `stoull`, and guesses a cap where it has found none.  They
agree on a response exactly if it states one cap to both, or is of no use to either
(`caps_agree_iff`).
-/
import LmcacheAerospike.HostLists
import LmcacheAerospike.Limits

/-! ## Native discovery -/

/-- `kDefaultRecordCapBytes`. -/
def kDefaultRecordCapBytes : ℕ := 1024 * 1024

/-- What stands between the first `field` in a text and the next `;`. -/
def field_value (field text : Text) : Option Text :=
  (CxxText.find field text).map fun pos => (text.drop (pos + field.length)).takeWhile (· ≠ ';')

/-- The loop over the fields: the first value that is positive. -/
def reported_cap (text : Text) : List Text → Except CxxExc (Option ℕ)
  | [] => .ok none
  | field :: fields =>
    match field_value field text with
    | none => reported_cap text fields
    | some value =>
      match CxxText.stoull value with
      | .error e => .error (.number e)
      | .ok cap => if cap > 0 then .ok (some cap) else reported_cap text fields

/-- The fields that are looked for, in this order. -/
def cap_fields : List Text := ["max-record-size=".toList, "write-block-size=".toList]

/-- `discover_record_cap`, where `info` is what `aerospike_info_any` comes to. -/
def discover_record_cap (info : Except AxError Text) : Except CxxExc ℕ := do
  match info with
  | .error err => throw (.runtime (status_error "info namespace" err))
  | .ok text =>
    let cap ← reported_cap text cap_fields
    return cap.getD kDefaultRecordCapBytes

/-- The limits that the constructor sets, or what it throws over them. -/
def constructor_limits (target_segment_bytes max_record_bytes : ℕ) (info : Except AxError Text) :
    Except CxxExc NativeLimits := do
  let discovered ← if max_record_bytes = 0 then discover_record_cap info
    else pure max_record_bytes
  (native_limits target_segment_bytes discovered).mapError .runtime

/-- The native connector has limits when the cap is more than the safety margin. -/
theorem native_limits_error_iff (target_segment_bytes discovered : ℕ) :
    (∃ e, native_limits target_segment_bytes discovered = .error e) ↔
      discovered ≤ kSafetyMarginBytes := by
  unfold native_limits
  split_ifs with hsmall
  · exact ⟨fun _ => hsmall, fun _ => ⟨_, rfl⟩⟩
  · refine ⟨?_, fun h => absurd h hsmall⟩
    rintro ⟨e, he⟩
    cases he

/-- The constructor fails where discovery does, and where it finds too small a cap. -/
theorem constructor_limits_error_iff (target_segment_bytes : ℕ) (info : Except AxError Text) :
    (∃ e, constructor_limits target_segment_bytes 0 info = .error e) ↔
      (∃ e, discover_record_cap info = .error e) ∨
        ∃ cap ≤ kSafetyMarginBytes, discover_record_cap info = .ok cap := by
  unfold constructor_limits
  rw [if_pos rfl]
  cases discover_record_cap info with
  | error e => exact ⟨fun _ => .inl ⟨e, rfl⟩, fun _ => ⟨e, rfl⟩⟩
  | ok cap =>
    have hsmall := native_limits_error_iff target_segment_bytes cap
    show (∃ e, (native_limits target_segment_bytes cap).mapError CxxExc.runtime = .error e) ↔ _
    cases hlimits : native_limits target_segment_bytes cap with
    | error e => exact ⟨fun _ => .inr ⟨cap, hsmall.mp ⟨e, hlimits⟩, rfl⟩, fun _ => ⟨_, rfl⟩⟩
    | ok limits =>
      constructor
      · rintro ⟨e, he⟩
        cases he
      · rintro (⟨e, he⟩ | ⟨small, hle, heq⟩)
        · cases he
        · cases heq
          obtain ⟨e, he⟩ := hsmall.mpr hle
          cases hlimits.symm.trans he

/-! ## Info responses -/

/-- A key or a value of an info response. -/
structure InfoField (s : Text) : Prop where
  ne_nil : s ≠ []
  no_semicolon : ';' ∉ s
  no_equals : '=' ∉ s
  no_tab : Char.ofNat 9 ∉ s
  trimmed : PyText.Trimmed s

/-- The pairs of a response: their keys are pairwise different, and one is a numeric
`nsup-period`. -/
structure InfoPairs (pairs : List (Text × Text)) : Prop where
  key : ∀ pair ∈ pairs, InfoField pair.1
  value : ∀ pair ∈ pairs, InfoField pair.2
  nodup : (pairs.map Prod.fst).Nodup
  nsup_period : ∃ value n, ("nsup-period".toList, value) ∈ pairs ∧ PyText.integer value = some n

/-- `key=value`. -/
def info_part (pair : Text × Text) : Text := pair.1 ++ '=' :: pair.2

/-- The pairs as a response. -/
def info_response (pairs : List (Text × Text)) : Text := [';'].intercalate (pairs.map info_part)

/-- The value of the first key that is looked for. -/
def first_value (wanted : Text → Bool) (pairs : List (Text × Text)) : Option Text :=
  (pairs.find? fun pair => wanted pair.1).map Prod.snd

section FirstValue

variable {wanted : Text → Bool} {pair : Text × Text}

/-- The first pair is the one that is wanted. -/
theorem first_value_cons_of_pos (h : wanted pair.1 = true) (pairs : List (Text × Text)) :
    first_value wanted (pair :: pairs) = some pair.2 := by
  rw [first_value, List.find?_cons, h]
  rfl

/-- The first pair is passed over. -/
theorem first_value_cons_of_neg (h : wanted pair.1 = false) (pairs : List (Text × Text)) :
    first_value wanted (pair :: pairs) = first_value wanted pairs := by
  rw [first_value, List.find?_cons, h]
  rfl

/-- The value of a key, where the keys are pairwise different. -/
theorem first_value_of_mem {pairs : List (Text × Text)} (hnodup : (pairs.map Prod.fst).Nodup)
    (hpair : pair ∈ pairs) : first_value (· = pair.1) pairs = some pair.2 := by
  induction pairs with
  | nil => exact absurd hpair List.not_mem_nil
  | cons head pairs ih =>
    rw [List.map_cons, List.nodup_cons] at hnodup
    rcases List.mem_cons.mp hpair with rfl | hrest
    · exact first_value_cons_of_pos (decide_eq_true rfl) pairs
    · have hne : head.1 ≠ pair.1 := fun heq => hnodup.1 (heq ▸ List.mem_map_of_mem hrest)
      rw [first_value_cons_of_neg (decide_eq_false hne), ih hnodup.2 hrest]

end FirstValue

/-! ### What Python makes of a response -/

section Response

variable {pairs : List (Text × Text)} (hpairs : InfoPairs pairs)

theorem info_part_ne_nil (pair : Text × Text) : info_part pair ≠ [] :=
  fun hnil => List.cons_ne_nil _ _ (List.append_eq_nil_iff.mp hnil).2

include hpairs in
/-- A part of the response has no semicolon. -/
theorem InfoPairs.part_no_semicolon {pair : Text × Text} (hpair : pair ∈ pairs) :
    ';' ∉ info_part pair := by
  rw [info_part, List.mem_append, List.mem_cons]
  rintro (hmem | heq | hmem)
  · exact (hpairs.key pair hpair).no_semicolon hmem
  · cases heq
  · exact (hpairs.value pair hpair).no_semicolon hmem

include hpairs in
/-- The response has no space around it. -/
theorem InfoPairs.response_trimmed : PyText.Trimmed (info_response pairs) := by
  refine PyText.trimmed_intercalate fun part hpart => ?_
  obtain ⟨pair, hpair, rfl⟩ := List.mem_map.mp hpart
  have hkey := hpairs.key pair hpair
  have hvalue := hpairs.value pair hpair
  exact ⟨info_part_ne_nil pair,
    hkey.trimmed.append_sep hkey.ne_nil hvalue.trimmed hvalue.ne_nil '='⟩

include hpairs in
theorem InfoPairs.no_tab : Char.ofNat 9 ∉ info_response pairs := by
  refine notMem_intercalate (by decide) fun part hpart => ?_
  obtain ⟨pair, hpair, rfl⟩ := List.mem_map.mp hpart
  rw [info_part, List.mem_append, List.mem_cons]
  rintro (hmem | heq | hmem)
  · exact (hpairs.key pair hpair).no_tab hmem
  · exact absurd heq (by decide)
  · exact (hpairs.value pair hpair).no_tab hmem

include hpairs in
theorem InfoPairs.ne_nil : pairs ≠ [] := by
  obtain ⟨value, n, hmem, -⟩ := hpairs.nsup_period
  exact List.ne_nil_of_mem hmem

include hpairs in
theorem InfoPairs.response_ne_nil : info_response pairs ≠ [] := by
  obtain ⟨pair, rest, hcons⟩ := List.exists_cons_of_ne_nil hpairs.ne_nil
  have hprefix := prefix_intercalate_cons ';' (info_part pair) (rest.map info_part)
  rw [hcons]
  intro hnil
  exact info_part_ne_nil pair (List.prefix_nil.mp (hnil ▸ hprefix))

/-! ### What Python makes of it -/

/-- Setting the pairs one by one: the value of a key is that of its only pair, or what it was
before. -/
theorem foldl_update_pairs {pairs : List (Text × Text)} (hnodup : (pairs.map Prod.fst).Nodup)
    (before : Text → Option Text) (name : Text) :
    (pairs.foldl (fun (m : Text → Option Text) pair =>
        Function.update m pair.1 (some pair.2)) before) name
      = (first_value (· = name) pairs).or (before name) := by
  induction pairs generalizing before with
  | nil => rfl
  | cons pair pairs ih =>
    rw [List.map_cons, List.nodup_cons] at hnodup
    rw [List.foldl_cons, ih hnodup.2]
    by_cases hname : pair.1 = name
    · have hrest : first_value (· = name) pairs = none := by
        refine Option.map_eq_none_iff.mpr (List.find?_eq_none.mpr fun other hother heq => ?_)
        refine hnodup.1 ?_
        rw [hname, ← of_decide_eq_true heq]
        exact List.mem_map_of_mem hother
      rw [hrest, first_value_cons_of_pos (decide_eq_true hname), hname, Function.update_self]
      rfl
    · rw [first_value_cons_of_neg (decide_eq_false hname), Function.update_of_ne (Ne.symm hname)]

include hpairs in
/-- **Python looks a field up by its whole name.** -/
theorem InfoPairs.parse_namespace_info_eq (name : Text) :
    parse_namespace_info (info_response pairs) name = first_value (· = name) pairs := by
  have hsplit : (info_response pairs).splitOn ';' = pairs.map info_part := by
    refine List.splitOn_intercalate ';' (fun part hpart => ?_) (by simpa using hpairs.ne_nil)
    obtain ⟨pair, hpair, rfl⟩ := List.mem_map.mp hpart
    exact hpairs.part_no_semicolon hpair
  unfold parse_namespace_info
  dsimp only
  let store : (Text → Option Text) → Text × Text → Text → Option Text := fun m pair =>
    Function.update m pair.1 (some pair.2)
  rw [hpairs.response_trimmed.strip_eq, if_neg hpairs.no_tab, hsplit, List.foldl_map,
    List.foldl_ext _ store _ ?_, foldl_update_pairs hpairs.nodup, Option.or_none]
  -- one part of the response
  intro m pair hpair
  have hequals : '=' ∈ info_part pair := List.mem_append_right _ List.mem_cons_self
  have hparts : PyText.splitFirst '=' (info_part pair) = pair :=
    PyText.splitFirst_append_sep (hpairs.key pair hpair).no_equals _
  rw [if_pos hequals, hparts, (hpairs.key pair hpair).trimmed.strip_eq,
    (hpairs.value pair hpair).trimmed.strip_eq]

/-! ### What the native side makes of it -/

/-- A search passes over what does not begin the field. -/
theorem field_value_append {field x y : Text}
    (h : ∀ s t, x = s ++ t → t ≠ [] → ¬ field <+: t ++ y) :
    field_value field (x ++ y) = field_value field y := by
  rw [field_value, CxxText.find_append_of_not h, field_value]
  cases CxxText.find field y with
  | none => rfl
  | some pos =>
    rw [Option.map_some, Option.map_some, Option.map_some]
    have hdrop : (x ++ y).drop (pos + x.length + field.length) = y.drop (pos + field.length) := by
      rw [Nat.add_right_comm, Nat.add_comm, List.drop_append]
      simp
    rw [hdrop]

/-- A field that is found has the value up to the next semicolon. -/
theorem field_value_prefix {field y : Text} : field_value field (field ++ y)
    = some (y.takeWhile (· ≠ ';')) := by
  rw [field_value, CxxText.find_of_prefix (List.prefix_append _ _), Option.map_some, Nat.zero_add,
    List.drop_left]

section Field

variable {name : Text} (hequals : '=' ∉ name) (hsemicolon : ';' ∉ name)

include hequals in
/-- Where a key ends in the name, the search does not stop before the name. -/
theorem not_prefix_in_key {t y : Text} (hkey : '=' ∉ t ++ name) (hne : t ≠ []) :
    ¬ name ++ ['='] <+: t ++ (name ++ '=' :: y) := by
  rintro ⟨u, hu⟩
  have hsplit : name ++ '=' :: u = (t ++ name) ++ '=' :: y := by simpa using hu
  have hlength := congrArg List.length (append_sep_inj_left hequals hkey hsplit).1
  rw [List.length_append] at hlength
  exact hne (List.length_eq_zero_iff.mp (by omega))

include hequals in
/-- In a pair whose key does not end in the name no occurrence begins. -/
theorem not_prefix_in_part {pair : Text × Text} {t : Text} (hkey : '=' ∉ pair.1)
    (hvalue : '=' ∉ pair.2) (hsuffix : ¬ name <:+ pair.1) (ht : t <:+ info_part pair) :
    ¬ name ++ ['='] <+: t := by
  rintro ⟨u, rfl⟩
  obtain ⟨s, hs⟩ := ht
  have hstart : (name ++ ['=']) ++ u = name ++ '=' :: u := by simp
  rw [hstart] at hs
  -- the occurrence begins in the key, at the equals sign, or in the value
  obtain ⟨inside, hk, hv⟩ | ⟨inside, hk, hv⟩ := List.append_eq_append_iff.mp hs
  · have hinside : '=' ∉ inside := fun hmem => hkey (hk ▸ List.mem_append_right _ hmem)
    refine hsuffix ⟨s, ?_⟩
    rw [hk, (append_sep_inj_left hequals hinside hv).1]
  · cases inside with
    | nil =>
      have hname := (append_sep_inj_left List.not_mem_nil hequals hv).1
      exact hsuffix (hname ▸ List.nil_suffix)
    | cons c inside =>
      rw [List.cons_append, List.cons.injEq] at hv
      refine hvalue ?_
      rw [hv.2]
      exact List.mem_append_right _ (List.mem_append_right _ List.mem_cons_self)

/-- What follows the first part of a response. -/
def info_rest : List (Text × Text) → Text
  | [] => []
  | pair :: pairs => ';' :: info_response (pair :: pairs)

theorem info_response_cons (pair : Text × Text) (pairs : List (Text × Text)) :
    info_response (pair :: pairs) = info_part pair ++ info_rest pairs := by
  cases pairs with
  | nil =>
    rw [info_rest, List.append_nil]
    exact List.intercalate_singleton
  | cons next pairs =>
    rw [info_response, List.map_cons, List.map_cons, List.intercalate_cons_cons,
      List.append_assoc]
    rfl

include hsemicolon in
theorem not_prefix_append_rest {t : Text} (ht : ¬ name ++ ['='] <+: t)
    (pairs : List (Text × Text)) : ¬ name ++ ['='] <+: t ++ info_rest pairs := by
  have hfield : ';' ∉ name ++ ['='] := by simpa using hsemicolon
  cases pairs with
  | nil => rwa [info_rest, List.append_nil]
  | cons pair pairs => exact fun h => ht (prefix_of_prefix_append_sep hfield h)

include hsemicolon in
theorem field_value_rest (pairs : List (Text × Text)) :
    field_value (name ++ ['=']) (info_rest pairs)
      = field_value (name ++ ['=']) (info_response pairs) := by
  cases pairs with
  | nil => rfl
  | cons pair pairs =>
    refine field_value_append (x := [';']) fun s t hst hne hprefix => ?_
    have ht : t = [';'] := by
      cases s with
      | nil => exact hst.symm
      | cons c s => exact absurd (List.append_eq_nil_iff.mp (List.cons.inj hst).2.symm).2 hne
    have hfield : ';' ∉ name ++ ['='] := by simpa using hsemicolon
    rw [ht] at hprefix
    have hnil := List.prefix_nil.mp (prefix_of_prefix_append_sep (x := []) hfield hprefix)
    exact List.cons_ne_nil _ _ (List.append_eq_nil_iff.mp hnil).2

theorem takeWhile_append_rest {value : Text} (hvalue : ';' ∉ value) (pairs : List (Text × Text)) :
    (value ++ info_rest pairs).takeWhile (· ≠ ';') = value := by
  cases pairs with
  | nil => rw [info_rest, List.append_nil, takeWhile_ne_eq_self hvalue]
  | cons pair pairs => exact takeWhile_ne_append hvalue _

include hequals hsemicolon in
/-- **The native side looks a field up by the end of a key.** -/
theorem field_value_info_response (hkey : ∀ pair ∈ pairs, InfoField pair.1)
    (hvalue : ∀ pair ∈ pairs, InfoField pair.2) :
    field_value (name ++ ['=']) (info_response pairs) = first_value name.isSuffixOf pairs := by
  induction pairs with
  | nil =>
    rw [field_value, info_response, List.map_nil, List.intercalate_nil, CxxText.find, if_neg]
    · rfl
    · exact fun hnil => List.cons_ne_nil _ _ (List.append_eq_nil_iff.mp hnil).2
  | cons pair pairs ih =>
    obtain ⟨hpair, hkeys⟩ := List.forall_mem_cons.mp hkey
    obtain ⟨hpairvalue, hvalues⟩ := List.forall_mem_cons.mp hvalue
    rw [info_response_cons]
    by_cases hsuffix : name <:+ pair.1
    · rw [first_value_cons_of_pos (List.isSuffixOf_iff_suffix.mpr hsuffix)]
      obtain ⟨before, hbefore⟩ := hsuffix
      have htext : info_part pair ++ info_rest pairs
          = before ++ ((name ++ ['=']) ++ (pair.2 ++ info_rest pairs)) := by
        rw [info_part, ← hbefore]
        simp
      rw [htext, field_value_append, field_value_prefix,
        takeWhile_append_rest hpairvalue.no_semicolon]
      intro s t hst hne
      have hinside : '=' ∉ t ++ name := fun hmem => hpair.no_equals (by
        rw [← hbefore, hst, List.append_assoc]
        exact List.mem_append_right _ hmem)
      rw [List.append_assoc name]
      exact not_prefix_in_key hequals hinside hne
    · have hfalse : name.isSuffixOf pair.1 = false := by
        rwa [← Bool.not_eq_true, List.isSuffixOf_iff_suffix]
      rw [first_value_cons_of_neg hfalse, field_value_append, field_value_rest hsemicolon,
        ih hkeys hvalues]
      intro s t hst _
      exact not_prefix_append_rest hsemicolon (not_prefix_in_part hequals hpair.no_equals
        hpairvalue.no_equals hsuffix ⟨s, hst.symm⟩) pairs

end Field

end Response

/-! ## The cap that a response states -/

/-- What one side reads in a field. -/
inductive FieldReading : Type where
  | missing
  | malformed
  | number (n : ℤ)
  deriving DecidableEq, Repr

/-- The field is passed over: the next one is looked at. -/
def FieldReading.Passed : FieldReading → Prop
  | .missing => True
  | .malformed => False
  | .number n => n ≤ 0

/-- A field that is passed over is not malformed. -/
theorem FieldReading.Passed.ne_malformed {r : FieldReading} (h : r.Passed) : r ≠ .malformed := by
  rintro rfl
  exact h

theorem FieldReading.Passed.ne_number {r : FieldReading} (h : r.Passed) {n : ℤ} (hn : 0 < n) :
    r ≠ .number n := by
  rintro rfl
  exact absurd hn (not_lt.mpr h)

/-- The value whose key is the name, as `int()` reads it. -/
def exact_reading (pairs : List (Text × Text)) (name : String) : FieldReading :=
  match first_value (· = name.toList) pairs with
  | none => .missing
  | some value =>
    match PyText.integer value with
    | none => .malformed
    | some n => .number n

/-- The value of the first key that ends in the name, as `stoull` reads it. -/
def suffix_reading (pairs : List (Text × Text)) (name : String) : FieldReading :=
  match first_value name.toList.isSuffixOf pairs with
  | none => .missing
  | some value =>
    match CxxText.stoull value with
    | .error _ => .malformed
    | .ok n => .number n

/-- The first of the two fields that is not passed over states the cap. -/
def States (reading : String → FieldReading) (cap : ℤ) : Prop :=
  0 < cap ∧ (reading "max-record-size" = .number cap ∨
    (reading "max-record-size").Passed ∧ reading "write-block-size" = .number cap)

/-- The first of the two fields that is not passed over is malformed. -/
def Malformed (reading : String → FieldReading) : Prop :=
  reading "max-record-size" = .malformed ∨
    (reading "max-record-size").Passed ∧ reading "write-block-size" = .malformed

/-- The fields state one cap at most. -/
theorem States.unique {reading : String → FieldReading} {m n : ℤ} (hm : States reading m)
    (hn : States reading n) : m = n := by
  obtain ⟨hmpos, hm | ⟨hpassed, hm⟩⟩ := hm
  · obtain ⟨-, hn | ⟨hpassed, -⟩⟩ := hn
    · exact FieldReading.number.inj (hm.symm.trans hn)
    · exact absurd hm (hpassed.ne_number hmpos)
  · obtain ⟨hnpos, hn | ⟨-, hn⟩⟩ := hn
    · exact absurd hn (hpassed.ne_number hnpos)
    · exact FieldReading.number.inj (hm.symm.trans hn)

/-- No field that is looked at is malformed, where a cap is stated. -/
theorem States.not_malformed {reading : String → FieldReading} {n : ℤ} (hn : States reading n) :
    ¬ Malformed reading := by
  obtain ⟨hpos, hn | ⟨hpassed, hn⟩⟩ := hn
  · rintro (hmalformed | ⟨hpassed, -⟩)
    · cases hn.symm.trans hmalformed
    · exact absurd hn (hpassed.ne_number hpos)
  · rintro (hmalformed | ⟨-, hmalformed⟩)
    · exact hpassed.ne_malformed hmalformed
    · cases hn.symm.trans hmalformed

/-- A response that states nothing: both fields are passed over. -/
theorem nothing_stated {reading : String → FieldReading}
    (hmax : (reading "max-record-size").Passed) (hblock : (reading "write-block-size").Passed) :
    ¬ Malformed reading ∧ ∀ cap, ¬ States reading cap := by
  constructor
  · rintro (hmalformed | ⟨-, hmalformed⟩)
    · exact hmax.ne_malformed hmalformed
    · exact hblock.ne_malformed hmalformed
  · rintro cap ⟨hpos, hcap | ⟨-, hcap⟩⟩
    · exact hmax.ne_number hpos hcap
    · exact hblock.ne_number hpos hcap

/-- One cap for both sides. -/
def CapStated (pairs : List (Text × Text)) : Prop :=
  ∃ cap, MIN_RECORD_BYTES ≤ cap ∧ cap ≤ MAX_RECORD_BYTES ∧
    States (exact_reading pairs) cap ∧ States (suffix_reading pairs) cap

/-- No cap for either side. -/
def NoCapStated (pairs : List (Text × Text)) : Prop :=
  (∀ cap, States (exact_reading pairs) cap → cap < MIN_RECORD_BYTES ∨ MAX_RECORD_BYTES < cap) ∧
    (Malformed (suffix_reading pairs) ∨
      ∃ cap, cap ≤ kSafetyMarginBytes ∧ States (suffix_reading pairs) cap)

section Discovery

variable {pairs : List (Text × Text)} (hpairs : InfoPairs pairs)

include hpairs in
theorem InfoPairs.info_int_eq (name : String) :
    info_int (parse_namespace_info (info_response pairs)) name =
      match exact_reading pairs name with
      | .missing => .ok none
      | .malformed => .error (.connector .serverLimit ("invalid " ++ name ++ ": "
          ++ String.ofList (PyText.repr ((first_value (· = name.toList) pairs).getD []))))
      | .number n => .ok (some n) := by
  unfold info_int exact_reading
  rw [hpairs.parse_namespace_info_eq]
  cases first_value (· = name.toList) pairs with
  | none => rfl
  | some value =>
    dsimp only
    cases PyText.integer value <;> rfl

/-- `record_cap`, its two fields one after the other. -/
theorem record_cap_eq (P : Text → Option Text) :
    record_cap P =
      match info_int P "max-record-size" with
      | .error e => .error e
      | .ok m =>
        if m.getD 0 > 0 then .ok (m.getD 0, "max-record-size")
        else
          match info_int P "write-block-size" with
          | .error e => .error e
          | .ok w =>
            if w.getD 0 > 0 then .ok (w.getD 0, "write-block-size")
            else .error (.connector .serverLimit
              "namespace info missing max-record-size and write-block-size") := by
  unfold record_cap
  cases info_int P "max-record-size" with
  | error e => rfl
  | ok m =>
    show (if m.getD 0 > 0 then _ else _) = _
    by_cases hm : m.getD 0 > 0
    · rw [if_pos hm]
      exact (if_pos hm).symm
    · rw [if_neg hm]
      refine Eq.trans ?_ (if_neg hm).symm
      cases info_int P "write-block-size" with
      | error e => rfl
      | ok w =>
        show (if w.getD 0 > 0 then _ else _) = _
        dsimp only
        split_ifs <;> rfl

include hpairs in
theorem InfoPairs.record_cap_iff (cap : ℤ) :
    (∃ source, record_cap (parse_namespace_info (info_response pairs)) = .ok (cap, source)) ↔
      States (exact_reading pairs) cap := by
  rw [record_cap_eq, hpairs.info_int_eq, hpairs.info_int_eq]
  unfold States
  cases exact_reading pairs "max-record-size" with
  | malformed => simp [FieldReading.Passed]
  | missing =>
    cases exact_reading pairs "write-block-size" with
    | malformed => simp
    | missing => simp
    | number w =>
      simp only [Option.getD_none, Option.getD_some, FieldReading.Passed]
      split_ifs <;> simp <;> omega
  | number m =>
    cases exact_reading pairs "write-block-size" with
    | malformed =>
      simp only [Option.getD_some, FieldReading.Passed]
      split_ifs <;> simp <;> omega
    | missing =>
      simp only [Option.getD_none, Option.getD_some, FieldReading.Passed]
      split_ifs <;> simp <;> omega
    | number w =>
      simp only [Option.getD_some, FieldReading.Passed]
      split_ifs <;> simp <;> omega

include hpairs in
/-- What the loop does with one field. -/
theorem InfoPairs.reported_cap_cases (name : String) (hequals : '=' ∉ name.toList)
    (hsemicolon : ';' ∉ name.toList) (fields : List Text) :
    (suffix_reading pairs name).Passed ∧
        reported_cap (info_response pairs) ((name.toList ++ ['=']) :: fields)
          = reported_cap (info_response pairs) fields ∨
      suffix_reading pairs name = .malformed ∧
        (∃ e, reported_cap (info_response pairs) ((name.toList ++ ['=']) :: fields) = .error e) ∨
      ∃ n : ℕ, 0 < n ∧ suffix_reading pairs name = .number n ∧
        reported_cap (info_response pairs) ((name.toList ++ ['=']) :: fields) = .ok (some n) := by
  rw [reported_cap, field_value_info_response hequals hsemicolon hpairs.key hpairs.value]
  unfold suffix_reading
  cases first_value name.toList.isSuffixOf pairs with
  | none => exact .inl ⟨trivial, rfl⟩
  | some value =>
    dsimp only
    cases CxxText.stoull value with
    | error e => exact .inr (.inl ⟨rfl, _, rfl⟩)
    | ok n =>
      dsimp only
      by_cases hn : 0 < n
      · exact .inr (.inr ⟨n, hn, rfl, if_pos hn⟩)
      · refine .inl ⟨?_, if_neg hn⟩
        show (n : ℤ) ≤ 0
        omega

include hpairs in
/-- What the native side reports for a response. -/
theorem InfoPairs.reported_cap_spec :
    (Malformed (suffix_reading pairs) ∧
        ∃ e, reported_cap (info_response pairs) cap_fields = .error e) ∨
      (∃ n : ℕ, States (suffix_reading pairs) n ∧
        reported_cap (info_response pairs) cap_fields = .ok (some n)) ∨
      (suffix_reading pairs "max-record-size").Passed ∧
        (suffix_reading pairs "write-block-size").Passed ∧
        reported_cap (info_response pairs) cap_fields = .ok none := by
  have hfields : cap_fields
      = ("max-record-size".toList ++ ['=']) :: [("write-block-size".toList ++ ['='])] := rfl
  rw [hfields]
  obtain ⟨hpassed, hnext⟩ | ⟨hmalformed, herror⟩ | ⟨n, hn, hnumber, hcap⟩ :=
    hpairs.reported_cap_cases "max-record-size" (by decide) (by decide)
      ["write-block-size".toList ++ ['=']]
  · rw [hnext]
    obtain ⟨hlast, hend⟩ | ⟨hmalformed, herror⟩ | ⟨n, hn, hnumber, hcap⟩ :=
      hpairs.reported_cap_cases "write-block-size" (by decide) (by decide) []
    · exact .inr (.inr ⟨hpassed, hlast, hend⟩)
    · exact .inl ⟨.inr ⟨hpassed, hmalformed⟩, herror⟩
    · exact .inr (.inl ⟨n, ⟨by omega, .inr ⟨hpassed, hnumber⟩⟩, hcap⟩)
  · exact .inl ⟨.inl hmalformed, herror⟩
  · exact .inr (.inl ⟨n, ⟨by omega, .inl hnumber⟩, hcap⟩)

include hpairs in
/-- **When the constructor rejects a response.** -/
theorem InfoPairs.constructor_error_iff (target_segment_bytes : ℕ) :
    (∃ e, constructor_limits target_segment_bytes 0 (.ok (info_response pairs)) = .error e) ↔
      Malformed (suffix_reading pairs) ∨
        ∃ cap, cap ≤ kSafetyMarginBytes ∧ States (suffix_reading pairs) cap := by
  rw [constructor_limits_error_iff]
  unfold discover_record_cap
  dsimp only
  obtain ⟨hmalformed, e, he⟩ | ⟨n, hstates, hcap⟩ | ⟨hmax, hblock, hnone⟩ :=
    hpairs.reported_cap_spec
  · rw [he]
    exact ⟨fun _ => .inl hmalformed, fun _ => .inl ⟨e, rfl⟩⟩
  · rw [hcap]
    constructor
    · rintro (⟨e, he⟩ | ⟨cap, hle, heq⟩)
      · cases he
      · cases heq
        exact .inr ⟨n, hle, hstates⟩
    · rintro (hmalformed | ⟨cap, hle, hcap'⟩)
      · exact absurd hmalformed hstates.not_malformed
      · have heq := hcap'.unique hstates
        exact .inr ⟨n, by omega, rfl⟩
  · rw [hnone]
    obtain ⟨hmalformed, hstates⟩ := nothing_stated hmax hblock
    constructor
    · rintro (⟨e, he⟩ | ⟨cap, hle, heq⟩)
      · cases he
      · cases heq
        exact absurd hle (by decide)
    · rintro (h | ⟨cap, -, h⟩)
      · exact absurd h hmalformed
      · exact absurd h (hstates cap)

include hpairs in
/-- **When Python accepts a response.** -/
theorem InfoPairs.discover_ok_iff (ns : Text) (cap : ℤ) :
    (∃ server, discover_limits (.ok (info_response pairs)) ns = .ok server ∧
        server.server_max_record_bytes = cap) ↔
      States (exact_reading pairs) cap ∧ MIN_RECORD_BYTES ≤ cap ∧ cap ≤ MAX_RECORD_BYTES := by
  rw [← hpairs.record_cap_iff]
  constructor
  · rintro ⟨server, hserver, rfl⟩
    exact ⟨discovered_cap hserver, discovered_range hserver⟩
  · rintro ⟨⟨source, hcap⟩, hlow, hhigh⟩
    obtain ⟨value, n, hmem, hinteger⟩ := hpairs.nsup_period
    have hnsup : info_int (parse_namespace_info (info_response pairs)) "nsup-period"
        = .ok (some n) := by
      have hvalue : first_value (· = "nsup-period".toList) pairs = some value :=
        first_value_of_mem hpairs.nodup hmem
      rw [hpairs.info_int_eq, exact_reading, hvalue]
      dsimp only
      rw [hinteger]
    obtain ⟨c, text, hcons⟩ := List.exists_cons_of_ne_nil hpairs.response_ne_nil
    refine ⟨⟨cap, source, n⟩, ?_, rfl⟩
    unfold discover_limits
    rw [hcons] at hcap hnsup ⊢
    dsimp only
    rw [hcap]
    show (if _ then _ else _) = _
    rw [if_neg (by omega)]
    show (do let nsup_period ← info_int (parse_namespace_info (c :: text)) "nsup-period"
             return (⟨cap, source, nsup_period.getD 0⟩ : ServerLimits)) = Except.ok _
    rw [hnsup]
    rfl

include hpairs in
theorem InfoPairs.discover_error_iff (ns : Text) :
    (∃ e, discover_limits (.ok (info_response pairs)) ns = .error e) ↔
      ∀ cap, States (exact_reading pairs) cap →
        cap < MIN_RECORD_BYTES ∨ MAX_RECORD_BYTES < cap := by
  constructor
  · rintro ⟨e, he⟩ cap hstates
    by_contra hrange
    obtain ⟨server, hserver, -⟩ := (hpairs.discover_ok_iff ns cap).mpr ⟨hstates, by omega⟩
    cases he.symm.trans hserver
  · intro hnone
    cases hdiscover : discover_limits (.ok (info_response pairs)) ns with
    | error e => exact ⟨e, rfl⟩
    | ok server =>
      obtain ⟨hstates, hlow, hhigh⟩ := (hpairs.discover_ok_iff ns _).mp ⟨server, hdiscover, rfl⟩
      have hout := hnone _ hstates
      omega

include hpairs in
theorem InfoPairs.discover_record_cap_ok {n : ℕ} (hstates : States (suffix_reading pairs) n) :
    discover_record_cap (.ok (info_response pairs)) = .ok n := by
  unfold discover_record_cap
  dsimp only
  obtain ⟨hmalformed, -⟩ | ⟨m, hm, hcap⟩ | ⟨hmax, hblock, -⟩ := hpairs.reported_cap_spec
  · exact absurd hmalformed hstates.not_malformed
  · have hmn := hm.unique hstates
    rw [hcap, Int.ofNat.inj hmn]
    rfl
  · exact absurd hstates ((nothing_stated hmax hblock).2 n)

include hpairs in
/-- Where the response states something, the native side has not guessed. -/
theorem InfoPairs.stated_of_discover_record_cap
    (hstated : Malformed (suffix_reading pairs) ∨ ∃ n : ℕ, States (suffix_reading pairs) n)
    {cap : ℕ} (h : discover_record_cap (.ok (info_response pairs)) = .ok cap) :
    States (suffix_reading pairs) cap := by
  obtain ⟨-, e, he⟩ | ⟨n, hn, -⟩ | ⟨hmax, hblock, -⟩ := hpairs.reported_cap_spec
  · unfold discover_record_cap at h
    dsimp only at h
    rw [he] at h
    cases h
  · cases h.symm.trans (hpairs.discover_record_cap_ok hn)
    exact hn
  · obtain ⟨hmalformed, hstates⟩ := nothing_stated hmax hblock
    obtain h | ⟨n, h⟩ := hstated
    · exact absurd h hmalformed
    · exact absurd h (hstates n)

end Discovery

/-! ## Agreement -/

theorem info_int_raises {P : Text → Option Text} {name : String} {e : PyExc}
    (h : info_int P name = .error e) : ∃ text, e = .connector .serverLimit text := by
  unfold info_int at h
  split at h
  · cases h
  · split at h
    · cases h
    · cases h
      exact ⟨_, rfl⟩

theorem record_cap_raises {P : Text → Option Text} {e : PyExc} (h : record_cap P = .error e) :
    ∃ text, e = .connector .serverLimit text := by
  rw [record_cap_eq] at h
  split at h
  · next hmax =>
    cases h
    exact info_int_raises hmax
  · split_ifs at h
    split at h
    · next hblock =>
      cases h
      exact info_int_raises hblock
    · split_ifs at h
      cases h
      exact ⟨_, rfl⟩

/-- `discover_limits` raises probe errors and limit errors only. -/
theorem discover_limits_raises {info : Except AxError Text} {ns : Text} {e : PyExc}
    (h : discover_limits info ns = .error e) :
    ∃ kind text, (kind = .namespaceProbe ∨ kind = .serverLimit) ∧ e = .connector kind text := by
  unfold discover_limits at h
  cases info with
  | error exc =>
    cases h
    exact ⟨_, _, .inl rfl, rfl⟩
  | ok response =>
    cases response with
    | nil =>
      cases h
      exact ⟨_, _, .inl rfl, rfl⟩
    | cons c text =>
      refine ⟨.serverLimit, ?_⟩
      rcases bind_error_cases h with hcap | ⟨cap, -, h⟩
      · obtain ⟨text, rfl⟩ := record_cap_raises hcap
        exact ⟨text, .inr rfl, rfl⟩
      · dsimp only at h
        split_ifs at h
        · cases h
          exact ⟨_, .inr rfl, rfl⟩
        · rcases bind_error_cases h with hnsup | ⟨n, -, h⟩
          · obtain ⟨text, rfl⟩ := info_int_raises hnsup
            exact ⟨text, .inr rfl, rfl⟩
          · cases h

/-- The two sides agree on a response: they fail alike, and otherwise derive one cap, which
neither has guessed. -/
structure CapsAgree (pairs : List (Text × Text)) : Prop where
  raises : ∀ ns e, discover_limits (.ok (info_response pairs)) ns = .error e →
    ∃ kind text, (kind = .namespaceProbe ∨ kind = .serverLimit) ∧ e = .connector kind text
  fail_alike : ∀ ns target_segment_bytes,
    (∃ e, discover_limits (.ok (info_response pairs)) ns = .error e) ↔
      ∃ e, constructor_limits target_segment_bytes 0 (.ok (info_response pairs)) = .error e
  same_cap : ∀ ns server cap, discover_limits (.ok (info_response pairs)) ns = .ok server →
    discover_record_cap (.ok (info_response pairs)) = .ok cap →
    server.server_max_record_bytes = cap
  python_no_guess : ∀ ns server, discover_limits (.ok (info_response pairs)) ns = .ok server →
    States (exact_reading pairs) server.server_max_record_bytes
  native_no_guess : ∀ cap, discover_record_cap (.ok (info_response pairs)) = .ok cap →
    States (suffix_reading pairs) cap

/-- A response with one key that ends in `max-record-size`, that name itself, and a decimal
number in the range. -/
theorem plain_cap_stated {pairs : List (Text × Text)} (hpairs : InfoPairs pairs) {value : Text}
    (hmem : ("max-record-size".toList, value) ∈ pairs)
    (honly : ∀ pair ∈ pairs, "max-record-size".toList <:+ pair.1 →
      pair.1 = "max-record-size".toList)
    (hdigits : ∀ c ∈ value, c.isDigit = true)
    (hlow : MIN_RECORD_BYTES ≤ Nat.ofDigitChars 10 value 0)
    (hhigh : Nat.ofDigitChars 10 value 0 ≤ MAX_RECORD_BYTES) : CapStated pairs := by
  have hvalue := hpairs.value _ hmem
  have hexact : first_value (· = "max-record-size".toList) pairs = some value :=
    first_value_of_mem hpairs.nodup hmem
  have hsuffix : first_value "max-record-size".toList.isSuffixOf pairs = some value := by
    rw [← hexact]
    refine congrArg (Option.map Prod.snd) (List.find?_congr fun pair hpair => ?_)
    rw [Bool.eq_iff_iff, List.isSuffixOf_iff_suffix, decide_eq_true_iff]
    exact ⟨honly pair hpair, fun heq => heq ▸ List.suffix_rfl⟩
  have hpos : 0 < (Nat.ofDigitChars 10 value 0 : ℤ) := by
    unfold MIN_RECORD_BYTES at hlow
    omega
  refine ⟨Nat.ofDigitChars 10 value 0, hlow, hhigh, ⟨hpos, .inl ?_⟩, ⟨hpos, .inl ?_⟩⟩
  · rw [exact_reading, hexact]
    dsimp only
    rw [PyText.integer_digits hvalue.ne_nil hdigits]
  · rw [suffix_reading, hsuffix]
    dsimp only
    have hlt : Nat.ofDigitChars 10 value 0 < 2 ^ 64 := by
      unfold MAX_RECORD_BYTES at hhigh
      omega
    rw [CxxText.stoull_digits hvalue.ne_nil hdigits hlt]

/-- **When both sides discover the same record cap.** -/
theorem caps_agree_iff {pairs : List (Text × Text)} (hpairs : InfoPairs pairs) :
    CapsAgree pairs ↔ CapStated pairs ∨ NoCapStated pairs := by
  constructor
  · intro hagree
    by_cases hnone : ∀ cap, States (exact_reading pairs) cap →
        cap < MIN_RECORD_BYTES ∨ MAX_RECORD_BYTES < cap
    · refine .inr ⟨hnone, (hpairs.constructor_error_iff 0).mp ?_⟩
      exact (hagree.fail_alike [] 0).mp ((hpairs.discover_error_iff []).mpr hnone)
    · refine .inl ?_
      cases hpython : discover_limits (.ok (info_response pairs)) [] with
      | error e => exact absurd ((hpairs.discover_error_iff []).mp ⟨e, hpython⟩) hnone
      | ok server =>
        cases hnative : discover_record_cap (.ok (info_response pairs)) with
        | error e =>
          -- discovery fails, so the constructor does, so Python would
          have hfails := (constructor_limits_error_iff 0 _).mpr (.inl ⟨e, hnative⟩)
          obtain ⟨e', he'⟩ := (hagree.fail_alike [] 0).mpr hfails
          cases he'.symm.trans hpython
        | ok cap =>
          have hsame := hagree.same_cap [] server cap hpython hnative
          have hrange := discovered_range hpython
          have hexact := hagree.python_no_guess [] server hpython
          rw [hsame] at hrange hexact
          exact ⟨cap, hrange.1, hrange.2, hexact, hagree.native_no_guess cap hnative⟩
  · intro hstated
    have hnative : Malformed (suffix_reading pairs) ∨
        ∃ n : ℕ, States (suffix_reading pairs) n := by
      obtain ⟨cap, hlow, -, -, hcap⟩ | ⟨-, hmalformed | ⟨n, -, hn⟩⟩ := hstated
      · obtain ⟨n, rfl⟩ := Int.eq_ofNat_of_zero_le (le_of_lt hcap.1)
        exact .inr ⟨n, hcap⟩
      · exact .inl hmalformed
      · exact .inr ⟨n, hn⟩
    have hexact : ∀ ns server, discover_limits (.ok (info_response pairs)) ns = .ok server →
        States (exact_reading pairs) server.server_max_record_bytes := fun ns server h =>
      ((hpairs.discover_ok_iff ns _).mp ⟨server, h, rfl⟩).1
    refine ⟨fun _ _ => discover_limits_raises, fun ns target => ?_, fun ns server cap h h' => ?_,
      hexact, fun cap => hpairs.stated_of_discover_record_cap hnative⟩
    · rw [hpairs.discover_error_iff, hpairs.constructor_error_iff]
      obtain ⟨cap, hlow, hhigh, hpy, hcap⟩ | ⟨hnone, hnative⟩ := hstated
      · constructor
        · intro h
          have := h cap hpy
          omega
        · rintro (hmalformed | ⟨small, hle, hsmall⟩)
          · exact absurd hmalformed hcap.not_malformed
          · have := hcap.unique hsmall
            unfold kSafetyMarginBytes at hle
            unfold MIN_RECORD_BYTES at hlow
            omega
      · exact ⟨fun _ => hnative, fun _ => hnone⟩
    · have hsuffix := hpairs.stated_of_discover_record_cap hnative h'
      obtain ⟨cap', -, -, hpy, hcap⟩ | ⟨hnone, -⟩ := hstated
      · rw [(hexact ns server h).unique hpy, hcap.unique hsuffix]
      · obtain ⟨e, he⟩ := (hpairs.discover_error_iff ns).mpr hnone
        cases he.symm.trans h

/-- A response of the later servers. -/
theorem caps_agree_plain :
    CapsAgree [("nsup-period".toList, "120".toList),
      ("max-record-size".toList, "1048576".toList)] := by
  have hpairs : InfoPairs [("nsup-period".toList, "120".toList),
      ("max-record-size".toList, "1048576".toList)] := by
    refine ⟨?_, ?_, by decide, _, 120, List.mem_cons_self, by decide⟩
    · rintro pair (_ | ⟨_, _ | ⟨_, ⟨⟩⟩⟩) <;>
        exact ⟨by decide, by decide, by decide, by decide, by decide⟩
    · rintro pair (_ | ⟨_, _ | ⟨_, ⟨⟩⟩⟩) <;>
        exact ⟨by decide, by decide, by decide, by decide, by decide⟩
  refine (caps_agree_iff hpairs).mpr (.inl ?_)
  have hdigits : ∀ c ∈ "1048576".toList, c.isDigit = true := List.all_eq_true.mp (by decide)
  exact plain_cap_stated hpairs (List.mem_cons_of_mem _ List.mem_cons_self) (by decide) hdigits
    (by decide) (by decide)

/-- A response without the two fields: Python refuses it, and the native side guesses a cap. -/
theorem caps_disagree_nsup_only :
    InfoPairs [("nsup-period".toList, "120".toList)] ∧
      discover_record_cap (.ok "nsup-period=120".toList) = .ok kDefaultRecordCapBytes ∧
      ¬ CapsAgree [("nsup-period".toList, "120".toList)] := by
  have hpairs : InfoPairs [("nsup-period".toList, "120".toList)] := by
    refine ⟨?_, ?_, by decide, _, 120, List.mem_cons_self, by decide⟩
    · rintro pair (_ | ⟨_, ⟨⟩⟩)
      exact ⟨by decide, by decide, by decide, by decide, by decide⟩
    · rintro pair (_ | ⟨_, ⟨⟩⟩)
      exact ⟨by decide, by decide, by decide, by decide, by decide⟩
  refine ⟨hpairs, by decide, fun hagree => ?_⟩
  have hpython : ∃ e,
      discover_limits (.ok (info_response [("nsup-period".toList, "120".toList)])) [] = .error e :=
    ⟨_, rfl⟩
  obtain ⟨e, he⟩ := (hagree.fail_alike [] 0).mp hpython
  cases he
