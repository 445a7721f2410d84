/-
# Keys of the two L2 paths

The native connector computes the cache key from a key string, by splitting it and parsing
hexadecimal fields; the Python plugin computes it from an `ObjectKey`.  The two agree
(`key_paths_agree`), and the native keys that share a cache key are exactly those with the
same model, ranks, low hash bits and salt (`native_key_alias_iff`).
-/
import LmcacheAerospike.FieldText
import LmcacheAerospike.HexText
import LmcacheAerospike.Records

/-! ## The native path -/

/-- A `std::runtime_error` with its text. -/
structure RuntimeError : Type where
  what : String
  deriving DecidableEq, Repr

/-- The loop of `split`; `field` is what it has read since the last separator. -/
def split_from (sep : Char) (field : Text) : Text → List Text
  | [] => [field]
  | c :: s => if c = sep then field :: split_from sep [] s else split_from sep (field ++ [c]) s

def split (s : Text) (sep : Char) : List Text := split_from sep [] s

/-- The loop of `parse_hex_u64`, from the value read so far. -/
def parse_hex_from (value : ℕ) : Text → Except RuntimeError ℕ
  | [] => .ok value
  | c :: hex =>
    -- `uint64_t`: the four bits that leave on the left are lost
    let value := (value <<< 4) % 2 ^ 64
    if '0' ≤ c ∧ c ≤ '9' then parse_hex_from (value ||| (c.toNat - '0'.toNat)) hex
    else if 'a' ≤ c ∧ c ≤ 'f' then parse_hex_from (value ||| (c.toNat - 'a'.toNat + 10)) hex
    else if 'A' ≤ c ∧ c ≤ 'F' then parse_hex_from (value ||| (c.toNat - 'A'.toNat + 10)) hex
    else .error ⟨"invalid hex digit in native key"⟩

/-- A hexadecimal number in 64 bits; what does not fit is shifted out. -/
def parse_hex_u64 (hex : Text) : Except RuntimeError ℕ := parse_hex_from 0 hex

/-- The last 16 digits without their leading zeros. -/
def trim_low_64_hex (hex : Text) : Text :=
  let low := if hex.length > 16 then hex.drop (hex.length - 16) else hex
  if (low.dropWhile fun c => c = '0') = [] then ['0'] else low.dropWhile fun c => c = '0'

/-- The cache key of the four fields; a missing fourth field counts as an empty one. -/
def cache_key_of_parts (model rank hash salt dtype : Text) : Except RuntimeError Text :=
  match parse_hex_u64 rank with
  | .error e => .error e
  | .ok kv_rank =>
    let world_size := (kv_rank >>> 24) &&& 0xff
    let worker_id := (kv_rank >>> 16) &&& 0xff
    let world_size := if world_size = 0 then 1 else world_size
    .ok (model ++ '@' :: (Nat.toDigits 10 world_size ++ '@' :: (Nat.toDigits 10 worker_id
      ++ '@' :: (trim_low_64_hex hash ++ '@' :: (dtype
        ++ if salt = [] then [] else "@cache_salt%".toList ++ salt)))))

def native_key_to_cache_engine_key (key dtype : Text) : Except RuntimeError Text :=
  match split key '@' with
  | [model, rank, hash] => cache_key_of_parts model rank hash [] dtype
  | [model, rank, hash, salt] => cache_key_of_parts model rank hash salt dtype
  | _ => .error ⟨"native ObjectKey string must have 3 or 4 fields"⟩

/-! ## The Python path -/

/-- LMCache's `ObjectKey`. -/
structure ObjectKey : Type where
  chunk_hash : Bytes
  model_name : Text
  kv_rank : ℕ
  cache_salt : Text
  deriving DecidableEq

/-- LMCache's `CacheEngineKey`, its dtype as the text that `to_string()` prints. -/
structure CacheEngineKey : Type where
  model_name : Text
  world_size : ℕ
  worker_id : ℕ
  chunk_hash : ℕ
  dtype : Text
  request_configs : Option (List (Text × Text))

/-- The prefix of the request configs that are tags. -/
def TAG_PREFIX : Text := "lmcache.tag.".toList

/-- The tags of a key: the request configs under the tag prefix. -/
def CacheEngineKey.tags (ck : CacheEngineKey) : List (Text × Text) :=
  ((ck.request_configs.getD []).filter fun config => TAG_PREFIX.isPrefixOf config.1).map
    fun config => (config.1.drop TAG_PREFIX.length, config.2)

/-- `model@world_size@worker_id@hash@dtype`, and `@tag%value` for each tag. -/
def CacheEngineKey.to_string (ck : CacheEngineKey) : Text :=
  ck.model_name ++ '@' :: (Nat.toDigits 10 ck.world_size ++ '@' :: (Nat.toDigits 10 ck.worker_id
    ++ '@' :: (Nat.toDigits 16 ck.chunk_hash ++ '@' :: (ck.dtype
      ++ ck.tags.flatMap fun tag => '@' :: (tag.1 ++ '%' :: tag.2)))))

/-- `int.from_bytes(..., byteorder="big")`. -/
def from_bytes (bytes : Bytes) : ℕ := bytes.foldl (fun v x => 256 * v + x.toNat) 0

/-- Convert an L2 `ObjectKey`; the salt becomes a tag. -/
def object_key_to_cache_engine_key (key : ObjectKey) (dtype : Text) : CacheEngineKey :=
  let world_size := (key.kv_rank >>> 24) &&& 0xFF
  let worker_id := (key.kv_rank >>> 16) &&& 0xFF
  let world_size := if world_size ≤ 0 then 1 else world_size
  let chunk_hash := from_bytes key.chunk_hash &&& (2 ^ 64 - 1)
  let request_configs : List (Text × Text) :=
    if key.cache_salt = [] then [] else [("lmcache.tag.cache_salt".toList, key.cache_salt)]
  { model_name := key.model_name, world_size := world_size, worker_id := worker_id,
    chunk_hash := chunk_hash, dtype := dtype,
    request_configs := if request_configs = [] then none else some request_configs }

/-! ## Splitting -/

theorem split_from_eq (sep : Char) (field s : Text) :
    split_from sep field s = List.splitOnPPrepend (· == sep) s field.reverse := by
  induction s generalizing field with
  | nil => rw [split_from, List.splitOnPPrepend_nil, List.reverse_reverse]
  | cons c s ih =>
    rw [split_from, List.splitOnPPrepend_cons_eq_if, List.reverse_reverse]
    by_cases hc : c = sep
    · rw [if_pos hc, if_pos (beq_iff_eq.mpr hc), ih]
      rfl
    · rw [if_neg hc, if_neg (by simpa using hc), ih, List.reverse_append]
      rfl

/-- `split` is the splitting of lists. -/
theorem split_eq (s : Text) (sep : Char) : split s sep = s.splitOn sep := split_from_eq sep [] s

theorem split_append_sep {x : Text} {sep : Char} (hx : sep ∉ x) (s : Text) :
    split (x ++ sep :: s) sep = x :: split s sep := by
  rw [split_eq, split_eq, List.splitOn_append_cons_self_of_not_mem hx]

theorem split_single {x : Text} {sep : Char} (hx : sep ∉ x) : split x sep = [x] := by
  rw [split_eq, List.splitOn_eq_singleton hx]

/-- No field contains the separator. -/
theorem notMem_of_mem_split {sep : Char} {part s : Text} (h : part ∈ split s sep) :
    sep ∉ part := by
  have hloop : ∀ s field : Text, sep ∉ field → ∀ part ∈ split_from sep field s, sep ∉ part := by
    intro s
    induction s with
    | nil =>
      intro field hfield part hpart
      rwa [List.mem_singleton.mp hpart]
    | cons c s ih =>
      intro field hfield part hpart
      -- a separator ends the field, and any other character makes it longer
      rw [split_from] at hpart
      by_cases hc : c = sep
      · rw [if_pos hc] at hpart
        rcases List.mem_cons.mp hpart with rfl | hmem
        · exact hfield
        · exact ih [] (by simp) part hmem
      · rw [if_neg hc] at hpart
        refine ih _ (fun hmem => ?_) part hpart
        rcases List.mem_append.mp hmem with hm | hm
        · exact hfield hm
        · exact hc (List.mem_singleton.mp hm).symm
  exact hloop s [] (by simp) part h

/-! ## Hexadecimal fields -/

theorem shift_or_digit (value : ℕ) {d : ℕ} (hd : d < 16) :
    (value <<< 4) % 2 ^ 64 ||| d = (16 * value + d) % 2 ^ 64 := by
  have hshift : (value <<< 4) % 2 ^ 64 = (value % 2 ^ 60) <<< 4 := by
    rw [Nat.shiftLeft_eq, Nat.shiftLeft_eq]
    omega
  rw [hshift, ← Nat.shiftLeft_add_eq_or_of_lt (show d < 2 ^ 4 from hd), Nat.shiftLeft_eq]
  omega

theorem parse_hex_from_cons (value : ℕ) (c : Char) (hex : Text) :
    parse_hex_from value (c :: hex) = if IsHexDigit c
      then parse_hex_from ((16 * value + hexDigitValue c) % 2 ^ 64) hex
      else .error ⟨"invalid hex digit in native key"⟩ := by
  rw [← shift_or_digit value (hexDigitValue_lt c), parse_hex_from]
  unfold hexDigitValue IsHexDigit IsLowerHexDigit
  by_cases h0 : '0' ≤ c ∧ c ≤ '9'
  · simp only [if_pos h0, if_pos (Or.inl (Or.inl h0))]
  · by_cases ha : 'a' ≤ c ∧ c ≤ 'f'
    · simp only [if_neg h0, if_pos ha, if_pos (Or.inl (Or.inr ha))]
    · by_cases hA : 'A' ≤ c ∧ c ≤ 'F'
      · simp only [if_neg h0, if_neg ha, if_pos hA, if_pos (Or.inr hA)]
      · simp only [if_neg h0, if_neg ha, if_neg hA]
        rw [if_neg]
        rintro ((h | h) | h)
        · exact h0 h
        · exact ha h
        · exact hA h

/-- **The parser accepts exactly the hexadecimal numerals**, and returns their value in 64
bits. -/
theorem parse_hex_from_ok {value v : ℕ} {hex : Text} (hvalue : value < 2 ^ 64) :
    parse_hex_from value hex = .ok v ↔
      (∀ c ∈ hex, IsHexDigit c) ∧ v = hexValueFrom value hex % 2 ^ 64 := by
  induction hex generalizing value with
  | nil =>
    rw [parse_hex_from]
    constructor
    · intro h
      cases h
      exact ⟨by simp, (Nat.mod_eq_of_lt hvalue).symm⟩
    · rintro ⟨-, hv⟩
      rw [hv]
      exact congrArg Except.ok (Nat.mod_eq_of_lt hvalue).symm
  | cons c hex ih =>
    rw [parse_hex_from_cons, List.forall_mem_cons]
    by_cases hc : IsHexDigit c
    · rw [if_pos hc, ih (Nat.mod_lt _ (by decide)), hexValueFrom_mod, and_iff_right hc]
      rfl
    · rw [if_neg hc]
      exact iff_of_false (fun h => by cases h) fun h => hc h.1.1

theorem parse_hex_u64_ok {v : ℕ} {hex : Text} :
    parse_hex_u64 hex = .ok v ↔ (∀ c ∈ hex, IsHexDigit c) ∧ v = hexValue hex % 2 ^ 64 :=
  parse_hex_from_ok (by decide)

/-- The trimmed numeral is the one printed for the low 64 bits. -/
theorem trim_low_64_hex_eq {hex : Text} (hhex : ∀ c ∈ hex, IsLowerHexDigit c) :
    trim_low_64_hex hex = Nat.toDigits 16 (hexValue hex % 2 ^ 64) := by
  -- the last 16 digits are the low 64 bits
  have hpow : (2 : ℕ) ^ 64 = 16 ^ 16 := by decide
  rw [trim_low_64_hex, hpow]
  by_cases hlong : hex.length > 16
  · rw [if_pos hlong, toDigits_hexValue_trim fun c hc => hhex c (List.mem_of_mem_drop hc),
      hexValue_drop hex 16 (by omega)]
  · have hlt : hexValue hex < 16 ^ 16 :=
      lt_of_lt_of_le (hexValue_lt hex) (Nat.pow_le_pow_right (by decide) (by omega))
    rw [if_neg hlong, toDigits_hexValue_trim hhex, Nat.mod_eq_of_lt hlt]

/-! ## What a cache key is made of -/

/-- The cache key with the given parts, the hash as a number. -/
def cacheKey (model : Text) (world_size worker_id chunk_hash : ℕ) (dtype salt : Text) : Text :=
  model ++ '@' :: (Nat.toDigits 10 world_size ++ '@' :: (Nat.toDigits 10 worker_id
    ++ '@' :: (Nat.toDigits 16 chunk_hash ++ '@' :: (dtype
      ++ if salt = [] then [] else "@cache_salt%".toList ++ salt))))

/-- The world size in a rank: bits 24 to 31, with `0` replaced by `1`. -/
def rankWorldSize (rank : ℕ) : ℕ := if rank / 2 ^ 24 % 256 = 0 then 1 else rank / 2 ^ 24 % 256

/-- The worker id in a rank: bits 16 to 23. -/
def rankWorkerId (rank : ℕ) : ℕ := rank / 2 ^ 16 % 256

theorem and_ff (n : ℕ) : n &&& 0xff = n % 256 := Nat.and_two_pow_sub_one_eq_mod n 8

/-- A cache key determines its parts, as long as the model has no `@`. -/
theorem cacheKey_inj {model model' dtype salt salt' : Text} {ws ws' wid wid' hash hash' : ℕ}
    (hmodel : '@' ∉ model) (hmodel' : '@' ∉ model')
    (h : cacheKey model ws wid hash dtype salt = cacheKey model' ws' wid' hash' dtype salt') :
    model = model' ∧ ws = ws' ∧ wid = wid' ∧ hash = hash' ∧ salt = salt' := by
  have hdec : ∀ n, '@' ∉ Nat.toDigits 10 n := notMem_toDigits_ten (by decide)
  have hhex : ∀ n, '@' ∉ Nat.toDigits 16 n := fun n hmem =>
    absurd (isLowerHexDigit_of_mem_toDigits hmem) (by decide)
  -- from the left, field by field; only the salt may contain the separator, and it is last
  obtain ⟨h₁, h⟩ := append_sep_inj_left hmodel hmodel' h
  obtain ⟨h₂, h⟩ := append_sep_inj_left (hdec _) (hdec _) h
  obtain ⟨h₃, h⟩ := append_sep_inj_left (hdec _) (hdec _) h
  obtain ⟨h₄, h⟩ := append_sep_inj_left (hhex _) (hhex _) h
  have htag := List.append_cancel_left h
  refine ⟨h₁, toDigits_ten_injective h₂, toDigits_ten_injective h₃, toDigits_hex_injective h₄, ?_⟩
  by_cases hs : salt = []
  · by_cases hs' : salt' = []
    · rw [hs, hs']
    · rw [if_pos hs, if_neg hs'] at htag
      cases htag
  · by_cases hs' : salt' = []
    · rw [if_neg hs, if_pos hs'] at htag
      cases htag
    · rw [if_neg hs, if_neg hs'] at htag
      exact List.append_cancel_left htag

/-! ## The native path, by fields -/

/-- The fields of a native key; a missing fourth field is the empty salt. -/
structure NativeFields : Type where
  model : Text
  kv_rank : Text
  chunk_hash : Text
  salt : Text

/-- The fields that a native key is split into, when their number is right. -/
def nativeFields (key : Text) : Option NativeFields :=
  match split key '@' with
  | [model, rank, hash] => some ⟨model, rank, hash, []⟩
  | [model, rank, hash, salt] => some ⟨model, rank, hash, salt⟩
  | _ => none

theorem nativeFields_model {key : Text} {f : NativeFields} (h : nativeFields key = some f) :
    '@' ∉ f.model := by
  unfold nativeFields at h
  split at h
  · rename_i hsplit
    cases h
    exact notMem_of_mem_split (hsplit ▸ List.mem_cons_self)
  · rename_i hsplit
    cases h
    exact notMem_of_mem_split (hsplit ▸ List.mem_cons_self)
  · cases h

theorem native_key_of_fields (key dtype : Text) :
    native_key_to_cache_engine_key key dtype
      = match nativeFields key with
        | some f => cache_key_of_parts f.model f.kv_rank f.chunk_hash f.salt dtype
        | none => .error ⟨"native ObjectKey string must have 3 or 4 fields"⟩ := by
  unfold native_key_to_cache_engine_key nativeFields
  split <;> rfl

/-- **What a native key is mapped to**, when its hash is lower-case. -/
theorem cache_key_of_parts_ok {model rank hash salt dtype out : Text}
    (hhash : ∀ c ∈ hash, IsLowerHexDigit c) :
    cache_key_of_parts model rank hash salt dtype = .ok out ↔
      (∀ c ∈ rank, IsHexDigit c) ∧
        out = cacheKey model (rankWorldSize (hexValue rank)) (rankWorkerId (hexValue rank))
          (hexValue hash % 2 ^ 64) dtype salt := by
  have hparts : ∀ v, v = hexValue rank % 2 ^ 64 →
      v >>> 24 &&& 0xff = hexValue rank / 2 ^ 24 % 256 ∧
        v >>> 16 &&& 0xff = rankWorkerId (hexValue rank) := by
    intro v hv
    rw [and_ff, and_ff, Nat.shiftRight_eq_div_pow, Nat.shiftRight_eq_div_pow, hv, rankWorkerId]
    omega
  unfold cache_key_of_parts
  cases hparse : parse_hex_u64 rank with
  | error e =>
    refine iff_of_false (fun h => by cases h) fun h => ?_
    rw [parse_hex_u64_ok.mpr ⟨h.1, rfl⟩] at hparse
    cases hparse
  | ok v =>
    obtain ⟨hrank, hv⟩ := parse_hex_u64_ok.mp hparse
    obtain ⟨hworld, hworker⟩ := hparts v hv
    rw [and_iff_right hrank]
    dsimp only
    rw [hworld, hworker, trim_low_64_hex_eq hhash, Except.ok.injEq, eq_comm]
    rfl

/-- **Exact aliasing of native keys.**  Two native keys that are accepted, with lower-case
hashes, are mapped to the same cache key if and only if their models, the two rank bytes
(a world size of `0` counting as `1`), the low 64 bits of their hashes and their salts are
the same; in particular keys of different models or salts never share a cache key. -/
theorem native_key_alias_iff (dtype key key' out out' : Text)
    (h : native_key_to_cache_engine_key key dtype = .ok out)
    (h' : native_key_to_cache_engine_key key' dtype = .ok out')
    (f f' : NativeFields) (hf : nativeFields key = some f) (hf' : nativeFields key' = some f')
    (hhash : ∀ c ∈ f.chunk_hash, IsLowerHexDigit c)
    (hhash' : ∀ c ∈ f'.chunk_hash, IsLowerHexDigit c) :
    (out = out' ↔
      f.model = f'.model ∧
      rankWorldSize (hexValue f.kv_rank) = rankWorldSize (hexValue f'.kv_rank) ∧
      rankWorkerId (hexValue f.kv_rank) = rankWorkerId (hexValue f'.kv_rank) ∧
      hexValue f.chunk_hash % 2 ^ 64 = hexValue f'.chunk_hash % 2 ^ 64 ∧
      f.salt = f'.salt) ∧
    (f.model ≠ f'.model ∨ f.salt ≠ f'.salt → out ≠ out') := by
  rw [native_key_of_fields, hf] at h
  rw [native_key_of_fields, hf'] at h'
  obtain ⟨-, rfl⟩ := (cache_key_of_parts_ok hhash).mp h
  obtain ⟨-, rfl⟩ := (cache_key_of_parts_ok hhash').mp h'
  have hinj := @cacheKey_inj f.model f'.model dtype f.salt f'.salt
    (rankWorldSize (hexValue f.kv_rank)) (rankWorldSize (hexValue f'.kv_rank))
    (rankWorkerId (hexValue f.kv_rank)) (rankWorkerId (hexValue f'.kv_rank))
    (hexValue f.chunk_hash % 2 ^ 64) (hexValue f'.chunk_hash % 2 ^ 64)
    (nativeFields_model hf) (nativeFields_model hf')
  refine ⟨⟨hinj, ?_⟩, ?_⟩
  · rintro ⟨hmodel, hworld, hworker, hhash, hsalt⟩
    rw [hmodel, hworld, hworker, hhash, hsalt]
  · rintro (hmodel | hsalt) heq
    · exact hmodel (hinj heq).1
    · exact hsalt (hinj heq).2.2.2.2

/-- Ranks that differ outside the two bytes, hashes that differ above bit 63, and a missing
salt beside an empty one give the same cache key. -/
theorem native_key_alias_low_bits :
    ∃ out out', native_key_to_cache_engine_key "m@0@10000000000000002".toList "d".toList
        = .ok out ∧
      native_key_to_cache_engine_key "m@0100ABCD@2@".toList "d".toList = .ok out' ∧
      out = out' := by
  have h₁ : native_key_to_cache_engine_key "m@0@10000000000000002".toList "d".toList
      = .ok "m@1@0@2@d".toList := by decide
  have h₂ : native_key_to_cache_engine_key "m@0100ABCD@2@".toList "d".toList
      = .ok "m@1@0@2@d".toList := by decide
  exact ⟨_, _, h₁, h₂, (native_key_alias_iff _ _ _ _ _ h₁ h₂ _ _ rfl rfl
    (isLowerHexDigit_of_all (by decide)) (isLowerHexDigit_of_all (by decide))).1.mpr
    (by decide)⟩

/-! ## The two paths -/

/-- Two lower-case digits for each byte. -/
def hexBytes (bytes : Bytes) : Text :=
  bytes.flatMap fun x => [Nat.digitChar (x.toNat / 16), Nat.digitChar (x.toNat % 16)]

/-- The key string of the native path for a key: the fields joined by `@`, the rank in
lower-case digits (any number of them), an empty salt written as an empty field or not at
all. -/
def NativeString (key : ObjectKey) (s : Text) : Prop :=
  ∃ rank : Text, (∀ c ∈ rank, IsLowerHexDigit c) ∧ hexValue rank = key.kv_rank ∧
    ((s = key.model_name ++ '@' :: (rank ++ '@' :: hexBytes key.chunk_hash) ∧
        key.cache_salt = []) ∨
      s = key.model_name ++ '@' :: (rank ++ '@' :: (hexBytes key.chunk_hash
        ++ '@' :: key.cache_salt)))

theorem isLowerHexDigit_of_mem_hexBytes {bytes : Bytes} {c : Char} (h : c ∈ hexBytes bytes) :
    IsLowerHexDigit c := by
  obtain ⟨x, -, hx⟩ := List.mem_flatMap.mp h
  have hlt := x.toNat_lt
  rcases List.mem_cons.mp hx with rfl | hx
  · exact isLowerHexDigit_digitChar (by omega)
  · rw [List.mem_singleton.mp hx]
    exact isLowerHexDigit_digitChar (by omega)

/-- The hexadecimal text of some bytes is their value as a big-endian number. -/
theorem hexValue_hexBytes (bytes : Bytes) : hexValue (hexBytes bytes) = from_bytes bytes := by
  induction bytes using List.reverseRecOn with
  | nil => rfl
  | append_singleton bytes x ih =>
    have hlt := x.toNat_lt
    have hbyte : hexValue (hexBytes [x]) = x.toNat := by
      rw [hexBytes, List.flatMap_singleton, hexValue_cons, hexValue_cons,
        hexDigitValue_digitChar (by omega), hexDigitValue_digitChar (by omega)]
      simp only [List.length_singleton, List.length_nil, hexValue_nil]
      omega
    rw [hexBytes, List.flatMap_append, hexValue_append, from_bytes, List.foldl_append]
    show hexValue (hexBytes bytes) * 16 ^ 2 + hexValue (hexBytes [x])
      = 256 * from_bytes bytes + x.toNat
    rw [ih, hbyte]
    omega

/-- The cache key that the Python path computes. -/
theorem object_key_to_string (key : ObjectKey) (dtype : Text) :
    (object_key_to_cache_engine_key key dtype).to_string
      = cacheKey key.model_name (rankWorldSize key.kv_rank) (rankWorkerId key.kv_rank)
          (from_bytes key.chunk_hash % 2 ^ 64) dtype key.cache_salt := by
  have hworld : key.kv_rank >>> 24 &&& 0xFF = key.kv_rank / 2 ^ 24 % 256 := by
    rw [and_ff, Nat.shiftRight_eq_div_pow]
  have hworker : key.kv_rank >>> 16 &&& 0xFF = rankWorkerId key.kv_rank := by
    rw [and_ff, Nat.shiftRight_eq_div_pow, rankWorkerId]
  have htags : (object_key_to_cache_engine_key key dtype).tags.flatMap
      (fun tag => '@' :: (tag.1 ++ '%' :: tag.2))
        = if key.cache_salt = [] then [] else "@cache_salt%".toList ++ key.cache_salt := by
    unfold object_key_to_cache_engine_key CacheEngineKey.tags
    by_cases hsalt : key.cache_salt = []
    · simp only [if_pos hsalt]
      rfl
    · simp only [if_neg hsalt, if_neg (List.cons_ne_nil _ _)]
      show ("@cache_salt%".toList ++ key.cache_salt) ++ [] = _
      rw [List.append_nil]
  rw [CacheEngineKey.to_string, htags]
  simp only [object_key_to_cache_engine_key, hworld, hworker, Nat.le_zero,
    Nat.and_two_pow_sub_one_eq_mod]
  rfl

/-- **The two L2 paths agree on keys.**  For every key whose model and salt contain no `@`,
the native connector maps each of its key strings to what the Python path computes from the
key itself. -/
theorem key_paths_agree (key : ObjectKey) (dtype s : Text) (hmodel : '@' ∉ key.model_name)
    (hsalt : '@' ∉ key.cache_salt) (hs : NativeString key s) :
    native_key_to_cache_engine_key s dtype
      = .ok (object_key_to_cache_engine_key key dtype).to_string := by
  obtain ⟨rank, hrank, hvalue, hform⟩ := hs
  have hhex : ∀ {t : Text}, (∀ c ∈ t, IsLowerHexDigit c) → '@' ∉ t := fun ht hmem =>
    absurd (ht _ hmem) (by decide)
  have hhash : ∀ c ∈ hexBytes key.chunk_hash, IsLowerHexDigit c :=
    fun c hc => isLowerHexDigit_of_mem_hexBytes hc
  have hparts : cache_key_of_parts key.model_name rank (hexBytes key.chunk_hash)
      key.cache_salt dtype = .ok (object_key_to_cache_engine_key key dtype).to_string := by
    rw [cache_key_of_parts_ok hhash, object_key_to_string, hvalue, hexValue_hexBytes]
    exact ⟨fun c hc => Or.inl (hrank c hc), rfl⟩
  unfold native_key_to_cache_engine_key
  rcases hform with ⟨rfl, hnil⟩ | rfl
  · rw [split_append_sep hmodel, split_append_sep (hhex hrank), split_single (hhex hhash)]
    rwa [hnil] at hparts
  · rw [split_append_sep hmodel, split_append_sep (hhex hrank), split_append_sep (hhex hhash),
      split_single hsalt]
    exact hparts

/-- A key with a hash of nine bytes, a rank of more than 32 bits and a salt. -/
theorem key_paths_agree_long_hash :
    native_key_to_cache_engine_key "llama@102010000@010000000000000a0b@user-a".toList
        "bfloat16".toList
      = .ok (object_key_to_cache_engine_key
          ⟨[1, 0, 0, 0, 0, 0, 0, 10, 11], "llama".toList, 0x102010000, "user-a".toList⟩
          "bfloat16".toList).to_string :=
  key_paths_agree _ _ _ (by decide) (by decide)
    ⟨"102010000".toList, isLowerHexDigit_of_all (by decide), by decide, Or.inr (by decide)⟩
