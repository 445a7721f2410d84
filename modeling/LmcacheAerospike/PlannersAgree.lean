/-
# When the two planners agree

`plan` of `sharding.py` and `plan` of `connector.cpp` cut payloads for the same store.  Both
aim at pieces of their target, each clamped to the cap that its own side takes from the server
or, on the native side, is given; only the Python planner has an upper bound, a threshold and a
lower bound of its own.

* They cut every payload alike if and only if the targets are equal, below the maximum, and
  the threshold and the lower bound leave every longer payload in pieces.
* Where both cut into several pieces, which is all that readers of a mixed store depend on,
  they cut alike if and only if the targets are equal, the Python planner refuses everything, or
  the native one cuts nothing.

The defaults do not agree on a server whose cap is above the Python default of 4 MiB, since the
native default is the cap itself.
-/
import LmcacheAerospike.NativePlan
import LmcacheAerospike.RecordCaps

/-! ## Agreement -/

/-- The planners cut payloads of `P` bytes alike, or both not at all. -/
def CutAlike (r : ResolvedLimits) (l : NativeLimits) (P : ℕ) : Prop :=
  ∀ pl, r.shard_plan P = .ok pl ↔ l.plan P = .ok pl

/-- Where both cut payloads of `P` bytes into several pieces, they cut alike. -/
def PiecesAlike (r : ResolvedLimits) (l : NativeLimits) (P : ℕ) : Prop :=
  ∀ pl pl', r.shard_plan P = .ok pl → l.plan P = .ok pl' → pl.nseg ≠ 1 → pl'.nseg ≠ 1 → pl = pl'

theorem CutAlike.pieces {r : ResolvedLimits} {l : NativeLimits} {P : ℕ} (h : CutAlike r l P) :
    PiecesAlike r l P := by
  intro pl pl' hpl hpl' _ _
  rw [h pl, hpl'] at hpl
  exact (Except.ok.inj hpl).symm

/-! ## The plans of each side -/

/-- The pieces of a payload that is longer than the target are longer than half of it. -/
theorem half_target_le {P t : ℕ} (ht : 0 < t) (hlong : t < P) :
    (t + 2) / 2 ≤ P ⌈/⌉ (P ⌈/⌉ t) := by
  have hcount : 2 ≤ P ⌈/⌉ t := two_le_ceilDiv ht hlong
  have hreach : P ≤ P ⌈/⌉ t * (P ⌈/⌉ (P ⌈/⌉ t)) :=
    le_smul_ceilDiv (show 0 < P ⌈/⌉ t by omega)
  -- all but one of the pieces of the target's size fit inside the payload
  have hinside : (P ⌈/⌉ t - 1) * t < P := by
    by_contra hge
    have hle : P ⌈/⌉ t ≤ P ⌈/⌉ t - 1 :=
      (ceilDiv_le_iff_le_mul ht).mpr (by rw [Nat.mul_comm]; omega)
    omega
  generalize P ⌈/⌉ (P ⌈/⌉ t) = s at *
  generalize P ⌈/⌉ t = n at *
  obtain ⟨n, rfl⟩ : ∃ m, n = m + 2 := ⟨n - 2, by omega⟩
  by_contra hlt
  have hs : 2 * s ≤ t := by omega
  have hmul : (n + 2) * (2 * s) ≤ (n + 2) * t := Nat.mul_le_mul_left _ hs
  have hsum : (n + 2) * (2 * s) = 2 * ((n + 2) * s) := by ring
  have hsplit : (n + 2 - 1) * t = n * t + t := by
    rw [show n + 2 - 1 = n + 1 by omega]
    ring
  have hdouble : (n + 2) * t = n * t + 2 * t := by ring
  omega

section Plans

variable {r : ResolvedLimits} {l : NativeLimits} {P : ℕ}

/-- A payload no longer than the target is one piece, whatever the threshold. -/
theorem shard_plan_of_short (ht : 0 < r.target_segment_bytes)
    (hmax : r.target_segment_bytes ≤ r.max_segment_bytes) (hshort : P ≤ r.target_segment_bytes) :
    r.shard_plan P = .ok ⟨1, P⟩ := by
  unfold ResolvedLimits.shard_plan plan
  by_cases hzero : P = 0
  · rw [if_pos hzero, hzero]
  · have hone : P ⌈/⌉ r.target_segment_bytes = 1 := by
      refine le_antisymm ?_ ?_
      · rwa [ceilDiv_le_iff_le_mul ht, Nat.mul_one]
      · exact (even_cut P _ (by omega) ht).1
    simp only [hone, ceilDiv_one]
    split_ifs <;> first | rfl | omega

/-- A longer one is in pieces unless the maximum admits it whole, and the threshold or the lower
bound asks for that. -/
theorem shard_plan_of_long (ht : 0 < r.target_segment_bytes)
    (hmax : r.target_segment_bytes ≤ r.max_segment_bytes) (hlong : r.target_segment_bytes < P) :
    r.shard_plan P = if P ≤ r.max_segment_bytes ∧ (P ≤ r.single_record_threshold_bytes ∨
        P ⌈/⌉ (P ⌈/⌉ r.target_segment_bytes) < r.min_segment_bytes)
      then .ok ⟨1, P⟩
      else .ok ⟨P ⌈/⌉ r.target_segment_bytes, P ⌈/⌉ (P ⌈/⌉ r.target_segment_bytes)⟩ := by
  obtain ⟨-, hle, -⟩ := even_cut P r.target_segment_bytes (by omega) ht
  unfold ResolvedLimits.shard_plan plan
  dsimp only
  split_ifs <;> first | rfl | omega

/-- The target decides what the native planner does. -/
theorem native_plan_of_long (hlong : l.target_segment_bytes < P) (hP : P < 2 ^ 32) :
    l.plan P
      = .ok ⟨P ⌈/⌉ l.target_segment_bytes, P ⌈/⌉ (P ⌈/⌉ l.target_segment_bytes)⟩ := by
  obtain ⟨hpos, hle, -⟩ := even_cut P l.target_segment_bytes (by omega) l.target_pos
  have hself := ceilDiv_le_self P l.target_pos
  have htarget := l.target_le
  have hdivisor : l.divisor P = P ⌈/⌉ l.target_segment_bytes := by
    rw [divisor_eq hlong (by omega), Nat.mod_eq_of_lt (by omega)]
  rw [plan_of_long hlong (by omega) (by omega), hdivisor, if_neg (by omega)]

/-- A plan of several pieces is for a payload longer than the target. -/
theorem target_lt_of_pieces (ht : 0 < r.target_segment_bytes) {pl : ShardPlan}
    (hpl : r.shard_plan P = .ok pl) (hn : pl.nseg ≠ 1) :
    r.target_segment_bytes ≤ r.max_segment_bytes ∧ r.target_segment_bytes < P ∧
      pl = ⟨P ⌈/⌉ r.target_segment_bytes, P ⌈/⌉ (P ⌈/⌉ r.target_segment_bytes)⟩ := by
  have hmax : r.target_segment_bytes ≤ r.max_segment_bytes := by
    by_contra hlt
    have hP : 0 < P := by
      rcases Nat.eq_zero_or_pos P with hzero | hpos
      · rw [hzero] at hpl
        cases hpl
        exact absurd rfl hn
      · exact hpos
    obtain ⟨e, he⟩ := (plan_raises_iff ht P r.max_segment_bytes r.min_segment_bytes
      r.single_record_threshold_bytes).mpr ⟨hP, by omega⟩
    cases he.symm.trans hpl
  have hlong : r.target_segment_bytes < P := by
    by_contra hge
    rw [shard_plan_of_short ht hmax (by omega)] at hpl
    cases hpl
    exact hn rfl
  rw [shard_plan_of_long ht hmax hlong] at hpl
  split_ifs at hpl
  · cases hpl
    exact absurd rfl hn
  · exact ⟨hmax, hlong, (Except.ok.inj hpl).symm⟩

theorem native_target_lt_of_pieces (hP : P < 2 ^ 32) {pl : ShardPlan} (hpl : l.plan P = .ok pl)
    (hn : pl.nseg ≠ 1) :
    l.target_segment_bytes < P ∧
      pl = ⟨P ⌈/⌉ l.target_segment_bytes, P ⌈/⌉ (P ⌈/⌉ l.target_segment_bytes)⟩ := by
  have hlong : l.target_segment_bytes < P := by
    by_contra hge
    rw [plan_of_short (by omega)] at hpl
    cases hpl
    exact hn rfl
  rw [native_plan_of_long hlong hP] at hpl
  exact ⟨hlong, (Except.ok.inj hpl).symm⟩

/-! ## Targets that differ -/

/-- One byte more than a multiple of the smaller of two targets takes more pieces of it. -/
theorem ceilDiv_ne_of_lt {t t' n : ℕ} (ht : 0 < t) (hlt : t < t') (hn : 0 < n) :
    (n * t + 1) ⌈/⌉ t ≠ (n * t + 1) ⌈/⌉ t' := by
  have hmul : n * (t + 1) ≤ n * t' := Nat.mul_le_mul_left n hlt
  rw [Nat.mul_add, Nat.mul_one] at hmul
  have hfew : (n * t + 1) ⌈/⌉ t' ≤ n := by
    rw [ceilDiv_le_iff_le_mul (by omega), Nat.mul_comm t']
    omega
  have hmany : ¬ (n * t + 1) ⌈/⌉ t ≤ n := by
    rw [ceilDiv_le_iff_le_mul ht, Nat.mul_comm t]
    omega
  omega

/-- **Two targets tell in some payload** that is longer than the maximum. -/
theorem exists_ceilDiv_ne {t t' m : ℕ} (ht : 0 < t) (ht' : 0 < t') (hne : t ≠ t')
    (hm : t ≤ m) (hm' : t' ≤ m) :
    ∃ P, m < P ∧ P ≤ 2 * m + 1 ∧ P ⌈/⌉ t ≠ P ⌈/⌉ t' := by
  -- the next multiple of the smaller of the two
  have hnext : ∀ s, 0 < s → s ≤ m → m < (m / s + 1) * s + 1 ∧ (m / s + 1) * s + 1 ≤ 2 * m + 1 := by
    intro s hs hsm
    have hdivision := Nat.div_add_mod m s
    have hmod := Nat.mod_lt m hs
    have hmul : (m / s + 1) * s = s * (m / s) + s := by ring
    omega
  rcases Nat.lt_or_gt_of_ne hne with hlt | hgt
  · obtain ⟨hlow, hhigh⟩ := hnext t ht hm
    exact ⟨_, hlow, hhigh, ceilDiv_ne_of_lt ht hlt (Nat.succ_pos _)⟩
  · obtain ⟨hlow, hhigh⟩ := hnext t' ht' hm'
    exact ⟨_, hlow, hhigh, (ceilDiv_ne_of_lt ht' hgt (Nat.succ_pos _)).symm⟩

/-- A payload one byte longer than a target is in two pieces of it. -/
theorem ceilDiv_succ_self {t : ℕ} (ht : 0 < t) : (t + 1) ⌈/⌉ t = 2 := by
  refine le_antisymm ?_ (two_le_ceilDiv ht (Nat.lt_succ_self t))
  rw [ceilDiv_le_iff_le_mul ht]
  omega

/-- **Two targets tell in some payload** that is longer than both and than the bound of the one,
and not much longer than the other. -/
theorem exists_ceilDiv_ne_of_le {t t' B : ℕ} (ht : 0 < t) (ht' : 0 < t') (hne : t ≠ t')
    (htB : t ≤ B) : ∃ P, B < P ∧ t' < P ∧ P ≤ max (4 * B) t' + 1 ∧ P ⌈/⌉ t ≠ P ⌈/⌉ t' := by
  rcases Nat.lt_or_ge (2 * B) t' with hfar | hnear
  · -- two pieces of the far longer one, more of the other
    have hmany : ¬ (t' + 1) ⌈/⌉ t ≤ 2 := by
      rw [ceilDiv_le_iff_le_mul ht]
      omega
    refine ⟨t' + 1, by omega, Nat.lt_succ_self t', by omega, ?_⟩
    rw [ceilDiv_succ_self ht']
    omega
  · obtain ⟨P, hlow, hhigh, hdiffer⟩ := exists_ceilDiv_ne (m := max B t') ht ht' hne
      (le_trans htB (le_max_left B t')) (le_max_right B t')
    exact ⟨P, by omega, by omega, by omega, hdiffer⟩

/-- **When the pieces agree.**  A native target that no payload exceeds cuts nothing. -/
theorem pieces_alike_iff {B : ℕ} (ht : 0 < r.target_segment_bytes)
    (hmax : r.max_segment_bytes ≤ B) (hB : 4 * B + 1 < 2 ^ 32) :
    (∀ P < 2 ^ 32, PiecesAlike r l P) ↔
      r.max_segment_bytes < r.target_segment_bytes ∨
        r.target_segment_bytes = l.target_segment_bytes ∨
        2 ^ 32 ≤ l.target_segment_bytes + 1 := by
  constructor
  · intro hall
    by_contra hnot
    obtain ⟨hle, hnot⟩ := not_or.mp hnot
    obtain ⟨hne, hsmall⟩ := not_or.mp hnot
    obtain ⟨P, hlow, hlong, hhigh, hdiffer⟩ := exists_ceilDiv_ne_of_le ht l.target_pos hne
      (show r.target_segment_bytes ≤ B by omega)
    have hP : P < 2 ^ 32 := by omega
    have hplan := shard_plan_of_long ht (by omega) (show r.target_segment_bytes < P by omega)
    rw [if_neg fun h => by omega] at hplan
    have hnplan := native_plan_of_long hlong hP
    have htwo := two_le_ceilDiv ht (show r.target_segment_bytes < P by omega)
    have htwo' := two_le_ceilDiv l.target_pos hlong
    have heq := hall P hP _ _ hplan hnplan (by dsimp only; omega) (by dsimp only; omega)
    exact hdiffer (congrArg ShardPlan.nseg heq)
  · intro hcond P hP pl pl' hpl hpl' hn hn'
    obtain ⟨hle, -, hpl⟩ := target_lt_of_pieces ht hpl hn
    obtain ⟨hlong, hpl'⟩ := native_target_lt_of_pieces hP hpl' hn'
    have heq : r.target_segment_bytes = l.target_segment_bytes := by omega
    rw [hpl, hpl', heq]

/-- **When the planners agree.** -/
theorem cut_alike_iff {B : ℕ} (ht : 0 < r.target_segment_bytes)
    (hmax : r.max_segment_bytes ≤ B) (hB : 4 * B + 1 < 2 ^ 32) :
    (∀ P < 2 ^ 32, CutAlike r l P) ↔
      r.target_segment_bytes = l.target_segment_bytes ∧
        r.target_segment_bytes ≤ r.max_segment_bytes ∧
        (r.target_segment_bytes < r.max_segment_bytes →
          r.single_record_threshold_bytes ≤ r.target_segment_bytes ∧
          r.min_segment_bytes ≤ (r.target_segment_bytes + 2) / 2) := by
  constructor
  · intro hall
    -- the native planner refuses no payload of one byte
    have hle : r.target_segment_bytes ≤ r.max_segment_bytes := by
      by_contra hlt
      obtain ⟨e, he⟩ := (plan_raises_iff ht 1 r.max_segment_bytes r.min_segment_bytes
        r.single_record_threshold_bytes).mpr ⟨Nat.one_pos, by omega⟩
      have hone := (hall 1 (by norm_num) _).mpr (plan_of_short l.target_pos)
      cases hone.symm.trans he
    have heq : r.target_segment_bytes = l.target_segment_bytes := by
      refine ((pieces_alike_iff ht hmax hB).mp fun P hP => (hall P hP).pieces).elim
        (fun hlt => absurd hle (not_le.mpr hlt))
        fun hpieces => hpieces.resolve_right fun hhuge => ?_
      -- a payload above the maximum is in pieces, but not of the native planner
      have hplan := shard_plan_of_long ht hle
        (show r.target_segment_bytes < r.max_segment_bytes + 1 by omega)
      rw [if_neg fun h => by omega] at hplan
      have hone := (hall _ (show r.max_segment_bytes + 1 < 2 ^ 32 by omega) _).mp hplan
      rw [plan_of_short (show r.max_segment_bytes + 1 ≤ l.target_segment_bytes by omega),
        Except.ok.injEq, ShardPlan.mk.injEq] at hone
      have htwo := two_le_ceilDiv ht
        (show r.target_segment_bytes < r.max_segment_bytes + 1 by omega)
      omega
    refine ⟨heq, hle, fun hlt => ?_⟩
    -- one byte more than the target
    have hcount := ceilDiv_succ_self ht
    have hplan := shard_plan_of_long ht hle (Nat.lt_succ_self r.target_segment_bytes)
    have hnplan := native_plan_of_long (l := l) (P := r.target_segment_bytes + 1) (by omega)
      (by omega)
    have hboth := (hall _ (by omega) _).mpr hnplan
    rw [hplan, ← heq, hcount] at hboth
    have hseg : (r.target_segment_bytes + 1) ⌈/⌉ 2 = (r.target_segment_bytes + 2) / 2 := by
      rw [Nat.ceilDiv_eq_add_pred_div]
      omega
    rw [Nat.succ_eq_add_one, hseg] at hboth
    split_ifs at hboth with hwhole
    · cases hboth
    · constructor
      · by_contra hgt
        exact hwhole ⟨by omega, .inl (by omega)⟩
      · by_contra hgt
        exact hwhole ⟨by omega, .inr (by omega)⟩
  · rintro ⟨heq, hle, hpieces⟩ P hP pl
    rcases Nat.lt_or_ge r.target_segment_bytes P with hlong | hshort
    · have hhalf := half_target_le ht hlong
      suffices hpieces : ¬ (P ≤ r.max_segment_bytes ∧ (P ≤ r.single_record_threshold_bytes ∨
          P ⌈/⌉ (P ⌈/⌉ r.target_segment_bytes) < r.min_segment_bytes)) by
        rw [shard_plan_of_long ht hle hlong, native_plan_of_long (by omega) hP, ← heq,
          if_neg hpieces, Except.ok.injEq, Except.ok.injEq]
      rintro ⟨hwhole, hasks⟩
      obtain ⟨hthreshold, hmin⟩ := hpieces (by omega)
      omega
    · have hnative : l.plan P = .ok ⟨1, P⟩ := plan_of_short (by omega)
      rw [shard_plan_of_short ht hle hshort, hnative, Except.ok.injEq, Except.ok.injEq]

end Plans

/-! ## Clients of one namespace -/

/-- The limits of a connector come from its own cap, given or discovered. -/
theorem constructor_limits_eq {target_segment_bytes max_record_bytes : ℕ}
    {info : Except AxError Text} {l : NativeLimits}
    (hl : constructor_limits target_segment_bytes max_record_bytes info = .ok l) :
    ∃ cap, (if max_record_bytes = 0 then discover_record_cap info else .ok max_record_bytes)
        = .ok cap ∧ l.target_segment_bytes = native_target target_segment_bytes cap := by
  obtain ⟨cap, hcap, hlimits⟩ : ∃ cap,
      (if max_record_bytes = 0 then discover_record_cap info else .ok max_record_bytes) = .ok cap ∧
        (native_limits target_segment_bytes cap).mapError CxxExc.runtime = .ok l := by
    unfold constructor_limits at hl
    split_ifs at hl ⊢
    · exact bind_ok_iff.mp hl
    · exact ⟨_, rfl, hl⟩
  refine ⟨cap, hcap, ?_⟩
  cases hnative : native_limits target_segment_bytes cap with
  | error e =>
    rw [hnative] at hlimits
    cases hlimits
  | ok limits =>
    rw [hnative] at hlimits
    cases hlimits
    exact (native_limits_eq hnative).1

/-- **When a Python engine and a native connector of one namespace agree**, as they are
configured: on every payload, and on the pieces of those that both cut.  The connector has the
cap that it is given, or else the one that it reads in the response by itself. -/
theorem planners_agree_iff {extra_config : Option PyDict} {plugin_name : Text}
    {config_pre : Option Text} {cfg : AerospikeConfig} {response : Text} {server : ServerLimits}
    {r : ResolvedLimits} {target_segment_bytes max_record_bytes : ℕ} {l : NativeLimits}
    (hcfg : from_extra_config extra_config plugin_name config_pre = .ok cfg)
    (hserver : discover_limits (.ok response) cfg.ns = .ok server)
    (hr : resolve_segment_limits cfg server = .ok r)
    (hl : constructor_limits target_segment_bytes max_record_bytes (.ok response) = .ok l) :
    ∃ cap, (if max_record_bytes = 0 then discover_record_cap (.ok response)
        else .ok max_record_bytes) = .ok cap ∧
      ((∀ P < 2 ^ 32, CutAlike r l P) ↔
        target_segment cfg server = native_target target_segment_bytes cap ∧
        target_segment cfg server ≤ max_segment cfg server ∧
        (target_segment cfg server < max_segment cfg server →
          single_threshold cfg server ≤ target_segment cfg server ∧
          2 * cfg.min_segment_bytes ≤ target_segment cfg server + 2)) ∧
      ((∀ P < 2 ^ 32, PiecesAlike r l P) ↔
        max_segment cfg server < target_segment cfg server ∨
          target_segment cfg server = native_target target_segment_bytes cap ∨
          2 ^ 32 ≤ native_target target_segment_bytes cap + 1) := by
  obtain ⟨cap, hcap, htarget⟩ := constructor_limits_eq hl
  refine ⟨cap, hcap, ?_⟩
  have hpositive := from_extra_config_positive hcfg
  obtain ⟨hlow, hhigh⟩ := discovered_range hserver
  have hclamps := resolved_clamps hpositive hlow hr
  have hmin := hpositive.min
  -- the cap of the server bounds the Python side
  have hmax : max_segment cfg server ≤ server.effective_max := min_le_right _ _
  unfold ServerLimits.effective_max SAFETY_MARGIN_BYTES at hmax
  unfold MAX_RECORD_BYTES at hhigh
  have hthreshold : (r.single_record_threshold_bytes : ℤ) = single_threshold cfg server ∧
      (r.min_segment_bytes : ℤ) = cfg.min_segment_bytes := by
    have hpos := hclamps.threshold_pos
    unfold resolve_segment_limits at hr
    split_ifs at hr
    cases hr
    dsimp only at hpos ⊢
    omega
  rw [← hclamps.max] at hmax
  rw [cut_alike_iff (B := 8388608) hclamps.target_pos (by omega) (by norm_num),
    pieces_alike_iff (B := 8388608) hclamps.target_pos (by omega) (by norm_num),
    ← hclamps.max, ← hclamps.target, ← hthreshold.1, ← hthreshold.2, htarget]
  omega

/-- The default configuration with one host. -/
def defaultDict : PyDict := fun key =>
  if key = "remote_storage_plugin.aerospike.hosts".toList then some (.str "db:3000".toList)
  else none

def defaultConfig : AerospikeConfig where
  plugin_name := "aerospike".toList
  hosts := [("db".toList, 3000)]

set_option maxRecDepth 20000 in
theorem defaultDict_accepted :
    from_extra_config (some defaultDict) "aerospike".toList none = .ok defaultConfig := rfl

/-- **The defaults disagree** on a namespace with the largest record size: there the native
target is the cap. -/
theorem planners_agree_iff_default :
    ∃ r l, resolve_segment_limits defaultConfig ⟨8388608, "max-record-size", 120⟩ = .ok r ∧
      constructor_limits 0 0 (.ok namespaceInfo) = .ok l ∧
      ¬ ∀ P < 2 ^ 32, PiecesAlike r l P := by
  obtain ⟨l, hl⟩ := native_limits_ok 0 (show kSafetyMarginBytes < 8388608 by decide)
  have hr : resolve_segment_limits defaultConfig ⟨8388608, "max-record-size", 120⟩
      = .ok ⟨8388608, 8323072, 8323072, 4194304, 4194304, 65536⟩ := by decide
  have hcap : discover_record_cap (.ok namespaceInfo) = .ok 8388608 := by decide
  have hlimits : constructor_limits 0 0 (.ok namespaceInfo) = .ok l := by
    unfold constructor_limits
    rw [if_pos rfl, hcap]
    exact congrArg (Except.mapError CxxExc.runtime) hl
  obtain ⟨cap, hdiscovered, -, hagree⟩ :=
    planners_agree_iff defaultDict_accepted namespaceInfo_accepted hr hlimits
  rw [if_pos rfl, hcap] at hdiscovered
  cases hdiscovered
  refine ⟨_, l, hr, hlimits, ?_⟩
  rw [hagree]
  decide
