/-
# What a pin protects

A record expires on its own clock, and the data of a key is spread over several records.
`pin_keys` renews the meta record alone, and renews it to `t + pin_ttl` whatever it had before.
So the data of a pinned key is there until the pin expires exactly when its segments are, and a
record that was to live longer than the pin loses time (`pin_protects_iff`).
-/
import Mathlib.Data.Int.ConditionallyCompleteOrder
import Mathlib.Order.WithBot
import LmcacheAerospike.EngineRuns
import LmcacheAerospike.RoundTrip

/-! ## Expiry -/

/-- When a TTL that was asked for at `written_at` runs out; `-1` is never. -/
def expiryOf (written_at : ℕ) (ttl : ℤ) : WithTop ℤ :=
  if ttl = -1 then ⊤ else ((written_at + ttl : ℤ) : WithTop ℤ)

/-- When the record expires: its last write asked for it. -/
def Record.expiry (r : Record) : WithTop ℤ := expiryOf r.written_at r.ttl

/-- The record is still there at the time `u`. -/
def Record.live (r : Record) (u : ℕ) : Bool :=
  decide (r.ttl = -1 ∨ (u : ℤ) < r.written_at + r.ttl)

theorem lt_expiryOf_iff (written_at u : ℕ) (ttl : ℤ) :
    ((u : ℤ) : WithTop ℤ) < expiryOf written_at ttl ↔ ttl = -1 ∨ (u : ℤ) < written_at + ttl := by
  unfold expiryOf
  by_cases h : ttl = -1
  · rw [if_pos h]
    exact iff_of_true (WithTop.coe_lt_top _) (Or.inl h)
  · rw [if_neg h, WithTop.coe_lt_coe]
    exact (or_iff_right h).symm

theorem Record.live_iff (r : Record) (u : ℕ) :
    r.live u = true ↔ ((u : ℤ) : WithTop ℤ) < r.expiry := by
  rw [Record.live, decide_eq_true_iff, Record.expiry, lt_expiryOf_iff]

/-- **Being there as long as**: a record that is live at `t` is live until `e` if and only if
it does not expire before. -/
theorem le_expiry_iff {r : Record} {t : ℕ} (hlive : r.live t = true) (written_at : ℕ) (ttl : ℤ) :
    expiryOf written_at ttl ≤ r.expiry ↔
      ∀ u : ℕ, t ≤ u → ((u : ℤ) : WithTop ℤ) < expiryOf written_at ttl → r.live u = true := by
  constructor
  · intro hle u _ hu
    rw [Record.live_iff]
    exact lt_of_lt_of_le hu hle
  · intro hall
    by_contra hnot
    rw [not_le] at hnot
    rw [Record.live_iff] at hlive
    -- the record would have to be live at its own expiry
    cases he : r.expiry with
    | top =>
      rw [he] at hnot
      exact absurd hnot not_top_lt
    | coe e =>
      rw [he] at hnot hlive
      rw [WithTop.coe_lt_coe] at hlive
      obtain ⟨u, rfl⟩ := Int.eq_ofNat_of_zero_le (show 0 ≤ e by omega)
      have hu := hall u (by omega) hnot
      rw [Record.live_iff, he] at hu
      exact absurd hu (lt_irrefl _)

/-- The store as it is seen at the time `u`: what has expired is gone. -/
def World.at_ (w : World) (u : ℕ) : World where
  records := fun key => (w.records key).filter fun r => r.live u
  now := u
  ref_downs := w.ref_downs

/-! ## The records that serve a key -/

/-- The keys of the records that a `get` needs when there are `nseg` pieces. -/
def Needed (ns set_name ck : Text) (nseg : ℕ) (key : Key) : Prop :=
  key = meta_key ns set_name ck ∨ nseg ≠ 1 ∧ ∃ i, i < nseg ∧ key = segment_key ns set_name ck i

/-- The key belongs to the logical key: its meta key or any of its segment keys. -/
def OfLogicalKey (ns set_name ck : Text) (key : Key) : Prop :=
  key = meta_key ns set_name ck ∨ ∃ i, key = segment_key ns set_name ck i

/-- All records that serve the key are live at the time `u`. -/
def World.LiveAt (w : World) (ns set_name ck : Text) (nseg u : ℕ) : Prop :=
  ∀ key r, Needed ns set_name ck nseg key → w.records key = some r → r.live u = true

/-- What is held by records that are live is held by what is seen of them. -/
theorem World.Holds.at_live {w v : World} {ns set_name ck : Text} {pieces : List Bytes}
    {bins : Bins} {u : ℕ} (h : w.Holds ns set_name ck pieces bins)
    (hlive : w.LiveAt ns set_name ck pieces.length u)
    (hsee : ∀ key, OfLogicalKey ns set_name ck key → v.records key = (w.at_ u).records key) :
    v.Holds ns set_name ck pieces bins := by
  have hsame : ∀ key r, Needed ns set_name ck pieces.length key →
      OfLogicalKey ns set_name ck key → w.records key = some r →
      v.records key = w.records key := by
    intro key r hneeded hof hr
    rw [hsee key hof, hr]
    show (w.records key).filter _ = some r
    rw [hr, Option.filter_some, if_pos (hlive key r hneeded hr)]
  refine h.congr ?_ fun hn i hi => ?_
  · obtain ⟨r, hr, -⟩ := h.found
    exact hsame _ r (Or.inl rfl) (Or.inl rfl) hr
  · obtain ⟨r, hr, -⟩ := h.segment hn i hi
    exact hsame _ r (Or.inr ⟨hn, i, hi, rfl⟩) (Or.inr ⟨i, rfl⟩) hr

/-! ## The pin -/

section Pin

variable {eng : Engine} {ck : Text} {w w' : World}

/-- When a pin that is set on `w` expires. -/
def Engine.pinExpiry (eng : Engine) (w : World) : WithTop ℤ := expiryOf w.now eng.pin_ttl

/-- A pin writes the meta record. -/
theorem afterPins_meta {r : Record} (hr : w.records (eng.metaKey ck) = some r) :
    ∃ r', (eng.afterPins [ck] w).records (eng.metaKey ck) = some r' ∧
      r'.expiry = eng.pinExpiry w ∧ ∀ n, n ≠ .pin → r'.bins n = r.bins n := by
  refine ⟨(eng.pin_write ck true eng.pin_ttl).applyTo w.now (some r), ?_, rfl, ?_⟩
  · show (w.applyWrite (eng.pin_write ck true eng.pin_ttl)).records _ = _
    rw [← hr]
    exact World.applyWrite_self ..
  · intro n hn
    exact pin_write_of_ne hn

/-- A pin touches no other record. -/
theorem afterPins_of_ne {key : Key} (h : key ≠ eng.metaKey ck) :
    (eng.afterPins [ck] w).records key = w.records key :=
  World.applyWrite_of_ne w h

/-- What a key holds it holds after the pin. -/
theorem World.Holds.afterPins {pieces : List Bytes} {bins : Bins}
    (h : w.Holds eng.cfg.ns eng.cfg.set_name ck pieces bins) :
    ∃ bins', (eng.afterPins [ck] w).Holds eng.cfg.ns eng.cfg.set_name ck pieces bins' ∧
      ∀ n, n ≠ .pin → bins' n = bins n := by
  obtain ⟨r, hr, rfl⟩ := h.found
  obtain ⟨r', hr', -, hbins⟩ := afterPins_meta hr
  refine ⟨r'.bins, ⟨⟨r', hr', rfl⟩, ?_, ?_, ?_, ?_⟩, hbins⟩
  · rw [hbins _ (by decide)]
    exact h.state
  · rw [hbins _ (by decide)]
    exact h.nseg
  · rw [hbins _ (by decide)]
    exact h.inline
  · intro hn i hi
    rw [afterPins_of_ne (meta_key_ne_segment_key _ _ _ _ _ _ _).symm]
    exact h.segment hn i hi

/-! ## The promise -/

/-- **The promise of a pin** that took the store from `w` to `w'`, for a key that holds the
pieces: the records that serve it are live until the pin expires, every `get` before that is a
hit, and no record of the key expires earlier than it was to. -/
structure Engine.Protects (eng : Engine) (ck : Text) (pieces : List Bytes) (w w' : World) :
    Prop where
  live : ∀ u : ℕ, w.now ≤ u → ((u : ℤ) : WithTop ℤ) < eng.pinExpiry w →
    w'.LiveAt eng.cfg.ns eng.cfg.set_name ck pieces.length u
  hit : ∀ u : ℕ, w.now ≤ u → ((u : ℤ) : WithTop ℤ) < eng.pinExpiry w → ∀ v : World,
    (∀ key, OfLogicalKey eng.cfg.ns eng.cfg.set_name ck key →
      v.records key = (w'.at_ u).records key) →
    ∀ (preallocated : Option MemoryObj) (buf : MemoryObj) (expect_reshape : Bool),
      (∀ r, v.records (eng.metaKey ck) = some r →
        eng.receive_buffer r.bins preallocated = .ok (some buf, expect_reshape)) →
      eng.Receives buf pieces → pieces.flatten.length ≤ buf.byte_array.length →
      (expect_reshape = true → ∃ shaped,
        eng.reshape (buf.filledWith pieces.flatten) pieces.flatten.length = .ok shaped ∧
          shaped.byte_array.take pieces.flatten.length = pieces.flatten) →
      ∃ hit, (eng.get ck preallocated).run Op.perform v = (.ok (some hit), v) ∧
        hit.Fills buf pieces.flatten
  not_forward : ∀ key r, OfLogicalKey eng.cfg.ns eng.cfg.set_name ck key →
    w.records key = some r → ∃ r', w'.records key = some r' ∧ r.expiry ≤ r'.expiry

/-- **The condition**: no segment that serves the key expires before the pin, and the meta
record was not to live longer than the pin. -/
structure Engine.PinSuffices (eng : Engine) (ck : Text) (nseg : ℕ) (w : World) : Prop where
  segments : nseg ≠ 1 → ∀ i r, i < nseg → w.records (eng.segmentKey ck i) = some r →
    eng.pinExpiry w ≤ r.expiry
  meta_record : ∀ r, w.records (eng.metaKey ck) = some r → r.expiry ≤ eng.pinExpiry w

/-- The segments that a pin is to protect are live until it expires only if they expire no
earlier. -/
theorem Engine.PinSuffices.of_live {nseg : ℕ}
    (hlive : w.LiveAt eng.cfg.ns eng.cfg.set_name ck nseg w.now)
    (huntil : ∀ u : ℕ, w.now ≤ u → ((u : ℤ) : WithTop ℤ) < eng.pinExpiry w →
      (eng.afterPins [ck] w).LiveAt eng.cfg.ns eng.cfg.set_name ck nseg u)
    (hforward : ∀ r, w.records (eng.metaKey ck) = some r → r.expiry ≤ eng.pinExpiry w) :
    eng.PinSuffices ck nseg w where
  segments := fun hn i r hi hr => by
    have hneeded : Needed eng.cfg.ns eng.cfg.set_name ck nseg (eng.segmentKey ck i) :=
      Or.inr ⟨hn, i, hi, rfl⟩
    refine (le_expiry_iff (hlive _ r hneeded hr) _ _).mpr fun u hu hpin => ?_
    refine huntil u hu hpin _ r hneeded ?_
    rwa [afterPins_of_ne (meta_key_ne_segment_key _ _ _ _ _ _ _).symm]
  meta_record := hforward

/-- The records that serve the key are live until the pin expires. -/
theorem Engine.PinSuffices.live {nseg : ℕ} (h : eng.PinSuffices ck nseg w)
    (hlive : w.LiveAt eng.cfg.ns eng.cfg.set_name ck nseg w.now) {r : Record}
    (hr : w.records (eng.metaKey ck) = some r) {u : ℕ} (hu : w.now ≤ u)
    (hpin : ((u : ℤ) : WithTop ℤ) < eng.pinExpiry w) :
    (eng.afterPins [ck] w).LiveAt eng.cfg.ns eng.cfg.set_name ck nseg u := by
  intro key r₁ hneeded hr₁
  rcases hneeded with rfl | ⟨hn, i, hi, rfl⟩
  · obtain ⟨r', hr', hexpiry, -⟩ := afterPins_meta hr
    obtain rfl : r₁ = r' := Option.some.inj (hr₁.symm.trans hr')
    rw [Record.live_iff, hexpiry]
    exact hpin
  · rw [afterPins_of_ne (meta_key_ne_segment_key _ _ _ _ _ _ _).symm] at hr₁
    have hneeded : Needed eng.cfg.ns eng.cfg.set_name ck nseg (eng.segmentKey ck i) :=
      Or.inr ⟨hn, i, hi, rfl⟩
    exact (le_expiry_iff (hlive _ r₁ hneeded hr₁) _ _).mp (h.segments hn i r₁ hi hr₁) u hu hpin

end Pin

/-- **When a pin protects the data.**  A key whose pieces are all stored and live is pinned:
the promise of the pin is kept if and only if no segment that serves the key expires before the
pin, and the meta record was not to live longer than it. -/
theorem pin_protects_iff (eng : Engine) (ck : Text) (pieces : List Bytes) (bins : Bins)
    (w w' : World) (hholds : w.Holds eng.cfg.ns eng.cfg.set_name ck pieces bins)
    (hcrc : eng.cfg.enable_crc32 = true → bins .crc32 = some (.int (crc32 pieces.flatten)))
    (hlive : w.LiveAt eng.cfg.ns eng.cfg.set_name ck pieces.length w.now)
    (hrun : (eng.pin_keys [ck]).run Op.perform w = (.ok (), w')) :
    eng.Protects ck pieces w w' ↔ eng.PinSuffices ck pieces.length w := by
  rw [run_pin_keys] at hrun
  cases hrun
  obtain ⟨r, hr, rfl⟩ := hholds.found
  obtain ⟨r', hr', hexpiry, -⟩ := afterPins_meta hr
  constructor
  · intro h
    refine .of_live hlive h.live fun r₁ hr₁ => ?_
    obtain ⟨r₂, hr₂, hle⟩ := h.not_forward (eng.metaKey ck) r₁ (Or.inl rfl) hr₁
    obtain rfl : r₂ = r' := Option.some.inj (hr₂.symm.trans hr')
    rwa [hexpiry] at hle
  · intro h
    refine ⟨fun u hu hpin => h.live hlive hr hu hpin, ?_, ?_⟩
    · intro u hu hpin v hsee preallocated buf expect_reshape hbuf hrec hroom hshape
      obtain ⟨bins', hholds', hbins⟩ := hholds.afterPins
      have hseen := hholds'.at_live (h.live hlive hr hu hpin) hsee
      obtain ⟨rv, hrv, hrvbins⟩ := hseen.found
      refine run_get_hit hseen (hrvbins ▸ hbuf rv hrv) hrec ?_
        (by rwa [List.take_of_length_le hroom])
      rw [crc_matches_iff _ _ hroom]
      intro hc expected hexpected
      rw [hbins _ (by decide), hcrc hc] at hexpected
      cases hexpected
      rw [pyEqInt_crc32]
    · intro key r₁ hof hr₁
      by_cases hkey : key = eng.metaKey ck
      · subst hkey
        exact ⟨r', hr', by rw [hexpiry]; exact h.meta_record r₁ hr₁⟩
      · exact ⟨r₁, by rw [afterPins_of_ne hkey, hr₁], le_refl _⟩

/-! ## Two keys that a pin does not protect, and two that it does -/

/-- The store after a put into the empty one. -/
def storedWith (payload : Bytes) (pinned : Bool) : World :=
  ((shortSegments.put "k".toList { byte_array := payload } pinned).run Op.perform World.empty).2

/-- Three bytes are put in two segments. -/
theorem holds_segments (pinned : Bool) : ∃ bins, (storedWith [1, 2, 3] pinned).Holds
    shortSegments.cfg.ns shortSegments.cfg.set_name "k".toList [[1, 2], [3]] bins := by
  refine ⟨_, ⟨_, rfl, rfl⟩, rfl, rfl, fun hn => absurd hn (by decide), fun _ i hi => ?_⟩
  rcases i with _ | _ | i
  · exact ⟨_, rfl, rfl⟩
  · exact ⟨_, rfl, rfl⟩
  · exact absurd hi (by simp)

/-- An inline payload that was put with the default TTL is pinned.  And three bytes in two
segments that were put to live for ever are pinned twice: the second pin protects them, since the
first one has left the segments alone. -/
theorem pin_protects_stored :
    shortSegments.Protects "k".toList [[1, 2]] (storedWith [1, 2] false)
        (shortSegments.afterPins ["k".toList] (storedWith [1, 2] false)) ∧
      shortSegments.Protects "k".toList [[1, 2], [3]]
        (shortSegments.afterPins ["k".toList] (storedWith [1, 2, 3] true))
        (shortSegments.afterPins ["k".toList]
          (shortSegments.afterPins ["k".toList] (storedWith [1, 2, 3] true))) := by
  constructor
  · have hholds : (storedWith [1, 2] false).Holds shortSegments.cfg.ns shortSegments.cfg.set_name
        "k".toList [[1, 2]] _ :=
      ⟨⟨_, rfl, rfl⟩, rfl, rfl, fun _ => rfl, fun hn => absurd rfl hn⟩
    refine (pin_protects_iff _ _ _ _ _ _ hholds (fun hc => by cases hc) ?_
      (run_pin_keys shortSegments _ _)).mpr ⟨fun hn => absurd rfl hn, ?_⟩
    · rintro key r (rfl | ⟨hn, -⟩) hr
      · cases hr
        rfl
      · exact absurd rfl hn
    · intro r hr
      cases hr
      exact WithTop.coe_le_coe.mpr (by decide)
  · obtain ⟨_, hput⟩ := holds_segments true
    obtain ⟨bins, hholds, -⟩ := hput.afterPins
    refine (pin_protects_iff _ _ _ bins _ _ hholds (fun hc => by cases hc) ?_
      (run_pin_keys shortSegments _ _)).mpr ⟨fun _ i r hi hr => ?_, fun r hr => ?_⟩
    · rintro key r (rfl | ⟨-, i, hi, rfl⟩) hr
      · cases hr
        rfl
      · rcases i with _ | _ | i
        · cases hr
          rfl
        · cases hr
          rfl
        · exact absurd hi (by simp)
    · rcases i with _ | _ | i
      · cases hr
        exact le_top
      · cases hr
        exact le_top
      · exact absurd hi (by simp)
    · cases hr
      exact WithTop.coe_le_coe.mpr (by decide)

/-- Three bytes in two segments, put with the default TTL and pinned: a day later the segments
are gone, the meta record is there, and `get` misses, a day before the pin expires.  And a key
that was put to live for ever is pinned: from then on it expires. -/
theorem pin_does_not_protect :
    (∃ bins, (storedWith [1, 2, 3] false).Holds shortSegments.cfg.ns shortSegments.cfg.set_name
        "k".toList [[1, 2], [3]] bins) ∧
      ((86400 : ℤ) : WithTop ℤ) < shortSegments.pinExpiry (storedWith [1, 2, 3] false) ∧
      ((shortSegments.get "k".toList none).run Op.perform
        ((shortSegments.afterPins ["k".toList] (storedWith [1, 2, 3] false)).at_ 86400)).1
          = .ok none ∧
      ¬ shortSegments.Protects "k".toList [[1, 2], [3]] (storedWith [1, 2, 3] false)
        (shortSegments.afterPins ["k".toList] (storedWith [1, 2, 3] false)) ∧
    (∃ bins, (storedWith [1] true).Holds shortSegments.cfg.ns shortSegments.cfg.set_name "k".toList
        [[1]] bins) ∧
      ¬ shortSegments.Protects "k".toList [[1]] (storedWith [1] true)
        (shortSegments.afterPins ["k".toList] (storedWith [1] true)) := by
  refine ⟨holds_segments false, WithTop.coe_lt_coe.mpr (by decide), rfl, ?_,
    ⟨_, ⟨_, rfl, rfl⟩, rfl, rfl, fun _ => rfl, fun hn => absurd rfl hn⟩, ?_⟩
  · intro h
    have hlive := h.live 86400 (by decide) (WithTop.coe_lt_coe.mpr (by decide))
      (shortSegments.segmentKey "k".toList 0) _ (Or.inr ⟨by decide, 0, by decide, rfl⟩) rfl
    cases hlive
  · intro h
    obtain ⟨r', hr', hle⟩ := h.not_forward (shortSegments.metaKey "k".toList) _ (Or.inl rfl) rfl
    cases hr'
    exact absurd hle (by decide)
