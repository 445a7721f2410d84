/-
# What the engine's writes leave behind

The bins of a record after each of the three writes that `engine.py` makes, over any
record that was there before.
-/
import LmcacheAerospike.EngineCalls

/-- The bins of a record, none of them set when there is no record. -/
def oldBins (old : Option Record) : Bins := old.elim (fun _ => none) Record.bins

section Writes

variable {eng : Engine} {ck : Text} {t : ℕ} {old : Option Record}

theorem applyTo_bins (w : Write) (t : ℕ) (old : Option Record) :
    (w.applyTo t old).bins = mergeBins w.ops (oldBins old) := rfl

/-- **The bins of a meta record after a put**, over whatever was there: the optional
bins that this engine does not write keep their old values. -/
theorem meta_write_bins (mo : MemoryObj) (p : ShardPlan) (pinned : Bool) (now : ℕ)
    (n : BinName) :
    ((eng.meta_write ck mo p pinned now).applyTo t old).bins n
      = match n with
        | .ver => some (.int 1)
        | .state => some (.str "ready")
        | .nseg => some (.int p.nseg)
        | .seg_b => some (.int p.seg_b)
        | .tot_b => some (.int mo.byte_array.length)
        | .created_at => some (.int now)
        | .pin => some (.bool pinned)
        | .md => if eng.metadata.save_chunk_meta
            then some (.blob (eng.serialize (build_remote_metadata mo))) else oldBins old .md
        | .b => if p.nseg = 1 then some (.blob mo.byte_array) else oldBins old .b
        | .crc32 => if eng.cfg.enable_crc32 then some (.int (crc32 mo.byte_array))
            else oldBins old .crc32
        | .other name => oldBins old (.other name) := by
  rw [applyTo_bins]
  exact mergeBins_meta_bins ..

/-- A segment record after its write carries its slice. -/
theorem segment_write_b {payload : Bytes} {seg_b : ℕ} {ttl : ℤ} {i : ℕ} :
    ((eng.segment_write ck payload seg_b ttl i).applyTo t old).bins .b
      = some (.blob (slice seg_b i payload)) := by
  rw [applyTo_bins, Engine.segment_write, mergeBins]
  split_ifs <;> simp [Function.update]

/-- A pin write changes no bin but `pin`. -/
theorem pin_write_of_ne {v : Bool} {ttl : ℤ} {n : BinName} (hn : n ≠ .pin) :
    ((eng.pin_write ck v ttl).applyTo t old).bins n = oldBins old n := by
  rw [applyTo_bins, Engine.pin_write, mergeBins]
  exact Function.update_of_ne hn ..

theorem pin_write_pin {v : Bool} {ttl : ℤ} :
    ((eng.pin_write ck v ttl).applyTo t old).bins .pin = some (.bool v) := by
  rw [applyTo_bins, Engine.pin_write, mergeBins]
  simp

end Writes
