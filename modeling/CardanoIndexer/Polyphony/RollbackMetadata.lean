import CardanoIndexer.Polyphony.Executors
import CardanoIndexer.Polyphony.RollbackBuffer

/-!
# The persisted rollback metadata

The inverse actions of a mutable block are stored in the same transaction as the block.
-/

namespace CardanoIndexer.Polyphony

open Timbre

def rollbackValue : StorageOp → Except WorkError Value
  | .set v => .ok v
  | .delete => .ok []
  -- inverse operation was not 'Set' or 'Delete'
  | _ => .error .panic

def operationIndex (idx : ℕ) : Except WorkError U64 :=
  if idx < 2 ^ 64 then .ok (BitVec.ofNat 64 idx) else .error .panic

def storageRbWrites (enc : KeyEncoder) (bSlot : U64) (bHash : Hash) :
    ℕ → List StorageAction → Except WorkError Writes
  | _, [] => .ok []
  | idx, action :: rest => do
    let operationIdx ← operationIndex idx
    let key := enc.encodeStorageRollbackMetadataKey bSlot bHash operationIdx action.key
    let value ← rollbackValue action.op
    let entries ← storageRbWrites enc bSlot bHash (idx + 1) rest
    return (key, some value) :: entries

def WorkTxn.writeTracked (work : WorkTxn) (paranoidMode : Bool) (ws : Writes) : WorkTxn :=
  ⟨work.txn.writeAll ws,
    if paranoidMode then work.pendingVerification.map (· ++ ws) else work.pendingVerification⟩

def applyStorageRbActions (enc : KeyEncoder) (paranoidMode : Bool) (work : WorkTxn)
    (inverseOps : List StorageAction) (bSlot : U64) (bHash : Hash) :
    Except WorkError WorkTxn := do
  let entries ← storageRbWrites enc bSlot bHash 0 inverseOps
  return work.writeTracked paranoidMode entries

def retainedSlots : ℕ := maxBufferLen * 20

def garbageCollectRollbackMetadata (enc : KeyEncoder) (work : WorkTxn) (bSlot : U64) :
    Except WorkError WorkTxn :=
  if retainedSlots ≤ bSlot.toNat then do
    let gcRange := enc.encodeRollbackMetadataRange none
      (some (bSlot - BitVec.ofNat 64 retainedSlots))
    let (txn, _) ← orRestart (work.txn.deleteRange gcRange.start gcRange.stop 1000)
    return { work with txn }
  else return work

def NextSlotFits (slot : U64) : Prop := slot.toNat + 1 < 2 ^ 64

instance (slot : U64) : Decidable (NextSlotFits slot) :=
  inferInstanceAs (Decidable (slot.toNat + 1 < 2 ^ 64))

def trimPersistentRollbackMetadata (enc : KeyEncoder) (paranoidMode : Bool) (work : WorkTxn)
    (afterSlot : U64) : Except WorkError WorkTxn := do
  let lower ← addOrPanic afterSlot 1
  let range := enc.encodeRollbackMetadataRange (some lower) none
  let (txn, keys) ← orRestart (work.txn.deleteRange range.start range.stop 100)
  return ⟨txn, if paranoidMode then
      work.pendingVerification.map (· ++ keys.map fun k => (k, none))
    else work.pendingVerification⟩

/-! ## Which keys they write -/

def InRollbackPlane (enc : KeyEncoder) (ws : Writes) : Prop :=
  ∀ w ∈ ws, enc.rollbackPrefix <+: w.1

variable {enc : KeyEncoder} {entries ws : Writes} {bSlot : U64} {work : WorkTxn} {bHash : Hash}
  {idx : ℕ}

theorem InRollbackPlane.append {ws' : Writes} (h : InRollbackPlane enc ws)
    (h' : InRollbackPlane enc ws') : InRollbackPlane enc (ws ++ ws') := fun w hw =>
  (List.mem_append.mp hw).elim (h w) (h' w)

theorem InRollbackPlane.lastWrite_eq_none (h : InRollbackPlane enc ws) {k : Key}
    (hk : ¬ enc.rollbackPrefix <+: k) : SortedMap.lastWrite k ws = none := by
  rw [SortedMap.lastWrite_eq_none_iff]
  intro hmem
  obtain ⟨w, hw, rfl⟩ := List.mem_map.mp hmem
  exact hk (h w hw)

variable {inverseOps : List StorageAction}

theorem storageRbWrites_keys (h : storageRbWrites enc bSlot bHash idx inverseOps = .ok entries) :
    ∀ entry ∈ entries, ∃ operationIdx key,
      entry.1 = enc.encodeStorageRollbackMetadataKey bSlot bHash operationIdx key := by
  induction inverseOps generalizing idx entries with
  | nil =>
    cases h
    exact fun entry hentry => nomatch hentry
  | cons action rest ih =>
    obtain ⟨operationIdx, -, h⟩ := Except.bind_eq_ok.mp h
    obtain ⟨value, -, h⟩ := Except.bind_eq_ok.mp h
    obtain ⟨entries', hentries', h⟩ := Except.bind_eq_ok.mp h
    cases h
    rintro entry (_ | ⟨_, hentry⟩)
    · exact ⟨_, _, rfl⟩
    · exact ih hentries' entry hentry

theorem inRollbackPlane_storageRbWrites
    (h : storageRbWrites enc bSlot bHash idx inverseOps = .ok entries) :
    InRollbackPlane enc entries := by
  intro entry hentry
  obtain ⟨operationIdx, key, hkey⟩ := storageRbWrites_keys h entry hentry
  rw [hkey]
  exact KeyEncoder.rollbackPrefix_isPrefix_metadataKey ..

def rangeDeletes (enc : KeyEncoder) (view : Store) (lower upper : Option U64) : Writes :=
  (view.scanKeys (enc.encodeRollbackMetadataRange lower upper).start
    (enc.encodeRollbackMetadataRange lower upper).stop).map fun k => (k, none)

theorem inRollbackPlane_rangeDeletes (enc : KeyEncoder) (view : Store)
    (lower upper : Option U64) : InRollbackPlane enc (rangeDeletes enc view lower upper) := by
  intro w hw
  obtain ⟨k, hk, rfl⟩ := List.mem_map.mp hw
  obtain ⟨-, hlow, hhigh⟩ := SortedMap.mem_scanKeys.mp hk
  exact KeyEncoder.rollbackPrefix_isPrefix_of_mem_range hlow hhigh

def gcWrites (enc : KeyEncoder) (view : Store) (bSlot : U64) : Writes :=
  if retainedSlots ≤ bSlot.toNat then
    rangeDeletes enc view none (some (bSlot - BitVec.ofNat 64 retainedSlots))
  else []

theorem inRollbackPlane_gcWrites (enc : KeyEncoder) (view : Store) (bSlot : U64) :
    InRollbackPlane enc (gcWrites enc view bSlot) := by
  unfold gcWrites
  split
  · exact inRollbackPlane_rangeDeletes enc view _ _
  · exact fun w hw => nomatch hw

theorem toNat_sub_retainedSlots (h : retainedSlots ≤ bSlot.toNat) :
    (bSlot - BitVec.ofNat 64 retainedSlots).toNat = bSlot.toNat - retainedSlots := by
  have hretained : (BitVec.ofNat 64 retainedSlots).toNat = retainedSlots := rfl
  rw [BitVec.toNat_sub_of_le (by rwa [BitVec.le_def, hretained]), hretained]

theorem garbageCollectRollbackMetadata_of_faultless (hfault : work.txn.failRead = none)
    (enc : KeyEncoder) (bSlot : U64) :
    garbageCollectRollbackMetadata enc work bSlot =
      .ok { work with txn := work.txn.writeAll (gcWrites enc work.txn.view bSlot) } := by
  unfold garbageCollectRollbackMetadata gcWrites
  split
  · simp only [Txn.deleteRange_of_faultless hfault _ _ (by norm_num : 0 < 1000)]
    rfl
  · rw [Txn.writeAll_nil]
    rfl

theorem trimPersistentRollbackMetadata_of_faultless (hfault : work.txn.failRead = none)
    (enc : KeyEncoder) (paranoidMode : Bool) {afterSlot : U64} (hslot : NextSlotFits afterSlot) :
    trimPersistentRollbackMetadata enc paranoidMode work afterSlot =
      .ok (work.writeTracked paranoidMode
        (rangeDeletes enc work.txn.view (some (afterSlot + 1)) none)) := by
  have hadd : addOrPanic afterSlot 1 = .ok (afterSlot + 1) := if_pos hslot
  simp only [trimPersistentRollbackMetadata, hadd, Except.ok_bind,
    Txn.deleteRange_of_faultless hfault _ _ (by norm_num : 0 < 100)]
  rfl

end CardanoIndexer.Polyphony
