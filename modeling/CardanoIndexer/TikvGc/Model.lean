import CardanoIndexer.Lib.Run
import CardanoIndexer.Lib.Sorting
import CardanoIndexer.Timbre.Keys

/-!
# The garbage collection of TiKV

A cycle computes the newest safepoint that keeps what readers need, and prunes what is before it.
-/

namespace CardanoIndexer.TikvGc

open Sorting Timbre

instance neZero_logical : NeZero 262144 := ⟨by decide⟩

instance neZero_instance : NeZero 65536 := ⟨by decide⟩

structure Timestamp where
  physical : ℤ
  logical : Fin 262144
  deriving DecidableEq

namespace Timestamp

instance : LinearOrder Timestamp :=
  LinearOrder.lift' (fun ts => toLex (ts.physical, ts.logical)) fun a b h => by
    cases a
    cases b
    cases h
    rfl

variable {a b : Timestamp}

theorem le_iff :
    a ≤ b ↔ a.physical < b.physical ∨ a.physical = b.physical ∧ a.logical ≤ b.logical :=
  Prod.Lex.toLex_le_toLex

theorem physical_le (h : a ≤ b) : a.physical ≤ b.physical := by
  rcases le_iff.mp h with h | h
  · exact h.le
  · exact h.1.le

end Timestamp

structure RedisKey where
  dataplane : Byte
  instanceId : Fin 65536
  deriving DecidableEq

abbrev BlockId := ℕ × Hash

structure RedisEntry where
  height : ℕ
  blockHash : Hash
  wasMempool : Bool
  commitTs : Timestamp
  network : String
  deriving DecidableEq

def RedisEntry.block (entry : RedisEntry) : BlockId :=
  (entry.height, entry.blockHash)

def RedisEntry.rank (entry : RedisEntry) : ℕ ×ₗ Timestamp := toLex (entry.height, entry.commitTs)

structure EntryMap where
  toList : List (RedisKey × List RedisEntry)
  nodup : (toList.map Prod.fst).Nodup

def EntryMap.entriesOf (entryMap : EntryMap) (key : RedisKey) : List RedisEntry :=
  (entryMap.toList.lookup key).getD []

inductive Panic where
  | noChaintip (key : RedisKey)
  | noCandidate
  | chaintipInFuture
  | noIntersection (network : String)
  | noSafepointEntry
  | versionOverflow
  deriving DecidableEq

def blockOptions (entries : List RedisEntry) : List RedisEntry :=
  entries.filter fun entry => !entry.wasMempool

def instanceChaintip (key : RedisKey) (entries : List RedisEntry) : Except Panic RedisEntry :=
  match (byKey RedisEntry.rank (blockOptions entries)).getLast? with
  | some chaintip => .ok chaintip
  | none => .error (.noChaintip key)

def getEarliestChaintipTs (entryMap : EntryMap) (currentTs : ℤ) : Except Panic Timestamp := do
  let chaintips ← entryMap.toList.mapM fun item => instanceChaintip item.1 item.2
  match (byKey RedisEntry.commitTs chaintips).head? with
  | some earliest =>
    -- how long ago that was is reported as an unsigned duration
    if currentTs - earliest.commitTs.physical < 0 then throw .chaintipInFuture
    return earliest.commitTs
  | none => throw .noCandidate

/-! ## The latest network intersection -/

def networkMap (entryMap : EntryMap) : List (String × List RedisKey) :=
  (groupBy (fun item => item.2.head?.map RedisEntry.network) entryMap.toList).map fun group =>
    (group.1, group.2.map Prod.fst)

def holdsBlock (entries : List RedisEntry) (block : BlockId) : Bool :=
  (blockOptions entries).any fun entry => entry.block = block

def isIntersection (entryMap : EntryMap) (instances : List RedisKey)
    (block : BlockId) : Bool :=
  instances.all fun key => holdsBlock (entryMap.entriesOf key) block

def candidates (entryMap : EntryMap) (instances : List RedisKey) : List RedisEntry :=
  match instances with
  | [] => []
  | arbitraryInstance :: _ =>
    (byKey RedisEntry.rank (blockOptions (entryMap.entriesOf arbitraryInstance))).reverse

def candidateLoop (isCommon : BlockId → Bool) :
    List RedisEntry → Option (BlockId) →
      Option (BlockId) × Option (BlockId)
  | [], best => (best, none)
  | candidate :: rest, none =>
    candidateLoop isCommon rest (if isCommon candidate.block then some candidate.block else none)
  | candidate :: rest, some best =>
    if candidate.height = best.1 then candidateLoop isCommon rest (some best)
    else if best.1 = 0 ∨ candidate.height ≠ best.1 - 1 then (some best, none)
    else if isCommon candidate.block then (some best, some candidate.block)
    else candidateLoop isCommon rest (some best)

def safepointBlock (entryMap : EntryMap) (network : String) (instances : List RedisKey) :
    Except Panic (BlockId) :=
  match candidateLoop (isIntersection entryMap instances) (candidates entryMap instances) none with
  | (some best, previous) => .ok (previous.getD best)
  | (none, _) => .error (.noIntersection network)

def latestCommitTs (entries : List RedisEntry) (block : BlockId) :
    Except Panic Timestamp :=
  match (byKey RedisEntry.commitTs
      ((blockOptions entries).filter fun entry => entry.block = block)).reverse.head? with
  | some entry => .ok entry.commitTs
  | none => .error .noSafepointEntry

def networkSafepointTs (entryMap : EntryMap) (network : String) (instances : List RedisKey) :
    Except Panic Timestamp := do
  let block ← safepointBlock entryMap network instances
  let timestamps ← instances.mapM fun key => latestCommitTs (entryMap.entriesOf key) block
  match (byKey id timestamps).head? with
  | some ts => return ts
  | none => throw .noCandidate

def getLatestNetworkIntersectionTs (entryMap : EntryMap) : Except Panic Timestamp := do
  let timestamps ← (networkMap entryMap).mapM fun group =>
    networkSafepointTs entryMap group.1 group.2
  match (byKey id timestamps).head? with
  | some ts => return ts
  | none => throw .noCandidate

/-! ## A cycle -/

def saturatingSub (a b : ℤ) : ℤ := max (-2 ^ 63) (min (2 ^ 63 - 1) (a - b))

def Timestamp.version (ts : Timestamp) : Except Panic ℕ :=
  if ts.physical * 2 ^ 18 + ts.logical.val < 0 then .error .versionOverflow
  else .ok (ts.physical * 2 ^ 18 + ts.logical.val).toNat

structure Options where
  safeZoneMillis : ℤ
  isI64 : -2 ^ 63 ≤ safeZoneMillis ∧ safeZoneMillis < 2 ^ 63

def chooseSafepoint (options : Options) (entryMap : EntryMap) (currentTs : ℤ) :
    Except Panic Timestamp := do
  let earliestChaintipTs ← getEarliestChaintipTs entryMap currentTs
  let safeZoneTs : Timestamp := ⟨saturatingSub currentTs options.safeZoneMillis, 0⟩
  let networkIntersectionTs ← getLatestNetworkIntersectionTs entryMap
  match (byKey id [earliestChaintipTs, safeZoneTs, networkIntersectionTs]).head? with
  | some safepoint => return safepoint
  | none => throw .noCandidate

variable {ts : Timestamp}

theorem Timestamp.version_eq_ok {version : ℕ} (h : ts.version = .ok version) : 0 ≤ ts.physical := by
  unfold Timestamp.version at h
  split at h
  case isTrue => cases h
  case isFalse hle =>
    have hlogical := ts.logical.isLt
    omega

theorem Timestamp.exists_version (h : 0 ≤ ts.physical) : ∃ version, ts.version = .ok version := by
  refine ⟨_, if_neg ?_⟩
  omega

/-- `zrembyscore` up to the last millisecond before the safepoint; entries are scored by
their physical time. -/
def prune (safepoint : Timestamp) (entries : List RedisEntry) : List RedisEntry :=
  entries.filter fun entry => ¬ entry.commitTs.physical ≤ safepoint.physical - 1

abbrev Redis := RedisKey → List RedisEntry

def fetchEntryMap (redis : Redis) (keys : List RedisKey) : EntryMap where
  toList := (keys.dedup.filter fun key => redis key ≠ []).map fun key => (key, redis key)
  nodup := by
    rw [List.map_map]
    exact (List.map_id _).symm ▸ (List.nodup_dedup keys).filter _

def pruneAll (safepoint : Timestamp) (entryMap : EntryMap) (redis : Redis) : Redis := fun key =>
  if key ∈ entryMap.toList.map Prod.fst then prune safepoint (redis key) else redis key

def getNewSafepoint (options : Options) (redis : Redis) (keys : List RedisKey) (currentTs : ℤ) :
    Except Panic (Option Timestamp × Redis) := do
  let entryMap := fetchEntryMap redis keys
  if entryMap.toList = [] then return (none, redis)
  let safepoint ← chooseSafepoint options entryMap currentTs
  let _ ← safepoint.version
  return (some safepoint, pruneAll safepoint entryMap redis)

end CardanoIndexer.TikvGc
