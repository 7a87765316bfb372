import CardanoIndexer.Polyphony.RollbackMetadata
import CardanoIndexer.Polyphony.SyncBatcher
import CardanoIndexer.Polyphony.Verification

/-!
# The storage worker

`transact` is a unit of work up to the unlock of the 2pc slot, and `settle` the part after it.
-/

namespace CardanoIndexer.Polyphony

open Timbre

/-! ## State -/

structure Config where
  dataplaneId : Byte
  instanceId : Byte
  syncBatchSize : Option ℕ
  tikvRaftEntryMaxSize : Option ℕ
  paranoidMode : Option Bool
  network : String
  advertiseImmediately : Option Bool
  deriving DecidableEq

structure Worker where
  config : Config
  keyEncoder : KeyEncoder
  syncBatcher : SyncBatcher
  rollbackBuffer : RollbackBuffer (List StorageAction)
  workUnit2pc : Option StorageActionPayload
  lastProcessed : Option Point
  paranoidMode : Bool
  instanceNames : List String
  registered : Bool

def Worker.spawn (config : Config) (instanceNames : List String) (intersect : Option Point)
    (buf : Option (List (PointWithResult (List StorageAction)))) : Worker where
  config := config
  keyEncoder := ⟨config.dataplaneId, config.instanceId⟩
  syncBatcher :=
    SyncBatcher.new (config.syncBatchSize.getD 1) (config.tikvRaftEntryMaxSize.getD 4000000)
  rollbackBuffer :=
    (buf.getD []).foldl (fun buffer entry => buffer.addBlock entry.point entry.result) .new
  workUnit2pc := none
  lastProcessed := intersect
  paranoidMode := config.paranoidMode.getD false
  instanceNames := instanceNames
  registered := false

structure RedisEntry where
  slot : U64
  blockHash : Hash
  commitTs : ℕ
  network : String
  deriving DecidableEq

inductive RedisMember where
  | key (name : String)
  | entry (entry : RedisEntry)
  | indexer (dataplaneId instanceId : Byte)
  deriving DecidableEq

inductive RedisCall where
  | connect
  | zadd (key : String) (member : RedisMember) (score : ℕ)
  deriving DecidableEq

structure Verification where
  committed : Writes
  operations : Option Writes
  deriving DecidableEq

/-- The worker and what it talks to.  `redis` logs the calls that succeeded, and
`verifications` what paranoid mode was given to check. -/
structure World where
  worker : Worker
  tikv : VersionedStore Key Value
  redis : List RedisCall
  verifications : List Verification

structure Env where
  batchOrder : IterationOrder
  blockOrder : IterationOrder
  now : U64
  commitGap : ℕ

def Env.plain : Env := ⟨.byKey, .byKey, 0, 0⟩

def World.ofStore (worker : Worker) (store : Store) : World :=
  ⟨worker, VersionedStore.ofInitial store, [], []⟩

inductive Fault where
  | begin
  | read (n : ℕ)
  | commit
  | redis (n : ℕ)
  deriving DecidableEq

def Fault.failRead : Option Fault → Option ℕ
  | some (.read n) => some n
  | _ => none

def Fault.failCall : Option Fault → Option ℕ
  | some (.redis n) => some n
  | _ => none

/-! ## Publication -/

namespace World

def callRedis (world : World) (failCall : Option ℕ) (calls : List RedisCall) :
    World × Except WorkError (Option ℕ) :=
  match failCall with
  | none => ({ world with redis := world.redis ++ calls }, .ok none)
  | some n =>
    if n < calls.length then
      ({ world with redis := world.redis ++ calls.take n }, .error .restart)
    else ({ world with redis := world.redis ++ calls }, .ok (some (n - calls.length)))

def registryCalls (worker : Worker) (slot : U64) : List RedisCall :=
  .connect :: worker.instanceNames.map fun name =>
    .zadd ("cardano:" ++ worker.config.network.toLower ++ ":" ++ name ++ ":scores")
      (.indexer worker.config.dataplaneId worker.config.instanceId) slot.toNat

def timestampsKey (config : Config) : String :=
  "tikv-timestamps:" ++ toString config.dataplaneId.val ++ ":" ++ toString config.instanceId.val

def timestampCalls (worker : Worker) (slot : U64) (hash : Hash) (ts : ℕ) : List RedisCall :=
  [.connect,
    .zadd "tikv-timestamps-keys" (.key (timestampsKey worker.config)) (ts / 2 ^ 18),
    .zadd (timestampsKey worker.config) (.entry ⟨slot, hash, ts, worker.config.network⟩)
      (ts / 2 ^ 18)] ++
    if worker.registered then registryCalls worker slot else []

def insertTimestampEntry (world : World) (point : Point) (ts : Option ℕ)
    (failCall : Option ℕ) : World × Except WorkError (Option ℕ) :=
  match point, ts with
  | .specific slot hash, some ts =>
    world.callRedis failCall (timestampCalls world.worker slot hash ts)
  | .origin, _ | _, none => (world, .ok failCall)

def maybeAdvertise (world : World) (isMutable : Bool) (slot : U64) (failCall : Option ℕ) :
    World × Except WorkError (Option ℕ) :=
  if world.worker.registered then (world, .ok failCall)
  else if !(isMutable || world.worker.config.advertiseImmediately.getD false) then
    (world, .ok failCall)
  else
    { world with worker := { world.worker with registered := true } }.callRedis failCall
      (registryCalls world.worker slot)

def publish (world : World) (point : Point) (ts : Option ℕ) (advertise : Option Bool)
    (failCall : Option ℕ) : World × Except WorkError Unit :=
  match world.insertTimestampEntry point ts failCall with
  | (world, .error e) => (world, .error e)
  | (world, .ok failCall) =>
    match advertise with
    | none => (world, .ok ())
    | some isMutable =>
      match world.maybeAdvertise isMutable point.slotOrDefault failCall with
      | (world, .error e) => (world, .error e)
      | (world, .ok _) => (world, .ok ())

def verify (world : World) (env : Env) (work : WorkTxn) (point : Option Point) : World :=
  if world.worker.paranoidMode then
    match work.pendingVerification, point with
    | some operations, some point =>
      { world with
        tikv := verifyUntilConfirmed world.worker.keyEncoder env.commitGap point operations 2
          world.tikv
        verifications := world.verifications ++ [⟨work.txn.mutations, some operations⟩] }
    | _, _ =>
      { world with
        verifications := world.verifications ++ [⟨work.txn.mutations, none⟩] }
  else world

/-! ## Units of work -/

def lock (world : World) (unit : StorageActionPayload) : World :=
  { world with worker := { world.worker with workUnit2pc := some unit } }

def transact {α : Type} (world : World) (env : Env) (fault : Option Fault)
    (unit : StorageActionPayload) (build : Txn Key Value → Except WorkError (WorkTxn × α))
    (next : World → Option ℕ → WorkTxn → α → World × Except WorkError Unit) :
    World × Except WorkError Unit :=
  if fault = some .begin then (world.lock unit, .error .restart)
  else
    match build (Txn.start world.tikv.store (Fault.failRead fault)) with
    | .error e => (world.lock unit, .error e)
    | .ok (work, result) =>
      if fault = some .commit then (world.lock unit, .error .restart)
      else
        let committed := world.tikv.commit env.commitGap work.txn
        next { world with
          worker := { world.worker with workUnit2pc := none }
          tikv := committed.2 } committed.1 work result

def settle (world : World) (env : Env) (fault : Option Fault) (point : Point)
    (ts : Option ℕ) (advertise : Option Bool) (work : WorkTxn) (verifyPoint : Option Point)
    (finish : Worker → Except WorkError Worker) : World × Except WorkError Unit :=
  match world.publish point ts advertise (Fault.failCall fault) with
  | (world, .error e) => (world, .error e)
  | (world, .ok ()) =>
    let world := world.verify env work verifyPoint
    match finish world.worker with
    | .error e => (world, .error e)
    | .ok worker => ({ world with worker }, .ok ())

def buildFlush (worker : Worker) (env : Env) (txn : Txn Key Value) :
    Except WorkError (WorkTxn × Unit) := do
  let (work, _) ← applyActions worker.paranoidMode ⟨txn, none⟩
    (env.batchOrder.arrange worker.syncBatcher.getBatchActions) false
  return (work, ())

def executeImmutable (world : World) (env : Env) (fault : Option Fault) (point : Point)
    (outputs : List ReducerOutput) : World × Except WorkError Unit :=
  let worker := world.worker
  let ops := storageOps worker.keyEncoder env.now outputs
  if worker.syncBatcher.shouldFlush ops then
    world.transact env fault (.rollForward point outputs false) (buildFlush worker env)
      fun world ts work _ =>
        -- the entry published names the incoming block, the verification the batch
        world.settle env fault point ts (some false) work worker.syncBatcher.lastPoint
          fun worker => do
            let syncBatcher ← worker.syncBatcher.wipe.pushActions point ops
            return { worker with lastProcessed := some point, syncBatcher }
  else
    match worker.syncBatcher.pushActions point ops with
    | .error e => (world, .error e)
    | .ok syncBatcher => ({ world with worker := { worker with syncBatcher } }, .ok ())

def applyLeftover (worker : Worker) (env : Env) (work : WorkTxn) : Except WorkError WorkTxn :=
  if worker.syncBatcher.isEmpty then .ok work
  else do
    let (work, _) ← applyActions worker.paranoidMode work
      (env.batchOrder.arrange worker.syncBatcher.getBatchActions) false
    return work

def applyBlock (worker : Worker) (env : Env) (work : WorkTxn) (point : Point)
    (ops : List StorageAction) : Except WorkError (WorkTxn × List StorageAction) := do
  let merger ← (SyncBatcher.new 1 (2 ^ 64 - 1)).pushActions point ops
  let (work, inverseOps) ← applyActions worker.paranoidMode work
    (env.blockOrder.arrange merger.getBatchActions) true
  return (work, inverseOps.getD [])

def initRollbackMetadata (worker : Worker) (work : WorkTxn) : Except WorkError WorkTxn :=
  if worker.rollbackBuffer.isEmpty then
    match worker.lastProcessed with
    | some (.specific lastSlot lastHash) =>
      applyStorageRbActions worker.keyEncoder worker.paranoidMode work [⟨[], .delete⟩]
        lastSlot lastHash
    | _ => .ok work
  else .ok work

def storeRollbackMetadata (worker : Worker) (work : WorkTxn) (point : Point)
    (inverseOps : List StorageAction) : Except WorkError WorkTxn :=
  match point with
  | .specific bSlot bHash => do
    let work ← applyStorageRbActions worker.keyEncoder worker.paranoidMode work inverseOps
      bSlot bHash
    garbageCollectRollbackMetadata worker.keyEncoder work bSlot
  | .origin => .ok work

def buildMutable (worker : Worker) (env : Env) (point : Point) (ops : List StorageAction)
    (txn : Txn Key Value) : Except WorkError (WorkTxn × List StorageAction) := do
  let work ← applyLeftover worker env ⟨txn, none⟩
  let (work, inverseOps) ← applyBlock worker env work point ops
  let work ← initRollbackMetadata worker work
  let work ← storeRollbackMetadata worker work point inverseOps
  return (work, inverseOps)

def finishMutable (worker : Worker) (point : Point) (inverseOps : List StorageAction) : Worker :=
  let buffer :=
    if worker.rollbackBuffer.isEmpty then
      worker.rollbackBuffer.addBlock (worker.lastProcessed.getD .origin) []
    else worker.rollbackBuffer
  { worker with
    lastProcessed := some point
    rollbackBuffer := buffer.addBlock point inverseOps
    syncBatcher :=
      if worker.syncBatcher.isEmpty then worker.syncBatcher else worker.syncBatcher.wipe }

def executeMutable (world : World) (env : Env) (fault : Option Fault) (point : Point)
    (outputs : List ReducerOutput) : World × Except WorkError Unit :=
  let ops := storageOps world.worker.keyEncoder env.now outputs
  world.transact env fault (.rollForward point outputs true)
    (buildMutable world.worker env point ops)
    fun world ts work inverseOps =>
      world.settle env fault point ts (some true) work (some point)
        fun worker => .ok (finishMutable worker point inverseOps)

def buildRollBack (worker : Worker) (point : Point) (txn : Txn Key Value) :
    Except WorkError (WorkTxn × Unit) :=
  match worker.rollbackBuffer.pointsSince point with
  -- could not handle rollback
  | .error _ => .error .panic
  | .ok pointsAndResults => do
    let inverseActions := pointsAndResults.flatMap fun block => block.result.reverse
    let (work, _) ← applyActions worker.paranoidMode ⟨txn, none⟩ inverseActions false
    let work ← trimPersistentRollbackMetadata worker.keyEncoder worker.paranoidMode work
      point.slotOrDefault
    return (work, ())

def finishRollBack (worker : Worker) (point : Point) : Except WorkError Worker :=
  match worker.rollbackBuffer.rollbackToPoint point with
  | .error _ => .error .panic
  | .ok (_, rollbackBuffer) =>
    .ok { worker with lastProcessed := some point, rollbackBuffer }

def executeRollBack (world : World) (env : Env) (fault : Option Fault) (point : Point) :
    World × Except WorkError Unit :=
  world.transact env fault (.rollBack point) (buildRollBack world.worker point)
    fun world ts work _ =>
      world.settle env fault point ts none work (some point) fun worker =>
        finishRollBack worker point

def execute (world : World) (env : Env) (fault : Option Fault) :
    StorageActionPayload → World × Except WorkError Unit
  | .rollForward point outputs false => world.executeImmutable env fault point outputs
  | .rollForward point outputs true => world.executeMutable env fault point outputs
  | .rollBack point => world.executeRollBack env fault point

def step (world : World) (input : Env × StorageActionPayload) : Except WorkError World :=
  match world.execute input.1 none input.2 with
  | (world, .ok ()) => .ok world
  | (_, .error e) => .error e

end World

/-! ## A small instance

The concrete runs of the later modules are runs of this instance. -/

def sampleConfig : Config := ⟨1, 2, some 2, none, some true, "preview", none⟩

def samplePoint (slot : U64) (tag : Byte) : Point := .specific slot (Vector.replicate 32 tag)

def sampleBlock (slot : U64) (tag : Byte) (ops : List DataOp) (isMutable : Bool) :
    StorageActionPayload :=
  .rollForward (samplePoint slot tag) [.data ops, .cursor (samplePoint slot tag) slot] isMutable

def sampleWorld (lastProcessed : Option Point) : World :=
  .ofStore (Worker.spawn sampleConfig [] lastProcessed none) ∅

end CardanoIndexer.Polyphony
