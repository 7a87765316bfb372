import CardanoIndexer.Polyphony.Worker

/-!
# What a unit of work does

`step_immutable`, `step_mutable` and `step_rollBack` give the writes of each message in closed form;
what is proved about runs unfolds no executor.
-/

namespace CardanoIndexer.Polyphony

open Timbre

def WorkTxn.TracksOn (work : WorkTxn) (S : Key → Prop) : Prop :=
  ∀ operations, work.pendingVerification = some operations → ∀ k, S k → ∀ v,
    SortedMap.lastWrite k operations = some v → work.txn.view.get k = v

namespace World

/-! ## Publication without failures -/

def advertises (worker : Worker) : Option Bool → Bool
  | none => false
  | some isMutable =>
    !worker.registered && (isMutable || worker.config.advertiseImmediately.getD false)

def publishCalls (worker : Worker) (point : Point) (ts : Option ℕ) (advertise : Option Bool) :
    List RedisCall :=
  (match point, ts with
    | .specific slot hash, some ts => timestampCalls worker slot hash ts
    | .origin, _ | _, none => []) ++
  if advertises worker advertise then registryCalls worker point.slotOrDefault else []

theorem insertTimestampEntry_none (world : World) (point : Point) (ts : Option ℕ) :
    world.insertTimestampEntry point ts none =
      ({ world with redis := world.redis ++ publishCalls world.worker point ts none },
        .ok none) := by
  cases point <;> cases ts <;>
    simp [insertTimestampEntry, publishCalls, advertises, callRedis]

theorem maybeAdvertise_none (world : World) (isMutable : Bool) (slot : U64) :
    world.maybeAdvertise isMutable slot none =
      ({ world with
          worker := { world.worker with
            registered := world.worker.registered || advertises world.worker (some isMutable) }
          redis := world.redis ++ if advertises world.worker (some isMutable) then
            registryCalls world.worker slot else [] }, .ok none) := by
  obtain ⟨⟨config, _, _, _, _, _, _, _, registered⟩, tikv, redis, verifications⟩ := world
  cases registered with
  | true => simp [maybeAdvertise, advertises]
  | false =>
    cases hadv : isMutable || config.advertiseImmediately.getD false <;>
      simp [maybeAdvertise, advertises, callRedis, hadv]

theorem publish_none (world : World) (point : Point) (ts : Option ℕ) (advertise : Option Bool) :
    world.publish point ts advertise none =
      ({ world with
          worker := { world.worker with
            registered := world.worker.registered || advertises world.worker advertise }
          redis := world.redis ++ publishCalls world.worker point ts advertise }, .ok ()) := by
  simp only [publish, insertTimestampEntry_none]
  cases advertise with
  | none => simp [advertises]
  | some isMutable =>
    simp only [maybeAdvertise_none, publishCalls]
    simp [advertises]

/-! ## The world after a commit -/

def afterCommit (world : World) (env : Env) (point : Point) (advertise : Option Bool)
    (work : WorkTxn) (verifyPoint : Option Point) : World :=
  let committed := world.tikv.commit env.commitGap work.txn
  { world with
    worker := { world.worker with
      workUnit2pc := none
      registered := world.worker.registered || advertises world.worker advertise }
    tikv := committed.2
    redis := world.redis ++ publishCalls world.worker point committed.1 advertise }.verify
      env work verifyPoint

variable {α : Type}

theorem transact_settle_none (world : World) (env : Env) (unit : StorageActionPayload)
    (build : Txn Key Value → Except WorkError (WorkTxn × α)) (point : Point)
    (advertise : Option Bool) (verifyPoint : Option Point)
    (finish : α → Worker → Except WorkError Worker) :
    world.transact env none unit build (fun world ts work result =>
        world.settle env none point ts advertise work verifyPoint (finish result)) =
      match build (Txn.start world.tikv.store none) with
      | .error e => (world.lock unit, .error e)
      | .ok (work, result) =>
        match finish result (world.afterCommit env point advertise work verifyPoint).worker with
        | .error e => (world.afterCommit env point advertise work verifyPoint, .error e)
        | .ok worker =>
          ({ world.afterCommit env point advertise work verifyPoint with worker }, .ok ()) := by
  simp only [transact, reduceCtorEq, if_false, Fault.failRead]
  cases build (Txn.start world.tikv.store none) with
  | error e => rfl
  | ok built =>
    simp only [settle, Fault.failCall, publish_none]
    rfl

section afterCommit

variable {world : World} {env : Env} {point : Point} {advertise : Option Bool} {work : WorkTxn}
  {verifyPoint : Option Point} {S : Key → Prop} {k : Key}

theorem verify_eq (world : World) (env : Env) (work : WorkTxn) (verifyPoint : Option Point) :
    world.verify env work verifyPoint =
      { world with
        tikv := (world.verify env work verifyPoint).tikv
        verifications := (world.verify env work verifyPoint).verifications } := by
  unfold verify
  split
  · split <;> rfl
  · rfl

@[simp] theorem afterCommit_worker :
    (world.afterCommit env point advertise work verifyPoint).worker =
      { world.worker with
        workUnit2pc := none
        registered := world.worker.registered || advertises world.worker advertise } := by
  rw [afterCommit, verify_eq]

@[simp] theorem afterCommit_redis :
    (world.afterCommit env point advertise work verifyPoint).redis =
      world.redis ++ publishCalls world.worker point
        (world.tikv.commit env.commitGap work.txn).1 advertise := by
  rw [afterCommit, verify_eq]

def handed (worker : Worker) (work : WorkTxn) (verifyPoint : Option Point) : Option Writes :=
  if worker.paranoidMode ∧ verifyPoint.isSome then work.pendingVerification else none

theorem afterCommit_verifications :
    (world.afterCommit env point advertise work verifyPoint).verifications =
      world.verifications ++ if world.worker.paranoidMode then
        [⟨work.txn.mutations, handed world.worker work verifyPoint⟩] else [] := by
  unfold afterCommit verify handed
  cases hpm : world.worker.paranoidMode with
  | false => simp [hpm]
  | true => cases work.pendingVerification <;> cases verifyPoint <;> simp [hpm]

theorem afterCommit_tikv :
    (world.afterCommit env point advertise work verifyPoint).tikv =
      match handed world.worker work verifyPoint, verifyPoint with
      | some operations, some p =>
        verifyUntilConfirmed world.worker.keyEncoder env.commitGap p operations 2
          (world.tikv.commit env.commitGap work.txn).2
      | _, _ => (world.tikv.commit env.commitGap work.txn).2 := by
  unfold afterCommit verify handed
  cases hpm : world.worker.paranoidMode with
  | false => simp [hpm]
  | true => cases work.pendingVerification <;> cases verifyPoint <;> simp [hpm]

theorem afterCommit_store (hbase : work.txn.base = world.tikv.store)
    (hk : k ≠ world.worker.keyEncoder.verificationKey) :
    (world.afterCommit env point advertise work verifyPoint).tikv.store.get k =
      (SortedMap.lastWrite k ((handed world.worker work verifyPoint).getD [])).getD
        (work.txn.view.get k) := by
  have hstore := world.tikv.commit_store env.commitGap hbase
  rw [afterCommit_tikv]
  cases hhanded : handed world.worker work verifyPoint with
  | none => simp [hstore]
  | some operations =>
    cases verifyPoint with
    | none => simp [handed] at hhanded
    | some p => simp only [verifyUntilConfirmed_spec.1 k hk, hstore, Option.getD_some]

theorem extends_afterCommit_commit (world : World) (env : Env) (point : Point)
    (advertise : Option Bool) (work : WorkTxn) (verifyPoint : Option Point) :
    (world.tikv.commit env.commitGap work.txn).2.Extends
      (world.afterCommit env point advertise work verifyPoint).tikv
      (Confirms world.worker.keyEncoder ((handed world.worker work verifyPoint).getD [])
        (world.tikv.commit env.commitGap work.txn).2.store) := by
  rw [afterCommit_tikv]
  cases hhanded : handed world.worker work verifyPoint with
  | none => exact VersionedStore.Extends.refl _ _
  | some operations =>
    cases verifyPoint with
    | none => exact VersionedStore.Extends.refl _ _
    | some p => exact verifyUntilConfirmed_spec.2

theorem afterCommit_snapshotAt {ts : ℕ}
    (hts : (world.tikv.commit env.commitGap work.txn).1 = some ts) :
    (world.afterCommit env point advertise work verifyPoint).tikv.snapshotAt ts =
      work.txn.view := by
  rw [(extends_afterCommit_commit ..).snapshotAt_eq ts
    (VersionedStore.lastTs_commit_self hts).ge, VersionedStore.snapshotAt_commit_self hts]

theorem afterCommit_store_of_tracksOn (hbase : work.txn.base = world.tikv.store)
    (hvk : ¬ S world.worker.keyEncoder.verificationKey) (htracks : work.TracksOn S) (hk : S k) :
    (world.afterCommit env point advertise work verifyPoint).tikv.store.get k =
      work.txn.view.get k := by
  rw [afterCommit_store hbase fun heq => hvk (heq ▸ hk)]
  cases hlast : SortedMap.lastWrite k ((handed world.worker work verifyPoint).getD []) with
  | none => rfl
  | some v =>
    unfold handed at hlast
    split at hlast
    case isTrue =>
      cases hpending : work.pendingVerification with
      | none => simp [hpending] at hlast
      | some operations =>
        rw [hpending, Option.getD_some] at hlast
        exact (htracks operations hpending k hk v hlast).symm
    case isFalse => simp at hlast

theorem extends_afterCommit_of_tracksOn (hbase : work.txn.base = world.tikv.store)
    (hvk : ¬ S world.worker.keyEncoder.verificationKey) (htracks : work.TracksOn S) :
    world.tikv.Extends (world.afterCommit env point advertise work verifyPoint).tikv
      fun store => ∀ k, S k → store.get k = work.txn.view.get k := by
  have hstore := world.tikv.commit_store env.commitGap hbase
  refine (VersionedStore.extends_commit world.tikv env.commitGap fun k _ => rfl).trans ?_
  have hverify := extends_afterCommit_commit world env point advertise work verifyPoint
  refine ⟨hverify.lastTs_le, hverify.snapshotAt_eq, fun v hv => ?_⟩
  refine (hverify.versions v hv).imp id fun hconfirms k hk => ?_
  have hne : k ≠ world.worker.keyEncoder.verificationKey := fun heq => hvk (heq ▸ hk)
  calc v.2.get k
      = (SortedMap.lastWrite k ((handed world.worker work verifyPoint).getD [])).getD
          (work.txn.view.get k) := by rw [hconfirms k hne, hstore]
    _ = (world.afterCommit env point advertise work verifyPoint).tikv.store.get k :=
          (afterCommit_store hbase hne).symm
    _ = work.txn.view.get k := afterCommit_store_of_tracksOn hbase hvk htracks hk

theorem step_eq_ok_iff {unit : StorageActionPayload}
    {build : Txn Key Value → Except WorkError (WorkTxn × α)}
    {finish : α → Worker → Except WorkError Worker} {world' : World}
    (hexecute : world.execute env none unit =
      world.transact env none unit build fun world ts work result =>
        world.settle env none point ts advertise work verifyPoint (finish result)) :
    world.step (env, unit) = .ok world' ↔
      ∃ work result worker,
        build (Txn.start world.tikv.store none) = .ok (work, result) ∧
        finish result (world.afterCommit env point advertise work verifyPoint).worker =
          .ok worker ∧
        world' = { world.afterCommit env point advertise work verifyPoint with worker } := by
  simp only [step, hexecute, transact_settle_none]
  cases build (Txn.start world.tikv.store none) with
  | error e => simp
  | ok built =>
    obtain ⟨work, result⟩ := built
    simp only [Except.ok.injEq, Prod.mk.injEq, and_assoc, exists_and_left, exists_eq_left']
    cases finish result (world.afterCommit env point advertise work verifyPoint).worker with
    | error e => simp only [reduceCtorEq, false_and, exists_false]
    | ok worker => simp only [Except.ok.injEq, exists_eq_left', eq_comm]

end afterCommit

/-! ## Immutable blocks -/

abbrev batchWrites (worker : Worker) (env : Env) (store : Store) : Except WorkError Writes :=
  collectWrites StorageOp.plainWrite store.get
    (env.batchOrder.arrange worker.syncBatcher.getBatchActions)

def flushWork (world : World) (ws : Writes) : WorkTxn :=
  ⟨(Txn.start world.tikv.store none).writeAll ws, if world.worker.paranoidMode then some ws else none⟩

abbrev afterFlush (world : World) (env : Env) (point : Point) (ws : Writes) : World :=
  world.afterCommit env point (some false) (world.flushWork ws) world.worker.syncBatcher.lastPoint

theorem buildFlush_eq (worker : Worker) (env : Env) (store : Store) :
    buildFlush worker env (Txn.start store none) =
      batchWrites worker env store >>= fun ws =>
        .ok (⟨(Txn.start store none).writeAll ws,
          if worker.paranoidMode then some ws else none⟩, ()) := by
  rw [buildFlush, applyActions_plain ⟨Txn.start store none, none⟩ rfl
    (independent_of_nodup (worker.syncBatcher.nodup_keys_arrange env.batchOrder)),
    Txn.view_start, ← batchWrites]
  cases batchWrites worker env store <;> rfl

theorem step_immutable {world world' : World} {env : Env} {point : Point}
    {outputs : List ReducerOutput}
    (h : world.step (env, .rollForward point outputs false) = .ok world') :
    (world.worker.syncBatcher.shouldFlush
        (storageOps world.worker.keyEncoder env.now outputs) = false ∧
      ∃ batcher, world.worker.syncBatcher.pushActions point
          (storageOps world.worker.keyEncoder env.now outputs) = .ok batcher ∧
        world' = { world with worker := { world.worker with syncBatcher := batcher } }) ∨
    (world.worker.syncBatcher.shouldFlush
        (storageOps world.worker.keyEncoder env.now outputs) = true ∧
      ∃ ws batcher,
        batchWrites world.worker env world.tikv.store = .ok ws ∧
        world.worker.syncBatcher.wipe.pushActions point
          (storageOps world.worker.keyEncoder env.now outputs) = .ok batcher ∧
        world' = { world.afterFlush env point ws with
          worker := { (world.afterFlush env point ws).worker with
            lastProcessed := some point
            syncBatcher := batcher } }) := by
  cases hflush : world.worker.syncBatcher.shouldFlush
      (storageOps world.worker.keyEncoder env.now outputs) with
  | false =>
    refine Or.inl ⟨rfl, ?_⟩
    simp only [step, execute, executeImmutable, hflush, Bool.false_eq_true, if_false] at h
    cases hpush : world.worker.syncBatcher.pushActions point
        (storageOps world.worker.keyEncoder env.now outputs) with
    | error e => rw [hpush] at h; cases h
    | ok batcher =>
      rw [hpush] at h
      cases h
      exact ⟨batcher, rfl, rfl⟩
  | true =>
    refine Or.inr ⟨rfl, ?_⟩
    obtain ⟨work, result, worker, hbuild, hfinish, rfl⟩ := (step_eq_ok_iff
      (by simp only [execute, executeImmutable, hflush, if_true]; rfl)).mp h
    rw [buildFlush_eq] at hbuild
    obtain ⟨ws, hws, hwork⟩ := Except.bind_eq_ok.mp hbuild
    cases hwork
    obtain ⟨batcher, hpush, hworker⟩ := Except.bind_eq_ok.mp hfinish
    cases hworker
    rw [afterCommit_worker] at hpush
    exact ⟨ws, batcher, hws, hpush, rfl⟩

end World

/-! ## Mutable blocks -/

@[ext] structure MutableWrites where
  leftover : Writes
  block : Writes
  init : Writes
  entries : Writes
  gc : Writes

namespace MutableWrites

def all (w : MutableWrites) : Writes :=
  w.leftover ++ (w.block ++ (w.init ++ (w.entries ++ w.gc)))

def tracked (w : MutableWrites) : Writes := w.block ++ (w.init ++ w.entries)

end MutableWrites

def initEntries (worker : Worker) : Writes :=
  if worker.rollbackBuffer.isEmpty then
    match worker.lastProcessed with
    | some (.specific lastSlot lastHash) =>
      [(worker.keyEncoder.encodeStorageRollbackMetadataKey lastSlot lastHash 0 [], some [])]
    | _ => []
  else []

def blockEntries (worker : Worker) (point : Point) (inverseOps : List StorageAction) :
    Except WorkError Writes :=
  match point with
  | .specific bSlot bHash => storageRbWrites worker.keyEncoder bSlot bHash 0 inverseOps
  | .origin => .ok []

def blockGc (worker : Worker) (point : Point) (view : Store) : Writes :=
  match point with
  | .specific bSlot _ => gcWrites worker.keyEncoder view bSlot
  | .origin => []

theorem initRollbackMetadata_eq (worker : Worker) (work : WorkTxn) :
    World.initRollbackMetadata worker work =
      .ok (work.writeTracked worker.paranoidMode (initEntries worker)) := by
  have hnil : work.writeTracked worker.paranoidMode [] = work := by
    simp [WorkTxn.writeTracked]
  unfold World.initRollbackMetadata initEntries
  cases worker.rollbackBuffer.isEmpty with
  | false => exact congrArg Except.ok hnil.symm
  | true =>
    cases hlast : worker.lastProcessed with
    | none => exact congrArg Except.ok hnil.symm
    | some point =>
      cases point with
      | origin => exact congrArg Except.ok hnil.symm
      | specific lastSlot lastHash => rfl

theorem storeRollbackMetadata_eq {worker : Worker} {work : WorkTxn}
    (hfault : work.txn.failRead = none) (point : Point) (inverseOps : List StorageAction) :
    World.storeRollbackMetadata worker work point inverseOps =
      blockEntries worker point inverseOps >>= fun entries =>
        let written := work.writeTracked worker.paranoidMode entries
        .ok { written with
          txn := written.txn.writeAll (blockGc worker point written.txn.view) } := by
  cases point with
  | origin => simp [World.storeRollbackMetadata, blockEntries, blockGc, WorkTxn.writeTracked]
  | specific bSlot bHash =>
    simp only [World.storeRollbackMetadata, blockEntries, applyStorageRbActions]
    cases storageRbWrites worker.keyEncoder bSlot bHash 0 inverseOps with
    | error e => rfl
    | ok entries =>
      have hwritten : (work.writeTracked worker.paranoidMode entries).txn.failRead = none :=
        hfault
      simp only [Except.ok_bind, Except.pure_eq_ok,
        garbageCollectRollbackMetadata_of_faultless hwritten]
      rfl

theorem applyLeftover_eq {worker : Worker} {env : Env} (store : Store) :
    World.applyLeftover worker env ⟨Txn.start store none, none⟩ =
      World.batchWrites worker env store >>= fun leftover =>
        .ok ⟨(Txn.start store none).writeAll leftover,
          if worker.paranoidMode ∧ ¬ worker.syncBatcher.isEmpty then some leftover else none⟩ := by
  unfold World.applyLeftover
  cases hempty : worker.syncBatcher.isEmpty with
  | true =>
    rw [World.batchWrites, SyncBatcher.arrange_of_isEmpty hempty]
    simp [collectWrites]
  | false =>
    rw [applyActions_plain ⟨Txn.start store none, none⟩ rfl
      (independent_of_nodup (worker.syncBatcher.nodup_keys_arrange env.batchOrder)),
      Txn.view_start, ← World.batchWrites]
    cases World.batchWrites worker env store with
    | error e => rfl
    | ok leftover => simp

theorem applyBlock_eq {worker : Worker} {env : Env} {work : WorkTxn}
    (hfault : work.txn.failRead = none) (point : Point) (ops : List StorageAction) :
    World.applyBlock worker env work point ops =
      (SyncBatcher.new 1 (2 ^ 64 - 1)).pushActions point ops >>= fun merger =>
      collectWrites StorageOp.inverseWrite work.txn.view.get
          (env.blockOrder.arrange merger.getBatchActions) >>= fun block =>
        .ok (⟨work.txn.writeAll block,
          if worker.paranoidMode then some block else work.pendingVerification⟩,
          inversesOf work.txn.view.get block) := by
  unfold World.applyBlock
  cases (SyncBatcher.new 1 (2 ^ 64 - 1)).pushActions point ops with
  | error e => rfl
  | ok merger =>
    simp only [Except.ok_bind,
      applyActions_inverse work hfault (merger.nodup_keys_arrange env.blockOrder)]
    cases collectWrites StorageOp.inverseWrite work.txn.view.get
        (env.blockOrder.arrange merger.getBatchActions) <;> rfl

namespace MutableWrites

def inverses (w : MutableWrites) (store : Store) : List StorageAction :=
  inversesOf (store.applyWrites w.leftover).get w.block

structure Built (w : MutableWrites) (worker : Worker) (env : Env) (point : Point)
    (ops : List StorageAction) (store : Store) : Prop where
  leftover : collectWrites StorageOp.plainWrite store.get
    (env.batchOrder.arrange worker.syncBatcher.getBatchActions) = .ok w.leftover
  block : ∃ merger, (SyncBatcher.new 1 (2 ^ 64 - 1)).pushActions point ops = .ok merger ∧
    collectWrites StorageOp.inverseWrite (store.applyWrites w.leftover).get
      (env.blockOrder.arrange merger.getBatchActions) = .ok w.block
  init : w.init = initEntries worker
  entries : blockEntries worker point (w.inverses store) = .ok w.entries
  gc : w.gc = blockGc worker point
    (store.applyWrites (w.leftover ++ (w.block ++ (w.init ++ w.entries))))

def work (w : MutableWrites) (worker : Worker) (store : Store) : WorkTxn :=
  ⟨(Txn.start store none).writeAll w.all, if worker.paranoidMode then some w.tracked else none⟩

end MutableWrites

def mutableWrites (worker : Worker) (point : Point) (store : Store)
    (leftover block entries : Writes) : MutableWrites where
  leftover := leftover
  block := block
  init := initEntries worker
  entries := entries
  gc := blockGc worker point
    (store.applyWrites (leftover ++ (block ++ (initEntries worker ++ entries))))

theorem buildMutable_eq (worker : Worker) (env : Env) (point : Point)
    (ops : List StorageAction) (store : Store) :
    World.buildMutable worker env point ops (Txn.start store none) =
      World.batchWrites worker env store >>= fun leftover =>
      (SyncBatcher.new 1 (2 ^ 64 - 1)).pushActions point ops >>= fun merger =>
      collectWrites StorageOp.inverseWrite (store.applyWrites leftover).get
        (env.blockOrder.arrange merger.getBatchActions) >>= fun block =>
      blockEntries worker point (inversesOf (store.applyWrites leftover).get block) >>=
        fun entries =>
      .ok ((mutableWrites worker point store leftover block entries).work worker store,
        inversesOf (store.applyWrites leftover).get block) := by
  simp only [World.buildMutable, applyLeftover_eq]
  cases World.batchWrites worker env store with
  | error e => rfl
  | ok leftover =>
    simp only [Except.ok_bind]
    rw [applyBlock_eq rfl, Txn.view_writeAll, Txn.view_start]
    cases (SyncBatcher.new 1 (2 ^ 64 - 1)).pushActions point ops with
    | error e => rfl
    | ok merger =>
      simp only [Except.ok_bind]
      cases collectWrites StorageOp.inverseWrite (store.applyWrites leftover).get
          (env.blockOrder.arrange merger.getBatchActions) with
      | error e => rfl
      | ok block =>
        simp only [Except.ok_bind, initRollbackMetadata_eq]
        rw [storeRollbackMetadata_eq rfl]
        cases blockEntries worker point
            (inversesOf (store.applyWrites leftover).get block) with
        | error e => rfl
        | ok entries =>
          cases hpm : worker.paranoidMode <;>
            simp [MutableWrites.work, mutableWrites, MutableWrites.all,
              MutableWrites.tracked, WorkTxn.writeTracked, Txn.writeAll_writeAll, hpm]

theorem buildMutable_eq_ok_iff {worker : Worker} {env : Env} {point : Point}
    {ops : List StorageAction} {store : Store} {work : WorkTxn}
    {inverseOps : List StorageAction} :
    World.buildMutable worker env point ops (Txn.start store none) = .ok (work, inverseOps) ↔
      ∃ w : MutableWrites, w.Built worker env point ops store ∧ work = w.work worker store ∧
        inverseOps = w.inverses store := by
  simp only [buildMutable_eq, Except.bind_eq_ok]
  constructor
  · rintro ⟨leftover, hleftover, merger, hmerger, block, hblock, entries, hentries, hresult⟩
    cases hresult
    exact ⟨mutableWrites worker point store leftover block entries,
      ⟨hleftover, ⟨merger, hmerger, hblock⟩, rfl, hentries, rfl⟩, rfl, rfl⟩
  · rintro ⟨w, hbuilt, rfl, rfl⟩
    obtain ⟨merger, hmerger, hblock⟩ := hbuilt.block
    have hw : mutableWrites worker point store w.leftover w.block w.entries = w :=
      MutableWrites.ext rfl rfl hbuilt.init.symm rfl (by rw [hbuilt.gc, hbuilt.init]; rfl)
    exact ⟨w.leftover, hbuilt.leftover, merger, hmerger, w.block, hblock, w.entries,
      hbuilt.entries, by rw [hw]; rfl⟩

namespace World

abbrev afterMutable (world : World) (env : Env) (point : Point) (w : MutableWrites) : World :=
  world.afterCommit env point (some true) (w.work world.worker world.tikv.store) (some point)

theorem step_mutable {world world' : World} {env : Env} {point : Point}
    {outputs : List ReducerOutput} :
    world.step (env, .rollForward point outputs true) = .ok world' ↔
      ∃ w : MutableWrites,
        w.Built world.worker env point (storageOps world.worker.keyEncoder env.now outputs)
          world.tikv.store ∧
        world' = { world.afterMutable env point w with
          worker := finishMutable (world.afterMutable env point w).worker point
            (w.inverses world.tikv.store) } := by
  rw [step_eq_ok_iff (by simp only [execute, executeMutable]; rfl)]
  simp only [buildMutable_eq_ok_iff]
  constructor
  · rintro ⟨work, result, worker, ⟨w, hbuilt, rfl, rfl⟩, hfinish, rfl⟩
    cases hfinish
    exact ⟨w, hbuilt, rfl⟩
  · rintro ⟨w, hbuilt, rfl⟩
    exact ⟨_, _, _, ⟨w, hbuilt, rfl, rfl⟩, rfl, rfl⟩

end World

/-! ## Rollbacks -/

def StorageOp.restored : StorageOp → Option Value
  | .set v => some v
  | _ => none

def Restores (actions : List StorageAction) : Prop :=
  ∀ a ∈ actions, a.op = StorageOp.restore a.op.restored

def RestoringBuffer (buffer : RollbackBuffer (List StorageAction)) : Prop :=
  ∀ block ∈ buffer.blocks, Restores block.result

def undoWrites (actions : List StorageAction) : Writes :=
  actions.map fun a => (a.key, a.op.restored)

theorem restores_inversesOf (prev : Key → Option Value) (ws : Writes) :
    Restores (inversesOf prev ws) := by
  intro a ha
  obtain ⟨w, -, rfl⟩ := List.mem_map.mp ha
  cases prev w.1 <;> rfl

theorem takesPrevious_restore (v : Option Value) : (StorageOp.restore v).takesPrevious = false := by
  cases v <;> rfl

theorem Restores.independent {actions : List StorageAction} (h : Restores actions) :
    Independent actions := by
  refine List.pairwise_iff_forall_sublist.mpr fun {a b} hsub htakes => ?_
  have ha := h a (hsub.subset (List.mem_cons_self ..))
  rw [ha, takesPrevious_restore] at htakes
  cases htakes

theorem Restores.collectWrites {actions : List StorageAction} (h : Restores actions)
    (prev : Key → Option Value) :
    collectWrites StorageOp.plainWrite prev actions = .ok (undoWrites actions) := by
  induction actions with
  | nil => rfl
  | cons a rest ih =>
    have hop := h a (List.mem_cons_self ..)
    have hwrite : a.op.plainWrite (prev a.key) = .ok (some a.op.restored) := by
      conv_lhs => rw [hop]
      cases a.op.restored <;> rfl
    simp only [Polyphony.collectWrites, hwrite, Except.ok_bind,
      ih fun b hb => h b (List.mem_cons_of_mem _ hb)]
    rfl

def inverseActions (blocks : List (PointWithResult (List StorageAction))) : List StorageAction :=
  blocks.flatMap fun block => block.result.reverse

theorem Restores.inverseActions {blocks : List (PointWithResult (List StorageAction))}
    (h : ∀ block ∈ blocks, Restores block.result) : Restores (inverseActions blocks) := by
  intro a ha
  obtain ⟨block, hblock, ha⟩ := List.mem_flatMap.mp ha
  exact h block hblock a (List.mem_reverse.mp ha)

def trimWrites (enc : KeyEncoder) (point : Point) (view : Store) : Writes :=
  rangeDeletes enc view (some (point.slotOrDefault + 1)) none

def rollBackWork (worker : Worker) (point : Point) (store : Store)
    (blocks : List (PointWithResult (List StorageAction))) : WorkTxn :=
  let undo := undoWrites (inverseActions blocks)
  let ws := undo ++ trimWrites worker.keyEncoder point (store.applyWrites undo)
  ⟨(Txn.start store none).writeAll ws, if worker.paranoidMode then some ws else none⟩

theorem buildRollBack_eq_ok_iff {worker : Worker} (hrestores : RestoringBuffer worker.rollbackBuffer)
    {point : Point} {store : Store} {work : WorkTxn} :
    World.buildRollBack worker point (Txn.start store none) = .ok (work, ()) ↔
      NextSlotFits point.slotOrDefault ∧
        ∃ blocks, worker.rollbackBuffer.pointsSince point = .ok blocks ∧
          work = rollBackWork worker point store blocks := by
  unfold World.buildRollBack
  cases hsince : worker.rollbackBuffer.pointsSince point with
  | error p => simp
  | ok blocks =>
    have hblocks : ∀ block ∈ blocks, Restores block.result := fun block hblock =>
      hrestores block (RollbackBuffer.mem_of_pointsSince hsince hblock)
    have hactions := Restores.inverseActions hblocks
    have happly : applyActions worker.paranoidMode ⟨Txn.start store none, none⟩
        (inverseActions blocks) false = _ :=
      applyActions_plain _ rfl hactions.independent
    rw [hactions.collectWrites, Except.ok_bind] at happly
    simp only [Except.ok.injEq, exists_eq_left']
    rw [show blocks.flatMap (fun block => block.result.reverse) = inverseActions blocks from rfl,
      happly, Except.ok_bind]
    by_cases hslot : NextSlotFits point.slotOrDefault
    · have hwork : WorkTxn.writeTracked ⟨(Txn.start store none).writeAll
            (undoWrites (inverseActions blocks)), if worker.paranoidMode then
              some (undoWrites (inverseActions blocks)) else none⟩ worker.paranoidMode
          (trimWrites worker.keyEncoder point
            (store.applyWrites (undoWrites (inverseActions blocks)))) =
          rollBackWork worker point store blocks := by
        cases hpm : worker.paranoidMode <;>
          simp [WorkTxn.writeTracked, rollBackWork, Txn.writeAll_writeAll, hpm]
      rw [trimPersistentRollbackMetadata_of_faultless rfl _ _ hslot, Txn.view_writeAll,
        Txn.view_start, ← trimWrites, hwork]
      simp [hslot, eq_comm]
    · have hadd : addOrPanic point.slotOrDefault 1 = .error .panic := if_neg hslot
      simp only [trimPersistentRollbackMetadata, hadd, Except.error_bind, reduceCtorEq, hslot,
        false_and]

namespace World

abbrev afterRollBack (world : World) (env : Env) (point : Point)
    (blocks : List (PointWithResult (List StorageAction))) : World :=
  world.afterCommit env point none (rollBackWork world.worker point world.tikv.store blocks)
    (some point)

theorem step_rollBack {world world' : World}
    (hrestores : RestoringBuffer world.worker.rollbackBuffer) {env : Env} {point : Point} :
    world.step (env, .rollBack point) = .ok world' ↔
      NextSlotFits point.slotOrDefault ∧
        ∃ blocks rollbackBuffer,
          world.worker.rollbackBuffer.rollbackToPoint point = .ok (blocks, rollbackBuffer) ∧
          world' = { world.afterRollBack env point blocks with
            worker := { (world.afterRollBack env point blocks).worker with
              lastProcessed := some point
              rollbackBuffer } } := by
  rw [step_eq_ok_iff (by simp only [execute, executeRollBack]; rfl)]
  have hsince : ∀ blocks, world.worker.rollbackBuffer.pointsSince point = .ok blocks ↔
      ∃ rollbackBuffer,
        world.worker.rollbackBuffer.rollbackToPoint point = .ok (blocks, rollbackBuffer) := by
    intro blocks
    unfold RollbackBuffer.pointsSince RollbackBuffer.rollbackToPoint
    cases world.worker.rollbackBuffer.position point <;> simp
  constructor
  · rintro ⟨work, result, worker, hbuild, hfinish, rfl⟩
    obtain ⟨hslot, blocks, hblocks, rfl⟩ := (buildRollBack_eq_ok_iff hrestores).mp hbuild
    obtain ⟨rollbackBuffer, hbuffer⟩ := (hsince blocks).mp hblocks
    rw [finishRollBack, afterCommit_worker, hbuffer] at hfinish
    cases hfinish
    refine ⟨hslot, blocks, rollbackBuffer, hbuffer, ?_⟩
    rw [afterCommit_worker]
  · rintro ⟨hslot, blocks, rollbackBuffer, hbuffer, rfl⟩
    refine ⟨_, (), _, (buildRollBack_eq_ok_iff hrestores).mpr
      ⟨hslot, blocks, (hsince blocks).mpr ⟨rollbackBuffer, hbuffer⟩, rfl⟩, ?_, rfl⟩
    rw [finishRollBack, afterCommit_worker, hbuffer]

end World

/-! ## Keys that hold indexed state -/

theorem tracksOn_of_mutations {work : WorkTxn} {paranoidMode : Bool} (hpending :
    work.pendingVerification = if paranoidMode then some work.txn.mutations else none)
    (S : Key → Prop) : work.TracksOn S := by
  intro operations hoperations k _ v hlast
  rw [hpending] at hoperations
  obtain ⟨-, heq⟩ := Option.ite_none_right_eq_some.mp hoperations
  cases heq
  rw [Txn.view, SortedMap.get_applyWrites, hlast, Option.getD_some]

theorem tracksOn_flushWork (world : World) (ws : Writes) (S : Key → Prop) :
    (world.flushWork ws).TracksOn S :=
  tracksOn_of_mutations rfl S

theorem tracksOn_rollBackWork (worker : Worker) (point : Point) (store : Store)
    (blocks : List (PointWithResult (List StorageAction))) (S : Key → Prop) :
    (rollBackWork worker point store blocks).TracksOn S :=
  tracksOn_of_mutations rfl S

theorem view_rollBackWork {worker : Worker} {k : Key} (hk : worker.keyEncoder.IndexKey k)
    (point : Point) (store : Store) (blocks : List (PointWithResult (List StorageAction))) :
    (rollBackWork worker point store blocks).txn.view.get k =
      (store.applyWrites (undoWrites (inverseActions blocks))).get k := by
  have hplane : ¬ worker.keyEncoder.rollbackPrefix <+: k := fun h =>
    KeyEncoder.not_indexKey_of_rollbackPrefix h hk
  rw [rollBackWork, Txn.view_writeAll, Txn.view_start, SortedMap.applyWrites_append,
    SortedMap.get_applyWrites _ (trimWrites _ _ _), trimWrites,
    (inRollbackPlane_rangeDeletes _ _ _ _).lastWrite_eq_none hplane, Option.getD_none]

namespace MutableWrites

variable {w : MutableWrites} {worker : Worker} {env : Env} {point : Point}
  {ops : List StorageAction} {store : Store} {k : Key}

theorem Built.leftover_eq_nil (h : w.Built worker env point ops store)
    (hempty : worker.syncBatcher.isEmpty = true) : w.leftover = [] := by
  have hleftover := h.leftover
  rw [SyncBatcher.arrange_of_isEmpty hempty] at hleftover
  exact (Except.ok.inj hleftover).symm

theorem Built.exists_mem_of_mem_block (h : w.Built worker env point ops store)
    (hk : k ∈ w.block.map Prod.fst) : ∃ a ∈ ops, a.key = k := by
  obtain ⟨merger, hmerger, hblock⟩ := h.block
  obtain ⟨action, haction, rfl⟩ := List.mem_map.mp ((keys_collectWrites hblock).subset hk)
  by_contra hnone
  have hget := SyncBatcher.get_pushActions_of_ne
    (fun a ha heq => hnone ⟨a, ha, heq⟩) hmerger
  rw [SyncBatcher.mem_arrange.mp haction] at hget
  cases hget

theorem Built.not_collected {bSlot : U64} {bHash : Hash}
    (h : w.Built worker env (.specific bSlot bHash) ops store)
    (hretained : retainedSlots ≤ bSlot.toNat)
    (hmarker : ∀ lastSlot lastHash, worker.rollbackBuffer.isEmpty = true →
      worker.lastProcessed = some (.specific lastSlot lastHash) →
        bSlot.toNat ≤ lastSlot.toNat + retainedSlots)
    (hk : k ∈ (w.init ++ w.entries).map Prod.fst) :
    ¬ k < (worker.keyEncoder.encodeRollbackMetadataRange none
      (some (bSlot - BitVec.ofNat 64 retainedSlots))).stop := by
  have hstop := toNat_sub_retainedSlots hretained
  rw [List.map_append, List.mem_append] at hk
  rcases hk with hinit | hentries
  · rw [h.init, initEntries] at hinit
    split at hinit
    case isFalse => cases hinit
    case isTrue hbuffer =>
      split at hinit
      case h_2 => cases hinit
      case h_1 lastSlot lastHash hlast =>
        have hbound := hmarker lastSlot lastHash hbuffer hlast
        rw [List.map_singleton, List.mem_singleton] at hinit
        rw [hinit, KeyEncoder.metadataKey_lt_stop_iff, hstop]
        omega
  · obtain ⟨entry, hentry, rfl⟩ := List.mem_map.mp hentries
    obtain ⟨idx, key, hkey⟩ := storageRbWrites_keys h.entries entry hentry
    rw [hkey, KeyEncoder.metadataKey_lt_stop_iff, hstop]
    omega

theorem Built.inRollbackPlane (h : w.Built worker env point ops store) :
    InRollbackPlane worker.keyEncoder (w.init ++ (w.entries ++ w.gc)) := by
  have hinit : InRollbackPlane worker.keyEncoder w.init := by
    rw [h.init, initEntries]
    split
    · split
      · intro e he
        rw [List.mem_singleton.mp he]
        exact KeyEncoder.rollbackPrefix_isPrefix_metadataKey ..
      · exact fun e he => nomatch he
    · exact fun e he => nomatch he
  have hentries : InRollbackPlane worker.keyEncoder w.entries := by
    have hok := h.entries
    cases point with
    | origin =>
      rw [← Except.ok.inj hok]
      exact fun e he => nomatch he
    | specific bSlot bHash => exact inRollbackPlane_storageRbWrites hok
  have hgc : InRollbackPlane worker.keyEncoder w.gc := by
    rw [h.gc]
    cases point with
    | origin => exact fun e he => nomatch he
    | specific bSlot bHash => exact inRollbackPlane_gcWrites _ _ _
  exact hinit.append (hentries.append hgc)

theorem Built.view (h : w.Built worker env point ops store)
    (hk : ¬ worker.keyEncoder.rollbackPrefix <+: k) :
    (w.work worker store).txn.view.get k =
      ((store.applyWrites w.leftover).applyWrites w.block).get k := by
  rw [work, Txn.view_writeAll, Txn.view_start, all, SortedMap.applyWrites_append,
    SortedMap.applyWrites_append, SortedMap.get_applyWrites _ (w.init ++ _),
    h.inRollbackPlane.lastWrite_eq_none hk, Option.getD_none]

theorem Built.tracksOn (h : w.Built worker env point ops store) :
    (w.work worker store).TracksOn worker.keyEncoder.IndexKey := by
  intro operations hpending k hindex v hlast
  have hk : ¬ worker.keyEncoder.rollbackPrefix <+: k := fun hk =>
    KeyEncoder.not_indexKey_of_rollbackPrefix hk hindex
  simp only [work] at hpending
  split at hpending
  case isFalse => cases hpending
  case isTrue =>
    cases hpending
    have hplane : InRollbackPlane worker.keyEncoder (w.init ++ w.entries) := fun e he =>
      h.inRollbackPlane e (by
        rw [← List.append_assoc]
        exact List.mem_append_left _ he)
    rw [tracked, SortedMap.lastWrite_append, hplane.lastWrite_eq_none hk, Option.none_or] at hlast
    rw [h.view hk, SortedMap.get_applyWrites _ w.block, hlast, Option.getD_some]

end MutableWrites

namespace World

variable {world : World} {env : Env} {point : Point} {advertise : Option Bool}
  {verifyPoint : Option Point} {k : Key}

theorem indexed_afterCommit_flush (ws : Writes) (hk : world.worker.keyEncoder.IndexKey k) :
    (world.afterCommit env point advertise (world.flushWork ws) verifyPoint).tikv.store.get k =
      (world.tikv.store.applyWrites ws).get k := by
  rw [afterCommit_store_of_tracksOn rfl KeyEncoder.not_indexKey_verificationKey
    (tracksOn_flushWork world ws _) hk, flushWork, Txn.view_writeAll, Txn.view_start]

theorem afterCommit_flush_nil (world : World) (env : Env) (point : Point)
    (advertise : Option Bool) :
    (world.afterCommit env point advertise (world.flushWork []) none).tikv = world.tikv ∧
      (world.tikv.commit env.commitGap (world.flushWork []).txn).1 = none := by
  have hcommit : world.tikv.commit env.commitGap (world.flushWork []).txn =
      (none, world.tikv) := if_pos rfl
  rw [afterCommit_tikv, hcommit]
  exact ⟨by cases handed world.worker (world.flushWork []) none <;> rfl, rfl⟩

theorem indexed_afterCommit_mutable {w : MutableWrites} {ops : List StorageAction}
    (hbuilt : w.Built world.worker env point ops world.tikv.store)
    (hk : world.worker.keyEncoder.IndexKey k) :
    (world.afterCommit env point advertise (w.work world.worker world.tikv.store)
        verifyPoint).tikv.store.get k =
      ((world.tikv.store.applyWrites w.leftover).applyWrites w.block).get k := by
  rw [afterCommit_store_of_tracksOn rfl KeyEncoder.not_indexKey_verificationKey
    hbuilt.tracksOn hk]
  exact hbuilt.view fun h => KeyEncoder.not_indexKey_of_rollbackPrefix h hk

theorem indexed_afterCommit_rollBack (blocks : List (PointWithResult (List StorageAction)))
    (hk : world.worker.keyEncoder.IndexKey k) :
    (world.afterCommit env point advertise
        (rollBackWork world.worker point world.tikv.store blocks) verifyPoint).tikv.store.get k =
      (world.tikv.store.applyWrites (undoWrites (inverseActions blocks))).get k := by
  rw [afterCommit_store_of_tracksOn rfl KeyEncoder.not_indexKey_verificationKey
    (tracksOn_rollBackWork world.worker point world.tikv.store blocks _) hk]
  exact view_rollBackWork hk _ _ _

theorem exists_step_rollBack (hrestores : RestoringBuffer world.worker.rollbackBuffer)
    {blocks : List (PointWithResult (List StorageAction))}
    {buffer : RollbackBuffer (List StorageAction)} (hslot : NextSlotFits point.slotOrDefault)
    (hbuffer : world.worker.rollbackBuffer.rollbackToPoint point = .ok (blocks, buffer))
    (env : Env) :
    ∃ world', world.step (env, .rollBack point) = .ok world' ∧
      ∀ k, world.worker.keyEncoder.IndexKey k → world'.tikv.store.get k =
        (world.tikv.store.applyWrites (undoWrites (inverseActions blocks))).get k :=
  ⟨_, (step_rollBack hrestores).mpr ⟨hslot, blocks, buffer, hbuffer, rfl⟩,
    fun _ hk => indexed_afterCommit_rollBack blocks hk⟩

end World

end CardanoIndexer.Polyphony
