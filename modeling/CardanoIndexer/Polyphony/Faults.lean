import CardanoIndexer.Lib.Fault
import CardanoIndexer.Polyphony.WorkerSpec

/-!
# Units of work with failures

A unit of work with a fault, not in Redis, stops before anything is committed or does what it does
without it (`execute_of_fault`).
-/

namespace CardanoIndexer.Polyphony

open Timbre Except

def WorkTxn.heal (work : WorkTxn) : WorkTxn := { work with txn := work.txn.heal }

def OpState.heal (st : OpState) : OpState := { st with txn := st.txn.heal }

/-! ## The calls inside a transaction -/

variable {α : Type}

theorem heals_orRestart {β : Type} {f : α → β} {x : Option α} {y : Option β}
    (h : ∀ a, x = some a → y = some (f a)) :
    Heals WorkError.restart f (orRestart x) (orRestart y) := by
  cases x with
  | none => exact Or.inl rfl
  | some a =>
    rw [h a rfl]
    exact heals_ok _ _ _

theorem heals_executeStorageOpInTxn (st : OpState) (action : StorageAction) :
    Heals .restart OpState.heal (executeStorageOpInTxn st action)
      (executeStorageOpInTxn st.heal action) := by
  refine Heals.bind_same _ fun w => Or.inr ?_
  cases action.op.takesPrevious <;> cases w <;> rfl

theorem heals_foldlM_executeStorageOpInTxn (st : OpState) (actions : List StorageAction) :
    Heals .restart OpState.heal (actions.foldlM executeStorageOpInTxn st)
      (actions.foldlM executeStorageOpInTxn st.heal) := by
  induction actions generalizing st with
  | nil => exact heals_ok _ _ _
  | cons action rest ih =>
    simp only [List.foldlM_cons]
    exact (heals_executeStorageOpInTxn st action).bind ih

theorem heals_executeStorageOpInTxnWithInverse (st : OpState) (action : StorageAction) :
    Heals .restart (Prod.map OpState.heal id) (executeStorageOpInTxnWithInverse st action)
      (executeStorageOpInTxnWithInverse st.heal action) := by
  refine Heals.bind_same _ fun w => Or.inr ?_
  cases w <;> rfl

theorem heals_executeAllWithInverse (st : OpState) (actions : List StorageAction) :
    Heals .restart (Prod.map OpState.heal id) (executeAllWithInverse st actions)
      (executeAllWithInverse st.heal actions) := by
  induction actions generalizing st with
  | nil => exact heals_ok _ _ _
  | cons action rest ih =>
    refine (heals_executeStorageOpInTxnWithInverse st action).bind fun ⟨next, inverse⟩ => ?_
    exact (ih next).bind fun ⟨last, inverses⟩ => heals_ok _ _ _

theorem heals_applyActions (paranoidMode : Bool) (work : WorkTxn)
    (actions : List StorageAction) (returnInverses : Bool) :
    Heals .restart (Prod.map WorkTxn.heal id)
      (applyActions paranoidMode work actions returnInverses)
      (applyActions paranoidMode work.heal actions returnInverses) := by
  refine Heals.bind (f := Prod.map id Txn.heal)
    (heals_orRestart fun a ha => Txn.batchGetAll_heal (by norm_num) ha) fun ⟨kvMap, txn⟩ => ?_
  have hinverse := heals_executeAllWithInverse
    ⟨txn, kvMap, if paranoidMode then some [] else none⟩ actions
  have hplain := heals_foldlM_executeStorageOpInTxn
    ⟨txn, kvMap, if paranoidMode then some [] else none⟩ actions
  cases returnInverses with
  | true =>
    simp only [Prod.map, if_true]
    exact hinverse.bind fun ⟨st, inverses⟩ => heals_ok _ _ _
  | false =>
    simp only [Prod.map, Bool.false_eq_true, if_false]
    exact hplain.bind fun st => heals_ok _ _ _

theorem heals_garbageCollectRollbackMetadata (enc : KeyEncoder) (work : WorkTxn) (bSlot : U64) :
    Heals .restart WorkTxn.heal (garbageCollectRollbackMetadata enc work bSlot)
      (garbageCollectRollbackMetadata enc work.heal bSlot) := by
  unfold garbageCollectRollbackMetadata
  split
  · exact Heals.bind (f := Prod.map Txn.heal id)
      (heals_orRestart fun a ha => Txn.deleteRange_heal (by norm_num) ha)
      fun ⟨txn, keys⟩ => heals_ok _ _ _
  · exact heals_ok _ _ _

theorem heals_trimPersistentRollbackMetadata (enc : KeyEncoder) (paranoidMode : Bool)
    (work : WorkTxn) (afterSlot : U64) :
    Heals .restart WorkTxn.heal (trimPersistentRollbackMetadata enc paranoidMode work afterSlot)
      (trimPersistentRollbackMetadata enc paranoidMode work.heal afterSlot) := by
  refine Heals.bind_same _ fun lower => ?_
  exact Heals.bind (f := Prod.map Txn.heal id)
    (heals_orRestart fun a ha => Txn.deleteRange_heal (by norm_num) ha)
    fun ⟨txn, keys⟩ => heals_ok _ _ _

theorem heals_applyStorageRbActions (enc : KeyEncoder) (paranoidMode : Bool) (work : WorkTxn)
    (inverseOps : List StorageAction) (bSlot : U64) (bHash : Hash) :
    Heals .restart WorkTxn.heal
      (applyStorageRbActions enc paranoidMode work inverseOps bSlot bHash)
      (applyStorageRbActions enc paranoidMode work.heal inverseOps bSlot bHash) :=
  Heals.bind_same _ fun _ => heals_ok _ _ _

/-! ## The transactions -/

variable {fault : Option Fault}

namespace World

theorem heals_applyLeftover (worker : Worker) (env : Env) (work : WorkTxn) :
    Heals .restart WorkTxn.heal (applyLeftover worker env work)
      (applyLeftover worker env work.heal) := by
  unfold applyLeftover
  split
  · exact heals_ok _ _ _
  · exact (heals_applyActions _ _ _ _).bind fun ⟨work, inverses⟩ => heals_ok _ _ _

theorem heals_applyBlock (worker : Worker) (env : Env) (work : WorkTxn) (point : Point)
    (ops : List StorageAction) :
    Heals .restart (Prod.map WorkTxn.heal id) (applyBlock worker env work point ops)
      (applyBlock worker env work.heal point ops) := by
  refine Heals.bind_same _ fun merger => ?_
  exact (heals_applyActions _ _ _ _).bind fun ⟨work, inverses⟩ => heals_ok _ _ _

theorem heals_initRollbackMetadata (worker : Worker) (work : WorkTxn) :
    Heals .restart WorkTxn.heal (initRollbackMetadata worker work)
      (initRollbackMetadata worker work.heal) := by
  unfold initRollbackMetadata
  split
  · split
    · exact heals_applyStorageRbActions _ _ _ _ _ _
    · exact heals_ok _ _ _
  · exact heals_ok _ _ _

theorem heals_storeRollbackMetadata (worker : Worker) (work : WorkTxn) (point : Point)
    (inverseOps : List StorageAction) :
    Heals .restart WorkTxn.heal (storeRollbackMetadata worker work point inverseOps)
      (storeRollbackMetadata worker work.heal point inverseOps) := by
  cases point with
  | origin => exact heals_ok _ _ _
  | specific bSlot bHash =>
    exact (heals_applyStorageRbActions _ _ _ _ _ _).bind fun work =>
      heals_garbageCollectRollbackMetadata _ _ _

theorem heals_buildFlush (worker : Worker) (env : Env) (txn : Txn Key Value) :
    Heals .restart (Prod.map WorkTxn.heal id) (buildFlush worker env txn)
      (buildFlush worker env txn.heal) :=
  (heals_applyActions _ _ _ _).bind fun ⟨_, _⟩ => heals_ok _ _ _

theorem heals_buildMutable (worker : Worker) (env : Env) (point : Point)
    (ops : List StorageAction) (txn : Txn Key Value) :
    Heals .restart (Prod.map WorkTxn.heal id) (buildMutable worker env point ops txn)
      (buildMutable worker env point ops txn.heal) := by
  refine (heals_applyLeftover worker env ⟨txn, none⟩).bind fun work => ?_
  refine (heals_applyBlock worker env work point ops).bind fun ⟨work, inverseOps⟩ => ?_
  refine (heals_initRollbackMetadata worker work).bind fun work => ?_
  exact (heals_storeRollbackMetadata worker work point inverseOps).bind fun work =>
    heals_ok _ _ _

theorem heals_buildRollBack (worker : Worker) (point : Point) (txn : Txn Key Value) :
    Heals .restart (Prod.map WorkTxn.heal id) (buildRollBack worker point txn)
      (buildRollBack worker point txn.heal) := by
  unfold buildRollBack
  split
  · exact heals_error _ _ _
  · refine (heals_applyActions _ _ _ _).bind fun ⟨work, inverses⟩ => ?_
    exact (heals_trimPersistentRollbackMetadata _ _ _ _).bind fun work => heals_ok _ _ _

/-! ## Whole units of work -/

theorem settle_of_fault (hredis : Fault.failCall fault = none) (world : World) (env : Env)
    (point : Point) (ts : Option ℕ) (advertise : Option Bool) (work : WorkTxn)
    (verifyPoint : Option Point) (finish : Worker → Except WorkError Worker) :
    world.settle env fault point ts advertise work verifyPoint finish =
      world.settle env none point ts advertise work.heal verifyPoint finish := by
  simp only [settle, hredis]
  rfl

theorem transact_of_fault (hredis : Fault.failCall fault = none) (world : World) (env : Env)
    (unit : StorageActionPayload) {build : Txn Key Value → Except WorkError (WorkTxn × α)}
    (hbuild : ∀ txn, Heals .restart (Prod.map WorkTxn.heal id) (build txn) (build txn.heal))
    (point : Point) (advertise : Option Bool) (verifyPoint : Option Point)
    (finish : α → Worker → Except WorkError Worker) :
    world.transact env fault unit build (fun world ts work result =>
        world.settle env fault point ts advertise work verifyPoint (finish result)) =
      (world.lock unit, .error .restart) ∨
    world.transact env fault unit build (fun world ts work result =>
        world.settle env fault point ts advertise work verifyPoint (finish result)) =
      world.transact env none unit build (fun world ts work result =>
        world.settle env none point ts advertise work verifyPoint (finish result)) := by
  have hheals := hbuild (Txn.start world.tikv.store (Fault.failRead fault))
  rw [Txn.heal_start] at hheals
  unfold transact
  by_cases hbegin : fault = some .begin
  · exact Or.inl (by rw [if_pos hbegin])
  · rw [if_neg hbegin, if_neg (by simp)]
    rcases hheals with hrestart | hsame
    · exact Or.inl (by rw [hrestart])
    · rw [show Fault.failRead none = none from rfl, hsame]
      cases build (Txn.start world.tikv.store (Fault.failRead fault)) with
      | error e => exact Or.inr rfl
      | ok built =>
        by_cases hcommit : fault = some .commit
        · exact Or.inl (if_pos hcommit)
        · refine Or.inr ((if_neg hcommit).trans ?_)
          exact (settle_of_fault hredis ..).trans (if_neg (by simp)).symm

end World

def needsTxn (worker : Worker) : StorageActionPayload → Bool
  | .rollForward _ outputs false =>
    worker.syncBatcher.shouldFlush (storageOps worker.keyEncoder 0 outputs)
  | .rollForward _ _ true | .rollBack _ => true

theorem shouldFlush_storageOps (batcher : SyncBatcher) (enc : KeyEncoder) (now now' : U64)
    (outputs : List ReducerOutput) :
    batcher.shouldFlush (storageOps enc now outputs) =
      batcher.shouldFlush (storageOps enc now' outputs) := by
  have hsize : (storageOps enc now outputs).map StorageAction.size =
      (storageOps enc now' outputs).map StorageAction.size := by
    simp only [storageOps, List.map_flatMap]
    congr 1
    funext output
    cases output with
    | data ops => rfl
    | cursor point height =>
      cases point with
      | origin => rfl
      | specific slot hash =>
        simp [reducerOutputToStorageOps, StorageAction.size, encodeInfoValue]
  rw [SyncBatcher.shouldFlush, SyncBatcher.shouldFlush, hsize]

namespace World

theorem execute_of_fault (world : World) (env : Env) (hredis : Fault.failCall fault = none)
    (unit : StorageActionPayload) :
    (needsTxn world.worker unit = true ∧
      world.execute env fault unit = (world.lock unit, .error .restart)) ∨
    world.execute env fault unit = world.execute env none unit := by
  cases unit with
  | rollBack point =>
    refine Or.imp_left (fun h => ⟨rfl, h⟩) ?_
    exact transact_of_fault hredis world env _ (heals_buildRollBack _ _) _ _ _ _
  | rollForward point outputs isMutable =>
    cases isMutable with
    | true =>
      refine Or.imp_left (fun h => ⟨rfl, h⟩) ?_
      exact transact_of_fault hredis world env _ (heals_buildMutable _ _ _ _) _ _ _ _
    | false =>
      simp only [execute, executeImmutable]
      cases hflush : world.worker.syncBatcher.shouldFlush
          (storageOps world.worker.keyEncoder env.now outputs) with
      | false => exact Or.inr rfl
      | true =>
        have hneeds : needsTxn world.worker (.rollForward point outputs false) = true :=
          (shouldFlush_storageOps ..).trans hflush
        refine Or.imp_left (fun h => ⟨hneeds, h⟩) ?_
        exact transact_of_fault hredis world env _ (heals_buildFlush _ _) _ _ _ _

theorem execute_lock {world : World} {unit : StorageActionPayload}
    (hneeds : needsTxn world.worker unit = true) (env : Env) :
    (world.lock unit).execute env none unit = world.execute env none unit := by
  cases unit with
  | rollBack point => rfl
  | rollForward point outputs isMutable =>
    cases isMutable with
    | true => rfl
    | false =>
      have hflush : world.worker.syncBatcher.shouldFlush
          (storageOps world.worker.keyEncoder env.now outputs) = true :=
        (shouldFlush_storageOps ..).trans hneeds
      have hlocked : (world.lock (.rollForward point outputs false)).worker.syncBatcher.shouldFlush
          (storageOps (world.lock (.rollForward point outputs false)).worker.keyEncoder env.now
            outputs) = true := hflush
      simp only [execute, executeImmutable, if_pos hflush, if_pos hlocked]
      rfl

end World

/-! ## Redis failures -/

def Unsettled (world world' : World) : Prop :=
  world'.verifications = world.verifications ∧
    ∃ locked registered, world'.worker =
      { world.worker with workUnit2pc := locked, registered := registered }

namespace World

theorem unsettled_lock (world : World) (unit : StorageActionPayload) :
    Unsettled world (world.lock unit) := ⟨rfl, _, _, rfl⟩

theorem callRedis_cases (world : World) (n : ℕ) (calls : List RedisCall) :
    (∃ world', world.callRedis (some n) calls = (world', .error .restart) ∧
      Unsettled world world') ∨
    ∃ m, world.callRedis (some n) calls = ((world.callRedis none calls).1, .ok (some m)) := by
  unfold callRedis
  simp only
  split
  · exact Or.inl ⟨_, rfl, rfl, _, _, rfl⟩
  · exact Or.inr ⟨_, rfl⟩

theorem insertTimestampEntry_cases (world : World) (point : Point) (ts : Option ℕ) (n : ℕ) :
    (∃ world', world.insertTimestampEntry point ts (some n) = (world', .error .restart) ∧
      Unsettled world world') ∨
    ∃ m, world.insertTimestampEntry point ts (some n) =
      ((world.insertTimestampEntry point ts none).1, .ok (some m)) := by
  cases point with
  | origin => exact Or.inr ⟨n, rfl⟩
  | specific slot hash =>
    cases ts with
    | none => exact Or.inr ⟨n, rfl⟩
    | some ts => exact callRedis_cases world n _

theorem maybeAdvertise_cases (world : World) (isMutable : Bool) (slot : U64) (n : ℕ) :
    (∃ world', world.maybeAdvertise isMutable slot (some n) = (world', .error .restart) ∧
      Unsettled world world') ∨
    ∃ m, world.maybeAdvertise isMutable slot (some n) =
      ((world.maybeAdvertise isMutable slot none).1, .ok (some m)) := by
  unfold maybeAdvertise
  split
  · exact Or.inr ⟨n, rfl⟩
  · split
    · exact Or.inr ⟨n, rfl⟩
    · rcases callRedis_cases { world with worker := { world.worker with registered := true } } n
        (registryCalls world.worker slot) with ⟨world', hcall, hverif, _, _, hworker⟩ | hok
      · exact Or.inl ⟨world', hcall, hverif, _, _, hworker⟩
      · exact Or.inr hok

theorem publish_cases (world : World) (point : Point) (ts : Option ℕ) (advertise : Option Bool)
    (n : ℕ) :
    (∃ world', world.publish point ts advertise (some n) = (world', .error .restart) ∧
      Unsettled world world') ∨
    world.publish point ts advertise (some n) = world.publish point ts advertise none := by
  have hnone := insertTimestampEntry_none world point ts
  unfold publish
  rcases insertTimestampEntry_cases world point ts n with ⟨world', hcall, hunsettled⟩ | ⟨m, hcall⟩
  · exact Or.inl ⟨world', by rw [hcall], hunsettled⟩
  · rw [hcall, hnone]
    cases advertise with
    | none => exact Or.inr rfl
    | some isMutable =>
      simp only
      rcases maybeAdvertise_cases { world with
          redis := world.redis ++ publishCalls world.worker point ts none } isMutable
          point.slotOrDefault m with ⟨world', hadvertise, hunsettled⟩ | ⟨m', hadvertise⟩
      · exact Or.inl ⟨world', by rw [hadvertise], hunsettled⟩
      · refine Or.inr ?_
        rw [hadvertise, maybeAdvertise_none]

theorem transact_of_redis (n : ℕ) (world : World) (env : Env) (unit : StorageActionPayload)
    (build : Txn Key Value → Except WorkError (WorkTxn × α)) (point : Point)
    (advertise : Option Bool) (verifyPoint : Option Point)
    (finish : α → Worker → Except WorkError Worker) :
    Unsettled world (world.transact env (some (.redis n)) unit build (fun world ts work result =>
        world.settle env (some (.redis n)) point ts advertise work verifyPoint
          (finish result))).1 ∨
    world.transact env (some (.redis n)) unit build (fun world ts work result =>
        world.settle env (some (.redis n)) point ts advertise work verifyPoint (finish result)) =
      world.transact env none unit build (fun world ts work result =>
        world.settle env none point ts advertise work verifyPoint (finish result)) := by
  simp only [transact, reduceCtorEq, Option.some.injEq, if_false, Fault.failRead]
  cases build (Txn.start world.tikv.store none) with
  | error e => exact Or.inr rfl
  | ok built =>
    simp only [settle, Fault.failCall]
    set committed : World := { world with
      worker := { world.worker with workUnit2pc := none }
      tikv := (world.tikv.commit env.commitGap built.1.txn).2 }
    rcases publish_cases committed point (world.tikv.commit env.commitGap built.1.txn).1
      advertise n with ⟨world', hpublish, hverif, _, _, hworker⟩ | hpublish
    · rw [hpublish]
      exact Or.inl ⟨hverif, _, _, hworker⟩
    · rw [hpublish]
      exact Or.inr rfl

theorem execute_of_any_fault (world : World) (env : Env) (fault : Option Fault)
    (unit : StorageActionPayload) :
    Unsettled world (world.execute env fault unit).1 ∨
      world.execute env fault unit = world.execute env none unit := by
  cases hredis : Fault.failCall fault with
  | none =>
    rcases world.execute_of_fault env hredis unit with ⟨-, hlock⟩ | hsame
    · rw [hlock]
      exact Or.inl (unsettled_lock world unit)
    · exact Or.inr hsame
  | some n =>
    obtain rfl : fault = some (.redis n) := by
      unfold Fault.failCall at hredis
      split at hredis
      · rw [Option.some.inj hredis]
      · cases hredis
    cases unit with
    | rollBack point => exact transact_of_redis ..
    | rollForward point outputs isMutable =>
      cases isMutable with
      | true => exact transact_of_redis ..
      | false =>
        simp only [execute, executeImmutable]
        split
        · exact transact_of_redis ..
        · exact Or.inr rfl

end World

end CardanoIndexer.Polyphony
