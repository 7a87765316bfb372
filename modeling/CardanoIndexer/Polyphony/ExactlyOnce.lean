import CardanoIndexer.Polyphony.Faults

/-!
# Processing every message exactly once
-/

namespace CardanoIndexer.Polyphony

open Timbre Run

structure Node where
  world : World
  queue : List StorageActionPayload

def World.unlock (world : World) : World :=
  { world with worker := { world.worker with workUnit2pc := none } }

namespace Node

def schedule (node : Node) : Option (StorageActionPayload × List StorageActionPayload) :=
  match node.world.worker.workUnit2pc with
  | some unit => some (unit, node.queue)
  | none =>
    match node.queue with
    | [] => none
    | unit :: queue => some (unit, queue)

def tick (node : Node) (attempt : Env × Option Fault) : Except WorkError Node :=
  match node.schedule with
  | none => .ok node
  | some (unit, queue) =>
    match node.world.execute attempt.1 attempt.2 unit with
    | (_, .error .panic) => .error .panic
    | (world, _) => .ok ⟨world, queue⟩

def pending (node : Node) : List StorageActionPayload :=
  node.world.worker.workUnit2pc.toList ++ node.queue

end Node

/-! ## Updates that only panic -/

def OnlyPanics {α : Type} (x : Except WorkError α) : Prop := ∀ e, x = .error e → e = .panic

variable {α : Type} {node' node : Node}

theorem onlyPanics_ok (a : α) : OnlyPanics (.ok a) := fun _ h => nomatch h

theorem onlyPanics_panic : OnlyPanics (.error .panic : Except WorkError α) :=
  fun _ h => (Except.error.inj h).symm

theorem OnlyPanics.bind {β : Type} {x : Except WorkError α} {f : α → Except WorkError β}
    (hx : OnlyPanics x) (hf : ∀ a, OnlyPanics (f a)) : OnlyPanics (x >>= f) := by
  cases x with
  | error e =>
    rw [hx e rfl]
    exact onlyPanics_panic
  | ok a => exact hf a

theorem onlyPanics_addOrPanic {w : ℕ} (a b : BitVec w) : OnlyPanics (addOrPanic a b) := by
  unfold addOrPanic
  split
  · exact onlyPanics_ok _
  · exact onlyPanics_panic

theorem onlyPanics_merge (prev op : StorageOp) : OnlyPanics (prev.merge op) := by
  unfold StorageOp.merge
  split <;> first
    | exact onlyPanics_ok _
    | exact onlyPanics_panic
    | exact (onlyPanics_addOrPanic _ _).bind fun _ => onlyPanics_ok _
    | (split <;> exact onlyPanics_ok _)

theorem onlyPanics_pushActions (batcher : SyncBatcher) (point : Point)
    (actions : List StorageAction) : OnlyPanics (batcher.pushActions point actions) := by
  have hpush : ∀ (batcher : SyncBatcher) (action : StorageAction),
      OnlyPanics (batcher.pushAction action) := by
    intro batcher action
    simp only [SyncBatcher.pushAction]
    split
    · exact (onlyPanics_merge _ _).bind fun _ => onlyPanics_ok _
    · exact onlyPanics_ok _
  have hfold : OnlyPanics (actions.foldlM SyncBatcher.pushAction batcher) := by
    induction actions generalizing batcher with
    | nil => exact onlyPanics_ok _
    | cons action rest ih =>
      rw [List.foldlM_cons]
      exact (hpush batcher action).bind ih
  exact hfold.bind fun _ => onlyPanics_ok _

variable {fault : Option Fault} {env : Env}

namespace World

variable {unit : StorageActionPayload} {world' world : World}

theorem transact_restart {build : Txn Key Value → Except WorkError (WorkTxn × α)} {point : Point}
    {advertise : Option Bool} {verifyPoint : Option Point}
    {finish : α → Worker → Except WorkError Worker}
    (hfinish : ∀ result worker, OnlyPanics (finish result worker))
    (h : world.transact env none unit build (fun world ts work result =>
        world.settle env none point ts advertise work verifyPoint (finish result)) =
      (world', .error .restart)) : world' = world.lock unit := by
  rw [transact_settle_none] at h
  split at h
  · cases h
    rfl
  · split at h
    case h_1 e hworker =>
      rw [hfinish _ _ e hworker] at h
      cases h
    case h_2 => cases h

theorem execute_restart (h : world.execute env none unit = (world', .error .restart)) :
    needsTxn world.worker unit = true ∧ world' = world.lock unit := by
  cases unit with
  | rollBack point =>
    refine ⟨rfl, transact_restart (fun _ worker => ?_) h⟩
    unfold finishRollBack
    split
    · exact onlyPanics_panic
    · exact onlyPanics_ok _
  | rollForward point outputs isMutable =>
    cases isMutable with
    | true => exact ⟨rfl, transact_restart (fun _ _ => onlyPanics_ok _) h⟩
    | false =>
      simp only [execute, executeImmutable] at h
      cases hflush : world.worker.syncBatcher.shouldFlush
          (storageOps world.worker.keyEncoder env.now outputs) with
      | true =>
        rw [hflush, if_pos rfl] at h
        refine ⟨(shouldFlush_storageOps ..).trans hflush, transact_restart ?_ h⟩
        exact fun _ _ => (onlyPanics_pushActions _ _ _).bind fun _ => onlyPanics_ok _
      | false =>
        rw [hflush, if_neg (by simp)] at h
        cases hpush : world.worker.syncBatcher.pushActions point
            (storageOps world.worker.keyEncoder env.now outputs) with
        | ok batcher =>
          rw [hpush] at h
          cases h
        | error e =>
          rw [hpush, onlyPanics_pushActions _ _ _ e hpush] at h
          cases h

theorem workUnit2pc_step (hunlocked : world.worker.workUnit2pc = none)
    (h : world.step (env, unit) = .ok world') : world'.worker.workUnit2pc = none := by
  cases unit with
  | rollBack point =>
    obtain ⟨work, result, worker, -, hfinish, rfl⟩ := (step_eq_ok_iff rfl).mp h
    rw [afterCommit_worker, finishRollBack] at hfinish
    split at hfinish <;> cases hfinish
    rfl
  | rollForward point outputs isMutable =>
    cases isMutable with
    | true =>
      obtain ⟨w, -, rfl⟩ := step_mutable.mp h
      rw [afterCommit_worker]
      rfl
    | false =>
      rcases step_immutable h with ⟨-, batcher, -, rfl⟩ | ⟨-, ws, batcher, -, -, rfl⟩
      · exact hunlocked
      · rw [afterCommit_worker]

theorem execute_round {result : Except WorkError Unit} (hredis : Fault.failCall fault = none)
    (hunit : ∀ locked, world.worker.workUnit2pc = some locked →
      locked = unit ∧ needsTxn world.worker locked = true)
    (h : world.execute env fault unit = (world', result)) (hresult : result ≠ .error .panic) :
    (needsTxn world.worker unit = true ∧ world' = world.lock unit) ∨
      (world.unlock.step (env, unit) = .ok world' ∧ world'.worker.workUnit2pc = none) := by
  have hunlock : world.unlock.execute env none unit = world.execute env none unit := by
    cases hlock : world.worker.workUnit2pc with
    | none =>
      have hworld : world.unlock = world := by
        rw [unlock, ← hlock]
      rw [hworld]
    | some locked =>
      obtain ⟨rfl, hneeds⟩ := hunit locked hlock
      have hworld : world.unlock.lock locked = world := by
        rw [unlock, lock, ← hlock]
      have hretry := execute_lock (show needsTxn world.unlock.worker locked = true from hneeds) env
      rw [← hretry, hworld]
  rcases world.execute_of_fault env hredis unit with ⟨hneeds, hlock⟩ | hsame
  · rw [hlock] at h
    cases h
    exact Or.inl ⟨hneeds, rfl⟩
  · rw [hsame] at h
    cases result with
    | ok u =>
      have hstep : world.unlock.step (env, unit) = .ok world' := by
        rw [step, hunlock, h]
      exact Or.inr ⟨hstep, workUnit2pc_step rfl hstep⟩
    | error e =>
      cases e with
      | panic => exact absurd rfl hresult
      | restart => exact Or.inl (execute_restart h)

end World

/-! ## Whole runs -/

theorem Node.tick_eq_ok (h : node.tick (env, fault) = .ok node') :
    node' = node ∨ ∃ unit queue world' result, node.pending = unit :: queue ∧
      (∀ locked, node.world.worker.workUnit2pc = some locked → locked = unit) ∧
      node.world.execute env fault unit = (world', result) ∧ result ≠ .error .panic ∧
      node' = ⟨world', queue⟩ := by
  unfold tick at h
  split at h
  case h_1 =>
    cases h
    exact Or.inl rfl
  case h_2 unit queue hschedule =>
    have hunit : node.pending = unit :: queue ∧
        ∀ locked, node.world.worker.workUnit2pc = some locked → locked = unit := by
      unfold schedule at hschedule
      unfold pending
      split at hschedule
      case h_1 locked h2pc =>
        cases hschedule
        rw [h2pc]
        exact ⟨rfl, fun other hother => (Option.some.inj hother).symm⟩
      case h_2 h2pc =>
        split at hschedule
        case h_1 => cases hschedule
        case h_2 next rest hqueue =>
          cases hschedule
          rw [h2pc, hqueue]
          exact ⟨rfl, nofun⟩
    split at h
    case h_1 => cases h
    case h_2 world' result hne hexecute =>
      cases h
      refine Or.inr ⟨unit, queue, world', result, hunit.1, hunit.2, hexecute, ?_, rfl⟩
      rintro rfl
      exact hne rfl

def ExactlyOnce (world₀ : World) (messages : List StorageActionPayload)
    (attempts : List (Env × Option Fault)) (node : Node) : Prop :=
  ∃ processed : List (Env × StorageActionPayload),
    processed.map Prod.snd ++ node.pending = messages ∧
    (processed.map Prod.fst).Sublist (attempts.map Prod.fst) ∧
    run World.step world₀ processed = .ok node.world.unlock

def LockNeeded (node : Node) : Prop :=
  ∀ unit, node.world.worker.workUnit2pc = some unit → needsTxn node.world.worker unit = true

theorem exactlyOnce_tick {world₀ : World} {messages : List StorageActionPayload}
    {past : List (Env × Option Fault)} (hredis : Fault.failCall fault = none)
    (hlock : LockNeeded node) (honce : ExactlyOnce world₀ messages past node)
    (htick : node.tick (env, fault) = .ok node') :
    LockNeeded node' ∧ ExactlyOnce world₀ messages (past ++ [(env, fault)]) node' := by
  obtain ⟨processed, hmessages, henvs, hrun⟩ := honce
  have henvs' : (processed.map Prod.fst).Sublist ((past ++ [(env, fault)]).map Prod.fst) :=
    henvs.trans (by simp)
  rcases Node.tick_eq_ok htick with rfl | ⟨unit, queue, world', result, hpending, hunit, hexecute,
    hresult, rfl⟩
  · exact ⟨hlock, processed, hmessages, henvs', hrun⟩
  · rcases World.execute_round hredis (fun locked h => ⟨hunit locked h, hlock locked h⟩) hexecute
      hresult with ⟨hneeds, rfl⟩ | ⟨hstep, hnone⟩
    · -- the unit is pending as before
      refine ⟨fun locked h2pc => ?_, processed, ?_, henvs', hrun⟩
      · obtain rfl : unit = locked := Option.some.inj h2pc
        cases unit with
        | rollBack point => rfl
        | rollForward point outputs isMutable => cases isMutable <;> exact hneeds
      · rw [← hmessages, hpending]
        rfl
    · -- the unit joins the processed ones
      refine ⟨fun locked h2pc => by simp [hnone] at h2pc, processed ++ [(env, unit)], ?_, ?_, ?_⟩
      · rw [← hmessages, hpending, Node.pending, hnone]
        simp
      · simpa using henvs
      · have hunlock : world'.unlock = world' := by
          rw [World.unlock, ← hnone]
        rw [hunlock]
        exact (run_concat_eq_ok World.step).mpr ⟨_, hrun, hstep⟩

/-- Without failures in Redis calls, every message is processed once or still pending. -/
theorem exactlyOnce_of_no_redis_failure (world₀ : World) (messages : List StorageActionPayload)
    (attempts : List (Env × Option Fault)) (node : Node)
    (hunlocked : world₀.worker.workUnit2pc = none)
    (hredis : ∀ attempt ∈ attempts, Fault.failCall attempt.2 = none)
    (hrun : run Node.tick ⟨world₀, messages⟩ attempts = .ok node) :
    ∃ processed : List (Env × StorageActionPayload),
      processed.map Prod.snd ++ node.pending = messages ∧
      (processed.map Prod.fst).Sublist (attempts.map Prod.fst) ∧
      run World.step world₀ processed = .ok node.world.unlock := by
  have hinv : LockNeeded node ∧ ExactlyOnce world₀ messages attempts node := by
    refine invariant (I := fun past node => (∀ attempt ∈ past, Fault.failCall attempt.2 = none) →
      LockNeeded node ∧ ExactlyOnce world₀ messages past node) (fun _ => ?_) ?_ hrun hredis
    · refine ⟨fun unit h => by simp [hunlocked] at h, [], ?_, List.Sublist.refl _, ?_⟩
      · simp [Node.pending, hunlocked]
      · rw [World.unlock, ← hunlocked]
        rfl
    · intro past mid attempt node' _ hinv htick hpast
      obtain ⟨hlock, honce⟩ := hinv fun a ha => hpast a (List.mem_append_left _ ha)
      exact exactlyOnce_tick (hpast attempt (by simp)) hlock honce htick
  exact hinv.2

def sampleRetryMessages : List StorageActionPayload :=
  [sampleBlock 20 2 [⟨7, [2], .incrementU64 4⟩] true,
    sampleBlock 30 3 [⟨7, [2], .incrementU64 5⟩] true, .rollBack (samplePoint 20 2)]

def sampleRetryAttempts : List (Env × Option Fault) :=
  [(.plain, some .begin), (.plain, none), (.plain, some (.read 0)), (.plain, some .commit),
    (.plain, none), (.plain, some (.read 1)), (.plain, none)]

theorem exactlyOnce_of_no_redis_failure_sample :
    ∃ node, run Node.tick ⟨sampleWorld none, sampleRetryMessages⟩ sampleRetryAttempts = .ok node ∧
      node.pending = [] ∧
      ∃ processed : List (Env × StorageActionPayload),
        processed.map Prod.snd ++ node.pending = sampleRetryMessages ∧
        (processed.map Prod.fst).Sublist (sampleRetryAttempts.map Prod.fst) ∧
        run World.step (sampleWorld none) processed = .ok node.world.unlock :=
  ⟨_, Except.eq_ok_get (by decide +kernel), by decide +kernel,
    exactlyOnce_of_no_redis_failure (sampleWorld none) sampleRetryMessages sampleRetryAttempts _
      rfl (by simp [sampleRetryAttempts, Fault.failCall]) (Except.eq_ok_get _)⟩

def sampleFlushMessages : List StorageActionPayload :=
  [sampleBlock 10 1 [⟨7, [2], .incrementU64 5⟩] false, sampleBlock 20 2 [] false,
    sampleBlock 30 3 [] false, sampleBlock 40 4 [] false]

/-- The fourth block flushes a batch again that the third has flushed. -/
theorem redis_failure_applies_batch_twice :
    ∃ node world,
      run Node.tick ⟨sampleWorld none, sampleFlushMessages⟩
        [(.plain, none), (.plain, none), (.plain, some (.redis 0)), (.plain, none)] = .ok node ∧
      node.pending = [] ∧
      run World.step (sampleWorld none) (sampleFlushMessages.map fun message =>
        (.plain, message)) = .ok world ∧
      node.world.tikv.store.get [1, 2, prefixData, 7, 2] = some (Bytes.toBE 8 10) ∧
      world.tikv.store.get [1, 2, prefixData, 7, 2] = some (Bytes.toBE 8 5) :=
  ⟨_, _, Except.eq_ok_get (by decide +kernel), by decide +kernel,
    Except.eq_ok_get (by decide +kernel), by decide +kernel, by decide +kernel⟩

end CardanoIndexer.Polyphony
