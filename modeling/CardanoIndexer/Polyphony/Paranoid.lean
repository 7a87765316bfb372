import CardanoIndexer.Polyphony.Faults
import CardanoIndexer.Polyphony.Rewinding

/-!
# What paranoid mode verifies
-/

namespace CardanoIndexer.Polyphony

open Timbre Run

def Verification.Covers (verification : Verification) : Prop :=
  ∀ k v, SortedMap.lastWrite k verification.committed = some v →
    ∃ operations, verification.operations = some operations ∧
      SortedMap.lastWrite k operations = some v

def nothingToCollect (worker : Worker) (store : Store) : Point → Bool
  | .origin => true
  | .specific bSlot _ =>
    (gcWrites worker.keyEncoder store bSlot).isEmpty &&
      (!worker.rollbackBuffer.isEmpty ||
        match worker.lastProcessed with
        | some (.specific lastSlot _) => bSlot.toNat ≤ lastSlot.toNat + retainedSlots
        | _ => true)

def mutableTracked (world : World) (attempt : Env × Option Fault × StorageActionPayload) : Bool :=
  match attempt.2.2 with
  | .rollForward point _ true =>
    world.worker.syncBatcher.isEmpty &&
      nothingToCollect world.worker world.tikv.store point
  | _ => true

def World.attempt (world : World) (attempt : Env × Option Fault × StorageActionPayload) :
    Except WorkError World :=
  .ok (world.execute attempt.1 attempt.2.1 attempt.2.2).1

variable {w : MutableWrites} {worker : Worker} {store : Store}

theorem indexKey_of_mem_block {env : Env} {point : Point} {outputs : List ReducerOutput}
    (h : w.Built worker env point (storageOps worker.keyEncoder env.now outputs) store) {k : Key}
    (hk : k ∈ w.block.map Prod.fst) : worker.keyEncoder.IndexKey k := by
  obtain ⟨a, ha, rfl⟩ := h.exists_mem_of_mem_block hk
  exact indexKey_of_mem_storageOps ha

theorem MutableWrites.Built.gc_eq_nil {env : Env} {point : Point} {outputs : List ReducerOutput}
    (h : w.Built worker env point (storageOps worker.keyEncoder env.now outputs) store)
    (hempty : worker.syncBatcher.isEmpty = true)
    (hnothing : nothingToCollect worker store point = true) : w.gc = [] := by
  rw [h.gc]
  cases point with
  | origin => rfl
  | specific bSlot bHash =>
    rw [nothingToCollect, Bool.and_eq_true, List.isEmpty_iff] at hnothing
    obtain ⟨hstore, hmarker⟩ := hnothing
    by_cases hretained : retainedSlots ≤ bSlot.toNat
    · simp only [blockGc, gcWrites, if_pos hretained, rangeDeletes, List.map_eq_nil_iff]
        at hstore ⊢
      rw [List.eq_nil_iff_forall_not_mem] at hstore ⊢
      intro k hk
      obtain ⟨hsome, hlow, hhigh⟩ := SortedMap.mem_scanKeys.mp hk
      have hplane := KeyEncoder.rollbackPrefix_isPrefix_of_mem_range hlow hhigh
      by_cases hmem : k ∈ (w.leftover ++ (w.block ++ (w.init ++ w.entries))).map Prod.fst
      · rw [h.leftover_eq_nil hempty, List.nil_append, List.map_append, List.mem_append] at hmem
        rcases hmem with hblock | hown
        · exact KeyEncoder.not_indexKey_of_rollbackPrefix hplane (indexKey_of_mem_block h hblock)
        · refine h.not_collected hretained (fun lastSlot lastHash hbuffer hlast => ?_) hown hhigh
          rw [hbuffer, hlast] at hmarker
          simpa using hmarker
      · rw [SortedMap.get_applyWrites_of_not_mem hmem] at hsome
        exact hstore k (SortedMap.mem_scanKeys.mpr ⟨hsome, hlow, hhigh⟩)
    · simp only [blockGc, gcWrites, if_neg hretained]

/-! ## The invariant -/

structure ParanoidInv (world : World) : Prop where
  paranoid : world.worker.paranoidMode = true
  pointed : world.worker.syncBatcher.lastPoint = none → world.worker.syncBatcher.isEmpty = true
  restoring : RestoringBuffer world.worker.rollbackBuffer
  covered : ∀ verification ∈ world.verifications, verification.Covers

variable {world : World} {env : Env} {point : Point} {outputs : List ReducerOutput}

theorem ParanoidInv.unsettled {world' : World} (h : ParanoidInv world)
    (hunsettled : Unsettled world world') : ParanoidInv world' := by
  obtain ⟨hverif, locked, registered, hworker⟩ := hunsettled
  refine ⟨?_, ?_, ?_, ?_⟩
  · rw [hworker]
    exact h.paranoid
  · rw [hworker]
    exact h.pointed
  · rw [hworker]
    exact h.restoring
  · rw [hverif]
    exact h.covered

theorem ParanoidInv.afterCommit {work : WorkTxn} {verifyPoint : Option Point}
    (h : ParanoidInv world)
    (hcovers : Verification.Covers
      ⟨work.txn.mutations, World.handed world.worker work verifyPoint⟩)
    (env : Env) (point : Point) (advertise : Option Bool) :
    ParanoidInv (world.afterCommit env point advertise work verifyPoint) := by
  refine ⟨?_, ?_, ?_, ?_⟩
  · rw [World.afterCommit_worker]
    exact h.paranoid
  · rw [World.afterCommit_worker]
    exact h.pointed
  · rw [World.afterCommit_worker]
    exact h.restoring
  · rw [World.afterCommit_verifications, if_pos h.paranoid]
    intro verification hmem
    rcases List.mem_append.mp hmem with hold | hnew
    · exact h.covered verification hold
    · rw [List.mem_singleton.mp hnew]
      exact hcovers

theorem covers_self {committed operations : Writes} (h : committed = operations) :
    Verification.Covers ⟨committed, some operations⟩ :=
  fun _ _ hlast => ⟨operations, rfl, h ▸ hlast⟩

theorem lastPoint_pushActions {batcher batcher' : SyncBatcher} {actions : List StorageAction}
    (h : batcher.pushActions point actions = .ok batcher') : batcher'.lastPoint = some point := by
  obtain ⟨pushed, -, hlast⟩ := Except.bind_eq_ok.mp h
  cases hlast
  rfl

theorem ParanoidInv.immutable (h : ParanoidInv world) :
    ParanoidInv (world.execute env none (.rollForward point outputs false)).1 := by
  simp only [World.execute, World.executeImmutable]
  split
  case isFalse =>
    split
    case h_1 => exact h
    case h_2 batcher hpush =>
      exact ⟨h.paranoid, fun hnone => by simp [lastPoint_pushActions hpush] at hnone,
        h.restoring, h.covered⟩
  case isTrue =>
    rw [World.transact_settle_none]
    split
    case h_1 => exact h.unsettled (World.unsettled_lock world _)
    case h_2 work result hbuild =>
      rw [World.buildFlush_eq] at hbuild
      obtain ⟨ws, hws, hwork⟩ := Except.bind_eq_ok.mp hbuild
      cases hwork
      have hcovers : Verification.Covers ⟨(world.flushWork ws).txn.mutations,
          World.handed world.worker (world.flushWork ws) world.worker.syncBatcher.lastPoint⟩ := by
        cases hlast : world.worker.syncBatcher.lastPoint with
        | some tip =>
          simp only [World.handed, World.flushWork, h.paranoid, if_true, Option.isSome_some,
            and_self]
          exact covers_self rfl
        | none =>
          -- an empty batch commits nothing
          rw [World.batchWrites, SyncBatcher.arrange_of_isEmpty (h.pointed hlast)] at hws
          cases hws
          intro k v hwrite
          cases hwrite
      have hafter := h.afterCommit hcovers env point (some false)
      split
      case h_1 => exact hafter
      case h_2 worker hfinish =>
        obtain ⟨batcher, hpush, hworker⟩ := Except.bind_eq_ok.mp hfinish
        cases hworker
        exact ⟨hafter.paranoid, fun hnone => by simp [lastPoint_pushActions hpush] at hnone,
          hafter.restoring, hafter.covered⟩

theorem ParanoidInv.mutable (h : ParanoidInv world)
    (hempty : world.worker.syncBatcher.isEmpty = true)
    (hnothing : nothingToCollect world.worker world.tikv.store point = true) :
    ParanoidInv (world.execute env none (.rollForward point outputs true)).1 := by
  simp only [World.execute, World.executeMutable, World.transact_settle_none]
  split
  case h_1 => exact h.unsettled (World.unsettled_lock world _)
  case h_2 work inverseOps hbuild =>
    obtain ⟨w, hbuilt, rfl, rfl⟩ := buildMutable_eq_ok_iff.mp hbuild
    have hall : w.all = w.tracked := by
      rw [MutableWrites.all, MutableWrites.tracked, hbuilt.leftover_eq_nil hempty,
        hbuilt.gc_eq_nil hempty hnothing, List.nil_append, List.append_nil]
    have hcovers : Verification.Covers ⟨(w.work world.worker world.tikv.store).txn.mutations,
        World.handed world.worker (w.work world.worker world.tikv.store) (some point)⟩ := by
      simp only [World.handed, MutableWrites.work, h.paranoid, if_true, Option.isSome_some,
        and_self]
      exact covers_self hall
    have hafter := h.afterCommit hcovers env point (some true)
    refine ⟨hafter.paranoid, ?_, restoringBuffer_mutable h.restoring _ _ _, hafter.covered⟩
    intro _
    simp only [World.finishMutable]
    split
    case isTrue hstill => exact hstill
    case isFalse => rfl

theorem ParanoidInv.rollBack (h : ParanoidInv world) :
    ParanoidInv (world.execute env none (.rollBack point)).1 := by
  simp only [World.execute, World.executeRollBack, World.transact_settle_none]
  split
  case h_1 => exact h.unsettled (World.unsettled_lock world _)
  case h_2 work result hbuild =>
    obtain ⟨-, blocks, -, rfl⟩ := (buildRollBack_eq_ok_iff h.restoring).mp hbuild
    have hcovers : Verification.Covers
        ⟨(rollBackWork world.worker point world.tikv.store blocks).txn.mutations,
          World.handed world.worker (rollBackWork world.worker point world.tikv.store blocks)
            (some point)⟩ := by
      simp only [World.handed, rollBackWork, h.paranoid, if_true, Option.isSome_some, and_self]
      exact covers_self rfl
    have hafter := h.afterCommit hcovers env point none
    split
    case h_1 => exact hafter
    case h_2 worker hfinish =>
      unfold World.finishRollBack at hfinish
      split at hfinish
      case h_1 => cases hfinish
      case h_2 hbuffer =>
        cases hfinish
        exact ⟨hafter.paranoid, hafter.pointed, restoringBuffer_rollBack hbuffer hafter.restoring,
          hafter.covered⟩

/-- If no batch is left over, every key of every commit is verified with its final value. -/
theorem verifications_cover_commits (world₀ world : World)
    (attempts : List (Env × Option Fault × StorageActionPayload))
    (hparanoid : world₀.worker.paranoidMode = true)
    (hpointed : world₀.worker.syncBatcher.lastPoint = none →
      world₀.worker.syncBatcher.isEmpty = true)
    (hrestoring : RestoringBuffer world₀.worker.rollbackBuffer)
    (hverifications : world₀.verifications = [])
    (htracked : meets World.attempt mutableTracked world₀ attempts = true)
    (hrun : run World.attempt world₀ attempts = .ok world) :
    ∀ verification ∈ world.verifications, ∀ k v,
      SortedMap.lastWrite k verification.committed = some v →
        ∃ operations, verification.operations = some operations ∧
          SortedMap.lastWrite k operations = some v := by
  have hinv : ParanoidInv world := by
    refine invariant_of_meets (I := fun _ mid => ParanoidInv mid) ?_ ?_ htracked hrun
    · exact ⟨hparanoid, hpointed, hrestoring, by simp [hverifications]⟩
    · rintro past mid ⟨env, fault, unit⟩ world' - hmid hcond hattempt
      cases hattempt
      rcases mid.execute_of_any_fault env fault unit with hunsettled | hsame
      · exact hmid.unsettled hunsettled
      · simp only [hsame]
        cases unit with
        | rollBack point => exact hmid.rollBack
        | rollForward point outputs isMutable =>
          cases isMutable with
          | false => exact hmid.immutable
          | true =>
            rw [mutableTracked, Bool.and_eq_true] at hcond
            exact hmid.mutable hcond.1 hcond.2
  exact hinv.covered

def sampleParanoidAttempts : List (Env × Option Fault × StorageActionPayload) :=
  [(.plain, none, sampleBlock 20 2 [⟨7, [1], .set [5]⟩] true),
    (.plain, some .commit, sampleBlock 30 3 [⟨7, [1], .delete⟩] true),
    (.plain, none, sampleBlock 30 3 [⟨7, [1], .delete⟩] true),
    (.plain, none, .rollBack (samplePoint 20 2)),
    (.plain, none, sampleBlock 30 4 [⟨7, [2], .incrementU64 4⟩] false),
    (.plain, none, sampleBlock 40 5 [] false),
    (.plain, none, sampleBlock 50 6 [] false)]

theorem verifications_cover_commits_sample :
    ∃ world, run World.attempt (sampleWorld none) sampleParanoidAttempts = .ok world ∧
      world.verifications.length = 4 ∧
      ∀ verification ∈ world.verifications, ∀ k v,
        SortedMap.lastWrite k verification.committed = some v →
          ∃ operations, verification.operations = some operations ∧
            SortedMap.lastWrite k operations = some v := by
  have hblocks : (sampleWorld none).worker.rollbackBuffer.blocks = [] := rfl
  exact ⟨_, Except.eq_ok_get (by decide +kernel), by decide +kernel,
    verifications_cover_commits (sampleWorld none) _ sampleParanoidAttempts rfl (fun _ => rfl)
      (by simp [RestoringBuffer, hblocks]) rfl (by decide +kernel) (Except.eq_ok_get _)⟩

/-- The key of the block left in the batcher is committed but not verified. -/
theorem leftover_batch_not_verified :
    ∃ world verification,
      run World.step (sampleWorld none)
        [(.plain, sampleBlock 10 1 [⟨7, [1], .set [5]⟩] false),
          (.plain, sampleBlock 20 2 [] true)] = .ok world ∧
      verification ∈ world.verifications ∧
      SortedMap.lastWrite [1, 2, prefixData, 7, 1] (Verification.committed verification) =
        some (some [5]) ∧
      verification.operations.map (SortedMap.lastWrite [1, 2, prefixData, 7, 1]) =
        some none :=
  ⟨_, _, Except.eq_ok_get (by decide +kernel), List.head_mem (by decide +kernel),
    by decide +kernel, by decide +kernel⟩

end CardanoIndexer.Polyphony
