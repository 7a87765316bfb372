import CardanoIndexer.Polyphony.WorkerSpec

/-!
# The limits of a batch

`should_flush` is asked before the actions of an immutable block are pushed.
-/

namespace CardanoIndexer.Polyphony

open Timbre

/-! ## Sizes -/

theorem size_merge_le {key : Key} {prev next merged : StorageOp} (h : prev.merge next = .ok merged) :
    StorageAction.size ⟨key, merged⟩ ≤
      StorageAction.size ⟨key, prev⟩ + StorageAction.size ⟨key, next⟩ := by
  cases prev <;> cases next <;> simp only [StorageOp.merge] at h
  all_goals first
    | cases h
    | obtain ⟨sum, -, hsum⟩ := Except.bind_eq_ok.mp h
      cases hsum
    | split at h <;> cases h
  all_goals
    simp only [StorageAction.size]
    omega

namespace SyncBatcher

def mergedBytes (batcher : SyncBatcher) : ℕ :=
  (batcher.getBatchActions.map StorageAction.size).sum

theorem mergedBytes_eq (batcher : SyncBatcher) :
    batcher.mergedBytes =
      batcher.batchActions.sumOf fun entry => StorageAction.size ⟨entry.1, entry.2⟩ := by
  rw [mergedBytes, getBatchActions, List.map_map]
  rfl

theorem pushAction_eq_ok {batcher batcher' : SyncBatcher} {action : StorageAction}
    (h : batcher.pushAction action = .ok batcher') :
    batcher'.mergedBytes ≤ batcher.mergedBytes + action.size ∧
      ∃ batchActions, batcher' =
        { batcher with batchActions, estimatedBytes := batcher.estimatedBytes + action.size } := by
  have hput := batcher.batchActions.sumOf_put
    (fun entry => StorageAction.size ⟨entry.1, entry.2⟩) action.key
  rw [mergedBytes_eq, mergedBytes_eq]
  simp only [pushAction] at h
  cases hget : batcher.batchActions.get action.key with
  | none =>
    rw [hget] at h hput
    cases h
    exact ⟨(hput action.op).le, _, rfl⟩
  | some prev =>
    rw [hget] at h hput
    obtain ⟨merged, hmerged, h⟩ := Except.bind_eq_ok.mp h
    cases h
    have hsize : StorageAction.size ⟨action.key, merged⟩ ≤
        StorageAction.size ⟨action.key, prev⟩ + action.size := size_merge_le hmerged
    have hsum := hput merged
    refine ⟨?_, _, rfl⟩
    dsimp only [Option.elim_some] at hsum ⊢
    omega

theorem foldlM_pushAction_eq_ok {batcher pushed : SyncBatcher} {actions : List StorageAction}
    (h : actions.foldlM pushAction batcher = .ok pushed) :
    pushed.mergedBytes ≤ batcher.mergedBytes + (actions.map StorageAction.size).sum ∧
      ∃ batchActions, pushed =
        { batcher with
          batchActions
          estimatedBytes := batcher.estimatedBytes + (actions.map StorageAction.size).sum } := by
  induction actions generalizing batcher with
  | nil =>
    cases h
    exact ⟨le_rfl, _, rfl⟩
  | cons action rest ih =>
    rw [List.foldlM_cons] at h
    obtain ⟨next, hnext, hrest⟩ := Except.bind_eq_ok.mp h
    obtain ⟨hfirst, batchActions, rfl⟩ := pushAction_eq_ok hnext
    obtain ⟨hle, batchActions', rfl⟩ := ih hrest
    rw [List.map_cons, List.sum_cons, ← Nat.add_assoc, ← Nat.add_assoc]
    exact ⟨hle.trans (Nat.add_le_add_right hfirst _), batchActions', rfl⟩

/-! ## The flush rule -/

structure Within (maxLen maxBytes : ℕ) (batcher : SyncBatcher) : Prop where
  merged : batcher.mergedBytes ≤ batcher.estimatedBytes
  blocks : batcher.currentLen ≤ max 1 maxLen
  bytes : 1 < batcher.currentLen → 2 * batcher.estimatedBytes ≤ maxBytes

def admitting (batcher : SyncBatcher) (ops : List StorageAction) : SyncBatcher :=
  if batcher.shouldFlush ops then batcher.wipe else batcher

variable {batcher batcher' pushed : SyncBatcher} {ops : List StorageAction} {point : Point}

theorem shouldFlush_eq_false_iff : batcher.shouldFlush ops = false ↔
    2 * (batcher.estimatedBytes + (ops.map StorageAction.size).sum) ≤ batcher.maxBytes ∧
      batcher.currentLen < batcher.maxLen := by
  simp only [shouldFlush]
  split_ifs <;> simp <;> omega

theorem room_of_foldlM (hmerged : batcher.mergedBytes ≤ batcher.estimatedBytes)
    {seen rest : List StorageAction} (hops : seen ++ rest = ops)
    (hpushed : seen.foldlM pushAction (batcher.admitting ops) = .ok pushed) :
    pushed.mergedBytes ≤ pushed.estimatedBytes ∧
      pushed.currentLen + 1 ≤ max 1 batcher.maxLen ∧
      (0 < pushed.currentLen → 2 * pushed.estimatedBytes ≤ batcher.maxBytes) := by
  obtain ⟨hle, batchActions, rfl⟩ := foldlM_pushAction_eq_ok hpushed
  rw [admitting] at hle ⊢
  cases hflush : batcher.shouldFlush ops with
  | true =>
    rw [hflush] at hle
    exact ⟨hle, le_max_left .., fun hlen => absurd hlen (lt_irrefl 0)⟩
  | false =>
    rw [hflush] at hle
    obtain ⟨hbytes, hlen⟩ := shouldFlush_eq_false_iff.mp hflush
    refine ⟨hle.trans (Nat.add_le_add_right hmerged _), hlen.trans_le (le_max_right ..), ?_⟩
    rw [← hops, List.map_append, List.sum_append] at hbytes
    intro _
    simp only [Bool.false_eq_true, if_false]
    omega

theorem pushActions_eq_ok (h : batcher.pushActions point ops = .ok batcher') :
    batcher'.currentLen = batcher.currentLen + 1 ∧ batcher'.maxLen = batcher.maxLen ∧
      batcher'.maxBytes = batcher.maxBytes := by
  obtain ⟨pushed, hpushed, hlast⟩ := Except.bind_eq_ok.mp h
  obtain ⟨-, batchActions, rfl⟩ := foldlM_pushAction_eq_ok hpushed
  cases hlast
  exact ⟨rfl, rfl, rfl⟩

theorem within_of_pushActions (hmerged : batcher.mergedBytes ≤ batcher.estimatedBytes)
    (h : (batcher.admitting ops).pushActions point ops = .ok batcher') :
    batcher'.Within batcher.maxLen batcher.maxBytes := by
  obtain ⟨pushed, hpushed, hlast⟩ := Except.bind_eq_ok.mp h
  obtain ⟨hmerged, hlen, hbytes⟩ := room_of_foldlM hmerged (List.append_nil ops) hpushed
  cases hlast
  exact ⟨hmerged, hlen, fun h => hbytes (Nat.lt_of_succ_lt_succ h)⟩

theorem admitting_eq (batcher : SyncBatcher) (ops : List StorageAction) :
    batcher.admitting ops = batcher ∨ batcher.admitting ops = .new batcher.maxLen batcher.maxBytes := by
  rw [admitting]
  cases batcher.shouldFlush ops with
  | true => exact Or.inr rfl
  | false => exact Or.inl rfl

end SyncBatcher

/-! ## Runs of the worker -/

structure BlockInput where
  env : Env
  point : Point
  outputs : List ReducerOutput

namespace BlockInput

def message (block : BlockInput) : Env × StorageActionPayload :=
  (block.env, .rollForward block.point block.outputs false)

def ops (enc : KeyEncoder) (block : BlockInput) : List StorageAction :=
  storageOps enc block.env.now block.outputs

def push (enc : KeyEncoder) (batcher : SyncBatcher) (block : BlockInput) :
    Except WorkError SyncBatcher :=
  batcher.pushActions block.point (block.ops enc)

end BlockInput

variable {world' world : World} {maxBytes maxLen : ℕ}

theorem push_of_step {block : BlockInput} (h : world.step block.message = .ok world') :
    world'.worker.keyEncoder = world.worker.keyEncoder ∧
      block.push world.worker.keyEncoder (world.worker.syncBatcher.admitting
        (block.ops world.worker.keyEncoder)) = .ok world'.worker.syncBatcher := by
  rw [SyncBatcher.admitting]
  rcases World.step_immutable h with
    ⟨hflush, batcher, hpush, rfl⟩ | ⟨hflush, ws, batcher, -, hpush, rfl⟩
  · rw [BlockInput.ops, hflush]
    exact ⟨rfl, hpush⟩
  · rw [BlockInput.ops, hflush]
    exact ⟨by simp, hpush⟩

structure BatchInv (enc : KeyEncoder) (maxLen maxBytes : ℕ) (blocks : List BlockInput)
    (world : World) : Prop where
  encoder : world.worker.keyEncoder = enc
  maxLen_eq : world.worker.syncBatcher.maxLen = maxLen
  maxBytes_eq : world.worker.syncBatcher.maxBytes = maxBytes
  within : world.worker.syncBatcher.Within maxLen maxBytes
  holds : ∃ flushed batch, blocks = flushed ++ batch ∧
    Run.run (BlockInput.push enc) (.new maxLen maxBytes) batch = .ok world.worker.syncBatcher ∧
    world.worker.syncBatcher.currentLen = batch.length

theorem BatchInv.step {enc : KeyEncoder} {blocks : List BlockInput}
    (h : BatchInv enc maxLen maxBytes blocks world) {block : BlockInput}
    (hstep : world.step block.message = .ok world') :
    BatchInv enc maxLen maxBytes (blocks ++ [block]) world' := by
  obtain ⟨hencoder, hpush⟩ := push_of_step hstep
  rw [h.encoder] at hencoder hpush
  have hwithin := SyncBatcher.within_of_pushActions h.within.merged hpush
  obtain ⟨hlen, hmaxLen, hmaxBytes⟩ := SyncBatcher.pushActions_eq_ok hpush
  rw [h.maxLen_eq, h.maxBytes_eq] at hwithin
  rcases world.worker.syncBatcher.admitting_eq (block.ops enc) with hsame | hfresh
  · rw [hsame] at hlen hmaxLen hmaxBytes hpush
    obtain ⟨flushed, batch, rfl, hrun, hbatch⟩ := h.holds
    refine ⟨hencoder, hmaxLen.trans h.maxLen_eq, hmaxBytes.trans h.maxBytes_eq, hwithin,
      flushed, batch ++ [block], List.append_assoc .., ?_, ?_⟩
    · exact (Run.run_concat_eq_ok _).mpr ⟨_, hrun, hpush⟩
    · rw [hlen, hbatch, List.length_append, List.length_singleton]
  · rw [hfresh, h.maxLen_eq, h.maxBytes_eq] at hlen hmaxLen hmaxBytes hpush
    refine ⟨hencoder, hmaxLen, hmaxBytes, hwithin, blocks, [block], rfl, ?_, hlen⟩
    rw [Run.run_cons, hpush]
    rfl

theorem batchInv_of_run (hnew : world.worker.syncBatcher = .new maxLen maxBytes)
    {blocks : List BlockInput}
    (hrun : Run.run World.step world (blocks.map BlockInput.message) = .ok world') :
    BatchInv world.worker.keyEncoder maxLen maxBytes blocks world' := by
  induction blocks using List.reverseRecOn generalizing world' with
  | nil =>
    cases hrun
    refine ⟨rfl, by rw [hnew]; rfl, by rw [hnew]; rfl, ?_, [], [], rfl, by rw [hnew]; rfl, ?_⟩
    · rw [hnew]
      exact ⟨le_rfl, Nat.zero_le _, fun h => absurd h (Nat.not_lt_zero 1)⟩
    · rw [hnew]
      rfl
  | append_singleton past block ih =>
    rw [List.map_append, List.map_singleton] at hrun
    obtain ⟨mid, hmid, hstep⟩ := (Run.run_concat_eq_ok _).mp hrun
    exact (ih hmid).step hstep

/-- **Batches respect their limits**, whatever immutable blocks the worker is given. -/
theorem batches_respect_limits {world world' : World} {maxLen maxBytes : ℕ}
    (hnew : world.worker.syncBatcher = .new maxLen maxBytes) {blocks : List BlockInput}
    (hrun : Run.run World.step world (blocks.map BlockInput.message) = .ok world') :
    let enc := world.worker.keyEncoder
    let batcher := world'.worker.syncBatcher
    (∃ flushed batch, blocks = flushed ++ batch ∧
      Run.run (BlockInput.push enc) (.new maxLen maxBytes) batch = .ok batcher ∧
      batcher.currentLen = batch.length) ∧
    batcher.Within maxLen maxBytes ∧
    ∀ (next : BlockInput) (seen rest pushed), seen ++ rest = next.ops enc →
      seen.foldlM SyncBatcher.pushAction (batcher.admitting (next.ops enc)) = .ok pushed →
        pushed.Within maxLen maxBytes := by
  have hinv := batchInv_of_run hnew hrun
  refine ⟨hinv.holds, hinv.within, fun next seen rest pushed hops hpushed => ?_⟩
  obtain ⟨hmerged, hlen, hbytes⟩ := SyncBatcher.room_of_foldlM hinv.within.merged hops hpushed
  rw [hinv.maxLen_eq] at hlen
  rw [hinv.maxBytes_eq] at hbytes
  exact ⟨hmerged, (Nat.le_succ _).trans hlen, fun h => hbytes (Nat.zero_lt_one.trans h)⟩

def limitBlocks : List BlockInput :=
  (List.range 3).map fun n =>
    ⟨.plain, .specific n (Vector.replicate 32 0), [.data [⟨7, [1], .set [1, 2]⟩]]⟩

theorem batches_respect_limits_three :
    ∃ world', Run.run World.step (sampleWorld none) (limitBlocks.map BlockInput.message) =
        .ok world' ∧
      world'.worker.syncBatcher.currentLen = 1 ∧
      world'.worker.syncBatcher.Within 2 4000000 := by
  have hrun : Run.run World.step (sampleWorld none) (limitBlocks.map BlockInput.message) = .ok _ :=
    Except.eq_ok_get (by decide +kernel)
  exact ⟨_, hrun, by decide +kernel, (batches_respect_limits rfl hrun).2.1⟩

end CardanoIndexer.Polyphony
