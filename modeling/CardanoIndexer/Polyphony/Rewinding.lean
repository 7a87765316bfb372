import CardanoIndexer.Polyphony.WorkerSpec

/-!
# Rewinding the rollback buffer
-/

namespace CardanoIndexer.Polyphony

open Timbre

/-! ## The buffer with its first point -/

def anchoredBlocks (worker : Worker) : List (PointWithResult (List StorageAction)) :=
  if worker.rollbackBuffer.isEmpty then [⟨worker.lastProcessed.getD .origin, []⟩]
  else worker.rollbackBuffer.blocks

theorem finishMutable_blocks (worker : Worker) (point : Point)
    (inverseOps : List StorageAction) :
    (World.finishMutable worker point inverseOps).rollbackBuffer.blocks =
      (⟨point, inverseOps⟩ :: anchoredBlocks worker).take maxBufferLen := by
  simp only [World.finishMutable, anchoredBlocks, RollbackBuffer.addBlock]
  cases hempty : worker.rollbackBuffer.isEmpty with
  | false => rfl
  | true =>
    have hblocks : worker.rollbackBuffer.blocks = [] := by
      simpa [RollbackBuffer.isEmpty] using hempty
    simp [hblocks, maxBufferLen]

theorem blocks_afterMutable (world : World) (env : Env) (point : Point)
    (advertise : Option Bool) (work : WorkTxn) (verifyPoint : Option Point)
    (inverseOps : List StorageAction) :
    (World.finishMutable (world.afterCommit env point advertise work verifyPoint).worker point
        inverseOps).rollbackBuffer.blocks =
      (⟨point, inverseOps⟩ :: anchoredBlocks world.worker).take maxBufferLen := by
  rw [finishMutable_blocks, World.afterCommit_worker]
  rfl

variable {worker : Worker} {k : Key}

theorem anchoredBlocks_of_ne_nil (h : worker.rollbackBuffer.blocks ≠ []) :
    anchoredBlocks worker = worker.rollbackBuffer.blocks := by
  rw [anchoredBlocks, if_neg (by simpa [RollbackBuffer.isEmpty] using h)]

theorem restores_anchoredBlocks (h : RestoringBuffer worker.rollbackBuffer) :
    ∀ block ∈ anchoredBlocks worker, Restores block.result := by
  intro block hblock
  unfold anchoredBlocks at hblock
  split at hblock
  · rw [List.mem_singleton.mp hblock]
    exact fun a ha => nomatch ha
  · exact h block hblock

/-! ## Rewinding -/

def RewindsTo (P : Point → Store → Prop) (store : Store)
    (blocks : List (PointWithResult (List StorageAction))) : Prop :=
  ∀ before block rest, blocks = before ++ block :: rest →
    P block.point (store.applyWrites (undoWrites (inverseActions before)))

def IndexOnly (enc : KeyEncoder) (P : Point → Store → Prop) : Prop :=
  ∀ point store store', (∀ k, enc.IndexKey k → store'.get k = store.get k) →
    P point store → P point store'

theorem undoWrites_inverseActions_append
    (first second : List (PointWithResult (List StorageAction))) :
    undoWrites (inverseActions (first ++ second)) =
      undoWrites (inverseActions first) ++ undoWrites (inverseActions second) := by
  simp [undoWrites, inverseActions]

section RewindsTo

variable {enc : KeyEncoder} {P Q : Point → Store → Prop} {store store' : Store}
  {blocks : List (PointWithResult (List StorageAction))}

theorem rewindsTo_singleton {block : PointWithResult (List StorageAction)}
    (h : P block.point store) : RewindsTo P store [block] := by
  intro before block' rest hsplit
  cases before with
  | nil =>
    cases hsplit
    exact h
  | cons b bs => simp at hsplit

theorem RewindsTo.mono (h : RewindsTo P store blocks)
    (himp : ∀ block ∈ blocks, ∀ store, P block.point store → Q block.point store) :
    RewindsTo Q store blocks := by
  intro before block rest hsplit
  exact himp block (by simp [hsplit]) _ (h before block rest hsplit)

theorem RewindsTo.take (h : RewindsTo P store blocks) (n : ℕ) :
    RewindsTo P store (blocks.take n) := by
  intro before block rest hsplit
  refine h before block (rest ++ blocks.drop n) ?_
  rw [← List.cons_append, ← List.append_assoc, ← hsplit, List.take_append_drop]

theorem RewindsTo.drop {first : List (PointWithResult (List StorageAction))}
    (h : RewindsTo P store (first ++ blocks)) (hP : IndexOnly enc P)
    (hstore : ∀ k, enc.IndexKey k →
      store'.get k = (store.applyWrites (undoWrites (inverseActions first))).get k) :
    RewindsTo P store' blocks := by
  intro before block rest hsplit
  refine hP _ _ _ (fun k hk => ?_) (h (first ++ before) block rest (by rw [hsplit]; simp))
  rw [undoWrites_inverseActions_append, SortedMap.applyWrites_append]
  exact SortedMap.get_applyWrites_congr (hstore k hk) _

theorem RewindsTo.cons (h : RewindsTo P store blocks) (hP : IndexOnly enc P) {point : Point}
    {inverseOps : List StorageAction} (hnew : P point store')
    (hundo : ∀ k, enc.IndexKey k →
      (store'.applyWrites (undoWrites inverseOps.reverse)).get k = store.get k) :
    RewindsTo P store' (⟨point, inverseOps⟩ :: blocks) := by
  intro before block rest hsplit
  cases before with
  | nil =>
    cases hsplit
    exact hnew
  | cons newest before =>
    obtain ⟨rfl, hblocks⟩ : newest = ⟨point, inverseOps⟩ ∧ blocks = before ++ block :: rest := by
      simpa [eq_comm] using hsplit
    refine hP _ _ _ (fun k hk => ?_) (h before block rest hblocks)
    rw [← List.singleton_append, undoWrites_inverseActions_append,
      SortedMap.applyWrites_append]
    exact SortedMap.get_applyWrites_congr (by simpa [inverseActions] using hundo k hk) _

end RewindsTo

theorem undoWrites_inversesOf (prev : Key → Option Value) (ws : Writes) :
    undoWrites (inversesOf prev ws).reverse =
      (ws.map Prod.fst).reverse.map fun k => (k, prev k) := by
  simp only [undoWrites, inversesOf, List.map_reverse, List.map_map]
  congr 2
  funext w
  simp only [Function.comp]
  cases prev w.1 <;> rfl

theorem get_undo_inversesOf {prev : Key → Option Value} {ws : Writes} {store : Store}
    (h : k ∉ ws.map Prod.fst → store.get k = prev k) :
    (store.applyWrites (undoWrites (inversesOf prev ws).reverse)).get k = prev k := by
  rw [undoWrites_inversesOf, SortedMap.get_applyWrites, SortedMap.lastWrite_map]
  by_cases hk : k ∈ ws.map Prod.fst
  · rw [if_pos (List.mem_reverse.mpr hk), Option.getD_some]
  · rw [if_neg fun hmem => hk (List.mem_reverse.mp hmem), Option.getD_none, h hk]

/-! ## Units of work -/

section Steps

variable {P : Point → Store → Prop} {world : World} {env : Env} {point : Point}
  {advertise : Option Bool} {verifyPoint : Option Point}
  {blocks : List (PointWithResult (List StorageAction))}
  {buffer : RollbackBuffer (List StorageAction)} {ops : List StorageAction} {w : MutableWrites}

theorem get_undo_mutable (hbuilt : w.Built world.worker env point ops world.tikv.store)
    (hk : world.worker.keyEncoder.IndexKey k) :
    ((world.afterCommit env point advertise (w.work world.worker world.tikv.store)
        verifyPoint).tikv.store.applyWrites
          (undoWrites (w.inverses world.tikv.store).reverse)).get k =
      (world.tikv.store.applyWrites w.leftover).get k := by
  refine get_undo_inversesOf fun hnot => ?_
  rw [World.indexed_afterCommit_mutable hbuilt hk]
  exact SortedMap.get_applyWrites_of_not_mem hnot

theorem rewindsTo_mutable (hbuilt : w.Built world.worker env point ops world.tikv.store)
    (hP : IndexOnly world.worker.keyEncoder P)
    (hanchored : RewindsTo P (world.tikv.store.applyWrites w.leftover)
      (anchoredBlocks world.worker))
    (hnew : P point ((world.tikv.store.applyWrites w.leftover).applyWrites w.block)) :
    RewindsTo P (world.afterCommit env point advertise (w.work world.worker world.tikv.store)
        verifyPoint).tikv.store
      ((⟨point, w.inverses world.tikv.store⟩ :: anchoredBlocks world.worker).take
        maxBufferLen) :=
  (hanchored.cons hP (hP _ _ _ (fun _ hk => World.indexed_afterCommit_mutable hbuilt hk) hnew)
    fun _ hk => get_undo_mutable hbuilt hk).take _

theorem restoringBuffer_mutable (hrestoring : RestoringBuffer world.worker.rollbackBuffer)
    (work : WorkTxn) (prev : Key → Option Value) (ws : Writes) :
    RestoringBuffer (World.finishMutable (world.afterCommit env point advertise work
      verifyPoint).worker point (inversesOf prev ws)).rollbackBuffer := by
  intro block hblock
  rw [blocks_afterMutable] at hblock
  rcases List.mem_cons.mp (List.mem_of_mem_take hblock) with rfl | hblock
  · exact restores_inversesOf _ _
  · exact restores_anchoredBlocks hrestoring block hblock

theorem rewindsTo_rollBack
    (hbuffer : world.worker.rollbackBuffer.rollbackToPoint point = .ok (blocks, buffer))
    (hP : IndexOnly world.worker.keyEncoder P)
    (hrewinds : RewindsTo P world.tikv.store world.worker.rollbackBuffer.blocks) (env : Env)
    (advertise : Option Bool) (verifyPoint : Option Point) :
    P point (world.tikv.store.applyWrites (undoWrites (inverseActions blocks))) ∧
      RewindsTo P (world.afterCommit env point advertise
        (rollBackWork world.worker point world.tikv.store blocks) verifyPoint).tikv.store
        buffer.blocks := by
  obtain ⟨hsplit, -, block, rest, hat, rfl⟩ := RollbackBuffer.rollbackToPoint_eq_ok hbuffer
  rw [hsplit] at hrewinds
  refine ⟨hrewinds blocks block rest (by rw [hat]), hrewinds.drop hP fun k hk => ?_⟩
  exact World.indexed_afterCommit_rollBack blocks hk

theorem restoringBuffer_rollBack {buffer' : RollbackBuffer (List StorageAction)}
    (hbuffer : buffer.rollbackToPoint point = .ok (blocks, buffer'))
    (hrestoring : RestoringBuffer buffer) : RestoringBuffer buffer' := by
  obtain ⟨hsplit, -⟩ := RollbackBuffer.rollbackToPoint_eq_ok hbuffer
  intro block hblock
  exact hrestoring block (by rw [hsplit]; exact List.mem_append_right _ hblock)

end Steps

end CardanoIndexer.Polyphony
