import CardanoIndexer.Polyphony.PersistentBuffer

/-!
# The rollback buffer across restarts
-/

namespace CardanoIndexer.Polyphony

open Timbre Run

inductive Lifecycle where
  | message (env : Env) (payload : StorageActionPayload)
  | restart (tooLarge : List (Key × Value) → Bool)

def World.live (world : World) : Lifecycle → Except WorkError World
  | .message env payload => world.step (env, payload)
  | .restart tooLarge => world.restart tooLarge

def Lifecycle.endsWithCursor : Lifecycle → Bool
  | .message _ payload => payload.endsWithCursor
  | .restart _ => true

/-! ## Buffers that undo the same -/

inductive SameUndo : List (PointWithResult (List StorageAction)) →
    List (PointWithResult (List StorageAction)) → Prop
  | nil : SameUndo [] []
  | last (point : Point) (actions actions' : List StorageAction) :
      SameUndo [⟨point, actions⟩] [⟨point, actions'⟩]
  | cons (block : PointWithResult (List StorageAction))
      {blocks blocks' : List (PointWithResult (List StorageAction))}
      (h : SameUndo blocks blocks') : SameUndo (block :: blocks) (block :: blocks')

namespace SameUndo

variable {blocks blocks' : List (PointWithResult (List StorageAction))}

theorem refl (blocks : List (PointWithResult (List StorageAction))) : SameUndo blocks blocks := by
  induction blocks with
  | nil => exact nil
  | cons block rest ih => exact ih.cons block

theorem symm (h : SameUndo blocks blocks') : SameUndo blocks' blocks := by
  induction h with
  | nil => exact nil
  | last point actions actions' => exact last point actions' actions
  | cons block _ ih => exact ih.cons block

theorem points_eq (h : SameUndo blocks blocks') :
    blocks.map PointWithResult.point = blocks'.map PointWithResult.point := by
  induction h with
  | nil => rfl
  | last point actions actions' => rfl
  | cons block _ ih => rw [List.map_cons, List.map_cons, ih]

theorem take (h : SameUndo blocks blocks') (n : ℕ) :
    SameUndo (blocks.take n) (blocks'.take n) := by
  induction h generalizing n with
  | nil => simpa using nil
  | last point actions actions' =>
    cases n with
    | zero => exact nil
    | succ n => simpa using last point actions actions'
  | cons block _ ih =>
    cases n with
    | zero => exact nil
    | succ n => exact (ih n).cons block

theorem drop (h : SameUndo blocks blocks') (n : ℕ) :
    SameUndo (blocks.drop n) (blocks'.drop n) := by
  induction h generalizing n with
  | nil => simpa using nil
  | last point actions actions' =>
    cases n with
    | zero => exact last point actions actions'
    | succ n => simpa using nil
  | cons block h ih =>
    cases n with
    | zero => exact h.cons block
    | succ n => exact ih n

theorem split (h : SameUndo blocks blocks')
    {before rest : List (PointWithResult (List StorageAction))}
    {block : PointWithResult (List StorageAction)} (hsplit : blocks = before ++ block :: rest) :
    ∃ block' rest', blocks' = before ++ block' :: rest' ∧ block'.point = block.point := by
  induction h generalizing before with
  | nil => simp at hsplit
  | last point actions actions' =>
    cases before with
    | nil =>
      cases hsplit
      exact ⟨_, _, rfl, rfl⟩
    | cons head before => simp at hsplit
  | cons head _ ih =>
    cases before with
    | nil =>
      cases hsplit
      exact ⟨_, _, rfl, rfl⟩
    | cons head' before =>
      rw [List.cons_append, List.cons.injEq] at hsplit
      obtain ⟨rfl, hsplit⟩ := hsplit
      obtain ⟨block', rest', hblocks', hpoint⟩ := ih hsplit
      exact ⟨block', rest', by rw [hblocks', List.cons_append], hpoint⟩

theorem rewindsTo {P : Point → Store → Prop} {store : Store} (h : SameUndo blocks blocks')
    (hrewinds : RewindsTo P store blocks) : RewindsTo P store blocks' := by
  intro before block rest hsplit
  obtain ⟨block', rest', hblocks, hpoint⟩ := h.symm.split hsplit
  rw [← hpoint]
  exact hrewinds before block' rest' hblocks

end SameUndo

def persistable (world : World) : Lifecycle → Bool
  | .message env (.rollForward (.specific slot _) outputs true) =>
    (match (anchoredBlocks world.worker).head? with
      | some ⟨.specific tipSlot _, _⟩ => tipSlot ≠ 0 && tipSlot.toNat < slot.toNat
      | _ => false) &&
    ((anchoredBlocks world.worker).take (maxBufferLen - 1)).all (fun block =>
      slot.toNat ≤ block.point.slotOrDefault.toNat + retainedSlots) &&
    (storageOps world.worker.keyEncoder env.now outputs).all fun a =>
      world.tikv.store.get a.key ≠ some []
  | .message _ (.rollForward _ _ _) => false
  | .message _ (.rollBack point) =>
    world.worker.rollbackBuffer.points.head? = some point ||
      world.worker.rollbackBuffer.points.getLast?.all fun oldest =>
        (rangeDeletes world.worker.keyEncoder world.tikv.store none
          (some oldest.slotOrDefault)).isEmpty
  | .restart tooLarge =>
    (rollbackEntries world.worker.keyEncoder world.tikv.store).all fun e => !tooLarge [e]

/-! ## The invariant -/

structure Persists (enc : KeyEncoder) (points : List PersistedPoint) (store : Store)
    (blocks : List (PointWithResult (List StorageAction))) : Prop where
  slots : SlotsDecrease points
  rows : rollbackEntries enc store = persistedRows enc points
  undo : SameUndo blocks ((points.map PersistedPoint.block).take maxBufferLen)
  keys : ∀ p ∈ points, ∀ a ∈ p.actions, ¬ enc.rollbackPrefix <+: a.key

theorem Persists.eq_nil {enc : KeyEncoder} {points : List PersistedPoint} {store : Store}
    {blocks : List (PointWithResult (List StorageAction))} (h : Persists enc points store blocks)
    (hblocks : blocks = []) : points = [] := by
  have hlength := congrArg List.length h.undo.points_eq
  rw [hblocks, List.length_map, List.length_map, List.length_take, List.length_map] at hlength
  have hmax : 0 < maxBufferLen := by decide
  exact List.eq_nil_of_length_eq_zero (by rw [List.length_nil] at hlength; omega)

structure PersistInv (enc : KeyEncoder) (world : World) : Prop where
  encoder : world.worker.keyEncoder = enc
  config : (⟨world.worker.config.dataplaneId, world.worker.config.instanceId⟩ : KeyEncoder) = enc
  batch : world.worker.syncBatcher.isEmpty = true
  restoring : RestoringBuffer world.worker.rollbackBuffer
  rewinds : RewindsTo (CursorNames enc) world.tikv.store world.worker.rollbackBuffer.blocks
  start : world.worker.rollbackBuffer.isEmpty = true →
    lastPoint enc world.tikv.store = .ok world.worker.lastProcessed
  persisted : ∃ points, Persists enc points world.tikv.store world.worker.rollbackBuffer.blocks

def PersistedPoint.init (slot : U64) (hash : Hash) (hslot : slot ≠ 0) : PersistedPoint where
  slot := slot
  hash := hash
  actions := [⟨[], .delete⟩]
  slot_ne := hslot
  actions_ne := List.cons_ne_nil _ _
  fits := by norm_num
  restores := by simp [Restores, StorageOp.restored, StorageOp.restore]
  values := by simp

section Mutable

variable {enc : KeyEncoder} {world world' : World} {env : Env} {slot tipSlot : U64}
  {hash tipHash : Hash} {result : List StorageAction}
  {rest : List (PointWithResult (List StorageAction))} {outputs : List ReducerOutput}
  {w : MutableWrites} {worker : Worker} {p : PersistedPoint} {number : U64}

theorem PersistInv.anchored (h : PersistInv enc world)
    (htip : anchoredBlocks world.worker = ⟨.specific tipSlot tipHash, result⟩ :: rest)
    (hpos : tipSlot ≠ 0) :
    ∃ points, Persists enc points (world.tikv.store.applyWrites (initEntries world.worker))
      (anchoredBlocks world.worker) := by
  obtain ⟨points, hpoints⟩ := h.persisted
  unfold anchoredBlocks initEntries at *
  cases hempty : world.worker.rollbackBuffer.isEmpty with
  | false =>
    simp only [Bool.false_eq_true, if_false]
    exact ⟨points, hpoints⟩
  | true =>
    have hblocks : world.worker.rollbackBuffer.blocks = [] := by
      simpa [RollbackBuffer.isEmpty] using hempty
    simp only [hempty, if_true, List.cons.injEq, PointWithResult.mk.injEq] at htip ⊢
    obtain ⟨⟨hlast, rfl⟩, rfl⟩ := htip
    cases hprocessed : world.worker.lastProcessed with
    | none => simp [hprocessed] at hlast
    | some last =>
      rw [hprocessed, Option.getD_some] at hlast
      subst hlast
      have hnone : points = [] := hpoints.eq_nil hblocks
      subst hnone
      have hslots : SlotsDecrease [PersistedPoint.init tipSlot tipHash hpos] :=
        List.pairwise_singleton ..
      refine ⟨[.init tipSlot tipHash hpos], hslots, ?_, ?_, ?_⟩
      · rw [h.encoder]
        exact rollbackEntries_put hpoints.rows hslots
      · exact SameUndo.last _ _ _
      · simp [PersistedPoint.init, KeyEncoder.rollbackPrefix]

theorem MutableWrites.Built.tracksOn_rollbackPlane {store : Store}
    (h : w.Built worker env (.specific slot hash)
      (storageOps worker.keyEncoder env.now outputs) store)
    (hmarker : ∀ lastSlot lastHash, worker.rollbackBuffer.isEmpty = true →
      worker.lastProcessed = some (.specific lastSlot lastHash) →
        slot.toNat ≤ lastSlot.toNat + retainedSlots) :
    (w.work worker store).TracksOn fun k => worker.keyEncoder.rollbackPrefix <+: k := by
  intro operations hpending k hplane v hlast
  simp only [work] at hpending
  split at hpending
  case isFalse => cases hpending
  case isTrue =>
    cases hpending
    have hall : w.all = w.leftover ++ (w.tracked ++ w.gc) := by simp [all, tracked]
    have hgc : SortedMap.lastWrite k w.gc = none := by
      rw [SortedMap.lastWrite_eq_none_iff]
      intro hcollected
      have hown : k ∈ (w.init ++ w.entries).map Prod.fst := by
        have hmem := List.mem_map_of_mem (f := Prod.fst) (SortedMap.mem_of_lastWrite hlast)
        rw [tracked, List.map_append, List.mem_append] at hmem
        refine hmem.resolve_left fun hblock => ?_
        obtain ⟨a, ha, rfl⟩ := h.exists_mem_of_mem_block hblock
        exact KeyEncoder.not_indexKey_of_rollbackPrefix hplane (indexKey_of_mem_storageOps ha)
      rw [h.gc] at hcollected
      simp only [blockGc, gcWrites] at hcollected
      split at hcollected
      case isFalse => cases hcollected
      case isTrue hretained =>
        obtain ⟨e, he, rfl⟩ := List.mem_map.mp hcollected
        obtain ⟨k, hk, rfl⟩ := List.mem_map.mp he
        exact h.not_collected hretained hmarker hown (SortedMap.mem_scanKeys.mp hk).2.2
    rw [work, Txn.view_writeAll, Txn.view_start, hall, SortedMap.get_applyWrites,
      SortedMap.lastWrite_append, SortedMap.lastWrite_append, hgc, hlast]
    rfl

theorem MutableWrites.Built.exists_persistedPoint {store : Store}
    (h : w.Built worker env (.specific slot hash)
      (storageOps worker.keyEncoder env.now (outputs ++ [.cursor (.specific slot hash) number]))
      store) (hempty : worker.syncBatcher.isEmpty = true) (hslot : slot ≠ 0) {tip : Point}
    (hcursor : CursorAt worker.keyEncoder store tip) (hne : tip ≠ .specific slot hash)
    (hvalues : ∀ a ∈ storageOps worker.keyEncoder env.now
      (outputs ++ [.cursor (.specific slot hash) number]), store.get a.key ≠ some []) :
    ∃ p : PersistedPoint, p.slot = slot ∧ p.hash = hash ∧ p.actions = w.inverses store ∧
      w.entries = (p.rows worker.keyEncoder).map (fun e => (e.1, some e.2)) ∧
      ∀ a ∈ p.actions, ¬ worker.keyEncoder.rollbackPrefix <+: a.key := by
  have hleftover := h.leftover_eq_nil hempty
  have hinverses : w.inverses store = inversesOf store.get w.block := by
    rw [inverses, hleftover, SortedMap.applyWrites_nil]
  obtain ⟨hentries, hlength⟩ := storageRbWrites_eq_rows (restores_inversesOf _ _) (by norm_num)
    h.entries
  have hblock : w.block ≠ [] := by
    intro hnil
    have hnamed := h.cursorAt
    rw [hleftover, hnil, SortedMap.applyWrites_nil, SortedMap.applyWrites_nil, CursorAt,
      hcursor] at hnamed
    exact hne (Option.some.inj (Except.ok.inj hnamed))
  refine ⟨⟨slot, hash, w.inverses store, hslot, ?_, ?_, restores_inversesOf _ _, ?_⟩, rfl, rfl, rfl,
    hentries, ?_⟩
  · rw [hinverses]
    simpa [inversesOf] using hblock
  · rwa [Nat.zero_add] at hlength
  · intro a ha hset
    rw [hinverses] at ha
    obtain ⟨e, he, rfl⟩ := List.mem_map.mp ha
    obtain ⟨b, hb, hkey⟩ := h.exists_mem_of_mem_block (List.mem_map_of_mem he)
    have hvalue := hvalues b hb
    rw [hkey] at hvalue
    cases hget : store.get e.1 with
    | none => simp [hget, StorageOp.restore] at hset
    | some v =>
      simp only [hget, StorageOp.restore, StorageOp.set.injEq] at hset
      exact hvalue (by rw [hget, hset])
  · intro a ha
    change a ∈ w.inverses store at ha
    rw [hinverses] at ha
    obtain ⟨e, he, rfl⟩ := List.mem_map.mp ha
    obtain ⟨b, hb, hkey⟩ := h.exists_mem_of_mem_block (List.mem_map_of_mem he)
    intro hplane
    refine KeyEncoder.not_indexKey_of_rollbackPrefix hplane ?_
    change worker.keyEncoder.IndexKey e.1
    rw [← hkey]
    exact indexKey_of_mem_storageOps hb

theorem persistable_mutable
    (h : persistable world (.message env (.rollForward (.specific slot hash) outputs true)) =
      true) :
    (∃ tipSlot tipHash result rest,
      anchoredBlocks world.worker = ⟨.specific tipSlot tipHash, result⟩ :: rest ∧
        tipSlot ≠ 0 ∧ tipSlot.toNat < slot.toNat) ∧
    (∀ block ∈ (anchoredBlocks world.worker).take (maxBufferLen - 1),
      slot.toNat ≤ block.point.slotOrDefault.toNat + retainedSlots) ∧
    ∀ a ∈ storageOps world.worker.keyEncoder env.now outputs,
      world.tikv.store.get a.key ≠ some [] := by
  rw [persistable, Bool.and_eq_true, Bool.and_eq_true, List.all_eq_true, List.all_eq_true] at h
  obtain ⟨⟨htip, hretained⟩, hvalues⟩ := h
  refine ⟨?_, fun block hblock => of_decide_eq_true (hretained block hblock),
    fun a ha => of_decide_eq_true (hvalues a ha)⟩
  split at htip
  case h_2 => cases htip
  case h_1 tipSlot tipHash result hhead =>
    obtain ⟨rest, hblocks⟩ := List.head?_eq_some_iff.mp hhead
    rw [Bool.and_eq_true, decide_eq_true_eq, decide_eq_true_eq] at htip
    exact ⟨tipSlot, tipHash, result, rest, hblocks, htip⟩

theorem take_filter_of_forall {α : Type*} {p : α → Bool} {l : List α} {n : ℕ}
    (h : ∀ a ∈ l.take n, p a = true) : (l.filter p).take n = l.take n := by
  induction l generalizing n with
  | nil => rfl
  | cons a rest ih =>
    cases n with
    | zero => rfl
    | succ n =>
      rw [List.take_succ_cons, List.forall_mem_cons] at h
      rw [List.filter_cons_of_pos h.1, List.take_succ_cons, List.take_succ_cons, ih h.2]

theorem Persists.cons {points : List PersistedPoint} {store store' : Store}
    {blocks : List (PointWithResult (List StorageAction))} (h : Persists enc points store blocks)
    (hnewest : ∀ q ∈ points, q.slot.toNat < p.slot.toNat)
    (hkeys : ∀ a ∈ p.actions, ¬ enc.rollbackPrefix <+: a.key)
    (hretained : ∀ block ∈ blocks.take (maxBufferLen - 1),
      p.slot.toNat ≤ block.point.slotOrDefault.toNat + retainedSlots)
    (hrows : rollbackEntries enc store' = persistedRows enc ((p :: points).filter fun q =>
      p.slot.toNat ≤ q.slot.toNat + retainedSlots)) :
    Persists enc ((p :: points).filter fun q => p.slot.toNat ≤ q.slot.toNat + retainedSlots) store'
      ((p.block :: blocks).take maxBufferLen) := by
  have hslots : SlotsDecrease (p :: points) := List.pairwise_cons.mpr ⟨hnewest, h.slots⟩
  have hpoints : (blocks.take (maxBufferLen - 1)).map PointWithResult.point =
      (points.take (maxBufferLen - 1)).map fun q => Point.specific q.slot q.hash := by
    have hundo := congrArg (List.take (maxBufferLen - 1)) h.undo.points_eq
    rw [← List.map_take, ← List.map_take, List.take_take, ← List.map_take, List.map_map,
      min_eq_left (Nat.sub_le _ _)] at hundo
    exact hundo
  have hfirst : ∀ q ∈ (p :: points).take maxBufferLen,
      decide (p.slot.toNat ≤ q.slot.toNat + retainedSlots) = true := by
    intro q hq
    rw [decide_eq_true_eq]
    rcases List.mem_cons.mp hq with rfl | hq
    · exact Nat.le_add_right _ _
    · have hmem : Point.specific q.slot q.hash ∈
          (blocks.take (maxBufferLen - 1)).map PointWithResult.point := by
        rw [hpoints]
        exact List.mem_map_of_mem hq
      obtain ⟨block, hblock, hpoint⟩ := List.mem_map.mp hmem
      have hbound := hretained block hblock
      rwa [hpoint] at hbound
  refine ⟨hslots.filter _, hrows, ?_, ?_⟩
  · rw [← List.map_take, take_filter_of_forall hfirst, List.map_take, List.map_cons]
    have hundo := (h.undo.cons p.block).take maxBufferLen
    rwa [maxBufferLen, List.take_succ_cons, List.take_succ_cons, List.take_take,
      min_eq_left (by norm_num), ← List.take_succ_cons, ← List.take_succ_cons] at hundo
  · intro q hq
    rcases List.mem_cons.mp (List.mem_of_mem_filter hq) with rfl | hq
    · exact hkeys
    · exact h.keys q hq

theorem rollbackEntries_mutable {store : Store} {points : List PersistedPoint}
    (h : w.Built worker env (.specific slot hash)
      (storageOps worker.keyEncoder env.now outputs) store)
    (hempty : worker.syncBatcher.isEmpty = true)
    (hrows : rollbackEntries worker.keyEncoder (store.applyWrites (initEntries worker)) =
      persistedRows worker.keyEncoder points) (hslots : SlotsDecrease (p :: points))
    (hentries : w.entries = (p.rows worker.keyEncoder).map fun e => (e.1, some e.2)) :
    rollbackEntries worker.keyEncoder (w.work worker store).txn.view =
      persistedRows worker.keyEncoder ((p :: points).filter fun q =>
        slot.toNat ≤ q.slot.toNat + retainedSlots) := by
  have hview : (w.work worker store).txn.view =
      (store.applyWrites (w.leftover ++ (w.block ++ (w.init ++ w.entries)))).applyWrites w.gc := by
    rw [MutableWrites.work, Txn.view_writeAll, Txn.view_start, ← SortedMap.applyWrites_append]
    simp [MutableWrites.all]
  -- outside the index only the marker and the entries are written
  have hwritten : rollbackEntries worker.keyEncoder
      (store.applyWrites (w.leftover ++ (w.block ++ (w.init ++ w.entries)))) =
        persistedRows worker.keyEncoder (p :: points) := by
    rw [← rollbackEntries_put hrows hslots, ← hentries]
    refine rollbackEntries_congr fun k hplane => ?_
    have hblock : SortedMap.lastWrite k w.block = none := by
      rw [SortedMap.lastWrite_eq_none_iff]
      intro hk
      obtain ⟨a, ha, rfl⟩ := h.exists_mem_of_mem_block hk
      exact KeyEncoder.not_indexKey_of_rollbackPrefix hplane (indexKey_of_mem_storageOps ha)
    rw [h.leftover_eq_nil hempty, List.nil_append, SortedMap.applyWrites_append,
      SortedMap.applyWrites_append, h.init]
    refine SortedMap.get_applyWrites_congr (SortedMap.get_applyWrites_congr ?_ _) _
    rw [SortedMap.get_applyWrites, hblock, Option.getD_none]
  rw [hview, h.gc]
  exact rollbackEntries_gcWrites hwritten slot

theorem PersistInv.rewinds_anchoredBlocks (h : PersistInv enc world) :
    RewindsTo (CursorNames enc) world.tikv.store (anchoredBlocks world.worker) := by
  unfold anchoredBlocks
  split
  case isFalse => exact h.rewinds
  case isTrue hempty =>
    refine rewindsTo_singleton fun hpoint => ?_
    have hstart := h.start hempty
    cases hlast : world.worker.lastProcessed with
    | none => simp [hlast] at hpoint
    | some tip => rw [CursorAt, hstart, hlast, Option.getD_some]

theorem PersistInv.mutable (h : PersistInv enc world) (hcond : persistable world
      (.message env (reduceBlock (.specific slot hash) number outputs true)) = true)
    (hstep : world.step (env, reduceBlock (.specific slot hash) number outputs true) = .ok world') :
    PersistInv enc world' := by
  have hencoder := h.encoder
  obtain ⟨⟨tipSlot, tipHash, result, rest, htip, hpos, hlater⟩, hretained, hvalues⟩ :=
    persistable_mutable hcond
  obtain ⟨w, hbuilt, rfl⟩ := World.step_mutable.mp hstep
  have hrewinds := h.rewinds_anchoredBlocks
  have hblocks := blocks_afterMutable world env (.specific slot hash) (some true)
    (w.work world.worker world.tikv.store) (some (.specific slot hash))
    (w.inverses world.tikv.store)
  have hleftover := hbuilt.leftover_eq_nil h.batch
  have hslot : slot ≠ 0 := by
    rintro rfl
    exact absurd hlater (Nat.not_lt_zero _)
  have hcursor : CursorAt world.worker.keyEncoder world.tikv.store
      (.specific tipSlot tipHash) := by
    rw [hencoder]
    exact hrewinds [] _ rest htip nofun
  have hne : Point.specific tipSlot tipHash ≠ .specific slot hash := by
    rintro heq
    cases heq
    exact lt_irrefl _ hlater
  obtain ⟨p, rfl, rfl, hactions, hentries, hkeys⟩ :=
    hbuilt.exists_persistedPoint h.batch hslot hcursor hne hvalues
  obtain ⟨points, hpoints⟩ := h.anchored htip hpos
  have hnewest : ∀ q ∈ points, q.slot.toNat < p.slot.toNat := by
    have hhead := hpoints.undo.points_eq
    rw [htip] at hhead
    cases hpts : points with
    | nil => exact nofun
    | cons q older =>
      rw [hpts] at hhead
      have hpoint : Point.specific tipSlot tipHash = .specific q.slot q.hash :=
        (List.cons.inj hhead).1
      have hq : q.slot = tipSlot := (Point.specific.inj hpoint).1.symm
      have hslots := List.pairwise_cons.mp (hpts ▸ hpoints.slots)
      intro q' hq'
      rcases List.mem_cons.mp hq' with rfl | hq'
      · rwa [hq]
      · exact (hslots.1 q' hq').trans (by rwa [hq])
  have hmarker : ∀ lastSlot lastHash, world.worker.rollbackBuffer.isEmpty = true →
      world.worker.lastProcessed = some (.specific lastSlot lastHash) →
        p.slot.toNat ≤ lastSlot.toNat + retainedSlots := by
    intro lastSlot lastHash hempty hlast
    refine hretained ⟨.specific lastSlot lastHash, []⟩ ?_
    rw [anchoredBlocks, if_pos hempty, hlast]
    exact List.mem_cons_self ..
  have hrows := rollbackEntries_mutable hbuilt h.batch (hencoder.symm ▸ hpoints.rows)
    (List.pairwise_cons.mpr ⟨hnewest, hpoints.slots⟩) hentries
  have hnames : CursorNames enc (.specific p.slot p.hash)
      ((world.tikv.store.applyWrites w.leftover).applyWrites w.block) := by
    rw [← hencoder]
    exact fun _ => hbuilt.cursorAt
  refine ⟨?_, ?_, ?_, restoringBuffer_mutable h.restoring _ _ _, ?_, ?_, ?_⟩
  · simpa [World.finishMutable] using hencoder
  · simpa [World.finishMutable] using h.config
  · rw [World.afterCommit_worker]
    simp [World.finishMutable, h.batch]
  · rw [hblocks]
    refine rewindsTo_mutable hbuilt ?_ ?_ hnames
    · rw [hencoder]
      exact indexOnly_cursorNames enc
    · rwa [hleftover, SortedMap.applyWrites_nil]
  · intro hempty
    rw [RollbackBuffer.isEmpty, hblocks] at hempty
    simp [maxBufferLen] at hempty
  · rw [hblocks]
    have hplane : rollbackEntries enc (world.afterCommit env (.specific p.slot p.hash) (some true)
        (w.work world.worker world.tikv.store) (some (.specific p.slot p.hash))).tikv.store =
          rollbackEntries enc (w.work world.worker world.tikv.store).txn.view := by
      refine rollbackEntries_congr fun k hk => ?_
      rw [← hencoder] at hk
      exact World.afterCommit_store_of_tracksOn rfl
        KeyEncoder.not_rollbackPrefix_verificationKey (hbuilt.tracksOn_rollbackPlane hmarker) hk
    rw [hencoder] at hrows hkeys
    have hpersists := hpoints.cons hnewest hkeys hretained (hplane.trans hrows)
    rw [show p.block = ⟨.specific p.slot p.hash, w.inverses world.tikv.store⟩ by
      rw [← hactions]; rfl] at hpersists
    exact ⟨_, hpersists⟩

end Mutable

section RollBack

variable {enc : KeyEncoder} {world world' : World} {env : Env} {point : Point}
  {points : List PersistedPoint} {store : Store}
  {blocks : List (PointWithResult (List StorageAction))}

theorem Persists.length_le (h : Persists enc points store blocks) {oldest : Point}
    (hlast : (blocks.map PointWithResult.point).getLast? = some oldest)
    (hnone : rangeDeletes enc store none (some oldest.slotOrDefault) = []) :
    points.length ≤ maxBufferLen := by
  by_contra hlong
  obtain ⟨dropped, older, hdrop⟩ := List.exists_cons_of_ne_nil
    (List.drop_eq_nil_iff.not.mpr hlong : points.drop maxBufferLen ≠ [])
  have hsplit : points = points.take maxBufferLen ++ dropped :: older := by
    rw [← hdrop, List.take_append_drop]
  -- the oldest point in memory is persisted just before the dropped one
  rw [h.undo.points_eq, ← List.map_take, List.map_map, List.getLast?_map,
    Option.map_eq_some_iff] at hlast
  obtain ⟨last, hmem, rfl⟩ := hlast
  have hslots := h.slots
  rw [SlotsDecrease, hsplit, List.pairwise_append] at hslots
  have hlt : dropped.slot.toNat < last.slot.toNat :=
    hslots.2.2 last (List.mem_of_mem_getLast? hmem) dropped (List.mem_cons_self ..)
  obtain ⟨action, actions, hactions⟩ := List.exists_cons_of_ne_nil dropped.actions_ne
  have hrow : (enc.encodeStorageRollbackMetadataKey dropped.slot dropped.hash 0 action.key,
      action.op.restored.getD []) ∈ rollbackEntries enc store := by
    rw [h.rows, persistedRows]
    refine List.mem_flatMap.mpr ⟨dropped, ?_, ?_⟩
    · rw [List.mem_reverse, hsplit]
      simp
    · rw [PersistedPoint.rows, hactions]
      exact List.mem_cons_self ..
  have hkey : enc.encodeStorageRollbackMetadataKey dropped.slot dropped.hash 0 action.key ∈
      store.scanKeys (enc.encodeRollbackMetadataRange none (some last.slot)).start
        (enc.encodeRollbackMetadataRange none (some last.slot)).stop := by
    refine SortedMap.mem_scanKeys.mpr ⟨?_, KeyEncoder.start_none_le_metadataKey ..,
      KeyEncoder.metadataKey_lt_stop_iff.mpr hlt⟩
    rw [(SortedMap.mem_scan.mp hrow).1]
    rfl
  rw [rangeDeletes, List.map_eq_nil_iff] at hnone
  change store.scanKeys (enc.encodeRollbackMetadataRange none (some last.slot)).start
    (enc.encodeRollbackMetadataRange none (some last.slot)).stop = [] at hnone
  rw [hnone] at hkey
  cases hkey

theorem Persists.cut (h : Persists enc points store blocks)
    {undone rest : List (PointWithResult (List StorageAction))}
    {block : PointWithResult (List StorageAction)} (hsplit : blocks = undone ++ block :: rest)
    (hfull : undone = [] ∨ points.length ≤ maxBufferLen) :
    ∃ newer kept, points = newer ++ kept ∧ newer.map PersistedPoint.block = undone ∧
      points.filter (fun p => p.slot.toNat ≤ block.point.slotOrDefault.toNat) = kept ∧
      SameUndo (block :: rest) ((kept.map PersistedPoint.block).take maxBufferLen) := by
  obtain ⟨block', rest', hR, hpoint⟩ := h.undo.split hsplit
  have hall : points.map PersistedPoint.block =
      undone ++ block' :: (rest' ++ (points.map PersistedPoint.block).drop maxBufferLen) := by
    conv_lhs => rw [← List.take_append_drop maxBufferLen (points.map PersistedPoint.block), hR]
    simp
  obtain ⟨newer, kept, hpoints, hnewer, hkept⟩ := List.map_eq_append_iff.mp hall
  obtain ⟨q, older, rfl, hq, -⟩ := List.map_eq_cons_iff.mp hkept
  have hslot : block.point.slotOrDefault = q.slot := by
    rw [← hpoint, ← hq]
    rfl
  refine ⟨newer, q :: older, hpoints, hnewer, ?_, ?_⟩
  · have hslots := h.slots
    rw [SlotsDecrease, hpoints, List.pairwise_append, List.pairwise_cons] at hslots
    obtain ⟨-, ⟨holder, -⟩, hacross⟩ := hslots
    rw [hpoints, List.filter_append, hslot]
    have hnone : newer.filter (fun p => decide (p.slot.toNat ≤ q.slot.toNat)) = [] := by
      refine List.filter_eq_nil_iff.mpr fun p hp => ?_
      simpa using hacross p hp q (List.mem_cons_self ..)
    have hself : (q :: older).filter (fun p => decide (p.slot.toNat ≤ q.slot.toNat)) =
        q :: older := by
      refine List.filter_eq_self.mpr fun p hp => ?_
      rcases List.mem_cons.mp hp with rfl | hp
      · simp
      · simpa using (holder p hp).le
    rw [hnone, hself, List.nil_append]
  · have hundo := h.undo.drop undone.length
    have hdrop : ((points.map PersistedPoint.block).take maxBufferLen).drop undone.length =
        ((q :: older).map PersistedPoint.block).take maxBufferLen := by
      have hmap : points.map PersistedPoint.block =
          undone ++ (q :: older).map PersistedPoint.block := by
        rw [hpoints, List.map_append, hnewer]
      rcases hfull with rfl | hfull
      · rw [hmap]
        rfl
      · have hlength : ((q :: older).map PersistedPoint.block).length ≤ maxBufferLen := by
          rw [hpoints, List.length_append] at hfull
          rw [List.length_map]
          omega
        rw [List.take_of_length_le (by rwa [List.length_map]), hmap, List.drop_left,
          List.take_of_length_le hlength]
    rw [hdrop] at hundo
    rwa [hsplit, List.drop_left] at hundo

theorem PersistInv.rollBack (h : PersistInv enc world)
    (hcond : persistable world (.message env (.rollBack point)) = true)
    (hstep : world.step (env, .rollBack point) = .ok world') : PersistInv enc world' := by
  have hencoder := h.encoder
  obtain ⟨hslot, undone, buffer, hbuffer, rfl⟩ := (World.step_rollBack h.restoring).mp hstep
  obtain ⟨hsplit, hbefore, block, rest, hat, rfl⟩ := RollbackBuffer.rollbackToPoint_eq_ok hbuffer
  rw [hat] at hsplit
  obtain ⟨points, hpoints⟩ := h.persisted
  have hfull : undone = [] ∨ points.length ≤ maxBufferLen := by
    rw [persistable, Bool.or_eq_true, decide_eq_true_eq] at hcond
    rcases hcond with hhead | hbelow
    · left
      cases undone with
      | nil => rfl
      | cons newest undone =>
        rw [RollbackBuffer.points, hsplit] at hhead
        have hnewest : newest.point = block.point := Option.some.inj hhead
        exact absurd (hnewest ▸ List.mem_cons_self ..) hbefore
    · right
      rw [RollbackBuffer.points] at hbelow
      cases hlast : (world.worker.rollbackBuffer.blocks.map PointWithResult.point).getLast? with
      | none => simp [hsplit] at hlast
      | some oldest =>
        rw [hlast, hencoder, Option.all_some, List.isEmpty_iff] at hbelow
        exact hpoints.length_le hlast hbelow
  obtain ⟨newer, kept, hcut, hnewer, hfilter, hundo⟩ := hpoints.cut hsplit hfull
  have hP : IndexOnly world.worker.keyEncoder (CursorNames enc) := by
    rw [hencoder]
    exact indexOnly_cursorNames enc
  obtain ⟨-, hrewinds⟩ := rewindsTo_rollBack hbuffer hP h.rewinds env none (some block.point)
  refine ⟨?_, ?_, ?_, restoringBuffer_rollBack hbuffer h.restoring, hrewinds, ?_, kept, ?_⟩
  · simpa using hencoder
  · simpa using h.config
  · simpa using h.batch
  · intro hempty
    rw [RollbackBuffer.isEmpty, hat] at hempty
    cases hempty
  · -- undoing touches no rollback key
    have hundone : rollbackEntries enc
        (world.tikv.store.applyWrites (undoWrites (inverseActions undone))) =
          persistedRows enc points := by
      rw [← hpoints.rows]
      refine rollbackEntries_congr fun k hplane => SortedMap.get_applyWrites_of_not_mem ?_
      intro hk
      simp only [undoWrites, List.map_map, List.mem_map, inverseActions, List.mem_flatMap,
        List.mem_reverse, Function.comp] at hk
      obtain ⟨a, ⟨b, hb, ha⟩, rfl⟩ := hk
      rw [← hnewer] at hb
      obtain ⟨p, hp, rfl⟩ := List.mem_map.mp hb
      exact hpoints.keys p (by rw [hcut]; exact List.mem_append_left _ hp) a ha hplane
    have hplane : rollbackEntries enc (world.afterCommit env block.point none
        (rollBackWork world.worker block.point world.tikv.store undone)
        (some block.point)).tikv.store =
          rollbackEntries enc
            (rollBackWork world.worker block.point world.tikv.store undone).txn.view := by
      refine rollbackEntries_congr fun k hk => ?_
      rw [← hencoder] at hk
      exact World.afterCommit_store_of_tracksOn rfl
        KeyEncoder.not_rollbackPrefix_verificationKey
        (tracksOn_rollBackWork _ _ _ _ _) hk
    refine ⟨?_, ?_, hat ▸ hundo, fun p hp => hpoints.keys p ?_⟩
    · exact (List.pairwise_append.mp (hcut ▸ hpoints.slots)).2.1
    · rw [hplane, rollBackWork, Txn.view_writeAll, Txn.view_start, SortedMap.applyWrites_append,
        hencoder, rollbackEntries_trimWrites hundone hslot, hfilter]
    · rw [hcut]
      exact List.mem_append_right _ hp

end RollBack

/-! ## Restarts and runs -/

section Restarts

variable {enc : KeyEncoder} {world world' : World} {tooLarge : List (Key × Value) → Bool}

theorem PersistInv.exists_lastPoint (h : PersistInv enc world) :
    ∃ last, lastPoint enc world.tikv.store = .ok last := by
  cases hempty : world.worker.rollbackBuffer.isEmpty with
  | true => exact ⟨_, h.start hempty⟩
  | false =>
    obtain ⟨block, rest, hblocks⟩ : ∃ block rest,
        world.worker.rollbackBuffer.blocks = block :: rest :=
      List.exists_cons_of_ne_nil (by simpa [RollbackBuffer.isEmpty] using hempty)
    obtain ⟨points, hpoints⟩ := h.persisted
    obtain ⟨block', rest', hpersisted, hpoint⟩ :=
      hpoints.undo.split (hblocks.trans (List.nil_append _).symm)
    have hmem : block' ∈ points.map PersistedPoint.block :=
      List.mem_of_mem_take (by rw [hpersisted]; simp : block' ∈ _)
    obtain ⟨p, -, rfl⟩ := List.mem_map.mp hmem
    refine ⟨_, h.rewinds [] block rest hblocks ?_⟩
    rw [← hpoint]
    intro hnone
    cases hnone

theorem PersistInv.exists_restart (h : PersistInv enc world)
    (hfits : persistable world (.restart tooLarge) = true) :
    ∃ world', world.restart tooLarge = .ok world' ∧ world'.tikv = world.tikv ∧
      SameUndo world.worker.rollbackBuffer.blocks world'.worker.rollbackBuffer.blocks ∧
      PersistInv enc world' := by
  obtain ⟨last, hlast⟩ := h.exists_lastPoint
  obtain ⟨points, hpoints⟩ := h.persisted
  rw [persistable, h.encoder, List.all_eq_true] at hfits
  have hsingle : ∀ e ∈ rollbackEntries enc world.tikv.store, tooLarge [e] = false := fun e he => by
    simpa using hfits e he
  have hfetch := fetchPersistentBuffer_of_rows hpoints.rows hpoints.slots hsingle
  have hspawn := spawn_blocks world.worker.config world.worker.instanceNames last points
  have hundo := hpoints.undo
  rw [← hspawn] at hundo
  have hrestart : world.restart tooLarge = .ok { world with
      worker := Worker.spawn world.worker.config world.worker.instanceNames last
        (if points.isEmpty then none else some (points.reverse.map PersistedPoint.block)) } := by
    rw [World.restart, h.encoder, hfetch, Except.ok_bind, hlast]
    rfl
  refine ⟨_, hrestart, rfl, hundo, h.config, h.config, rfl, ?_, hundo.rewindsTo h.rewinds,
    fun _ => hlast, points, hpoints.slots, hpoints.rows, ?_, hpoints.keys⟩
  · intro block hblock
    rw [hspawn] at hblock
    obtain ⟨p, -, rfl⟩ := List.mem_map.mp (List.mem_of_mem_take hblock)
    exact p.restores
  · rw [hspawn]
    exact SameUndo.refl _

theorem PersistInv.live (h : PersistInv enc world) {input : Lifecycle}
    (hmessage : input.endsWithCursor = true) (hcond : persistable world input = true)
    (hstep : world.live input = .ok world') : PersistInv enc world' := by
  cases input with
  | restart tooLarge =>
    obtain ⟨restarted, hrestart, -, -, hinv⟩ := h.exists_restart hcond
    cases hrestart.symm.trans hstep
    exact hinv
  | message env payload =>
    cases payload with
    | rollBack point => exact h.rollBack hcond hstep
    | rollForward point outputs isMutable =>
      cases isMutable with
      | false => cases point <;> cases hcond
      | true =>
        cases point with
        | origin => cases hcond
        | specific slot hash =>
          obtain ⟨number, rest, hreduced⟩ := endsWithCursor_rollForward.mp hmessage
          rw [hreduced] at hcond
          rw [World.live, hreduced] at hstep
          exact h.mutable hcond hstep

end Restarts

/-- The buffer read back on a restart rolls back to the same data, cursor and info keys. -/
theorem rollbackBuffer_survives_restart (config : Config) (instanceNames : List String)
    (store₀ : Store) (last : Option Point) (inputs : List Lifecycle) (world : World)
    (tooLarge : List (Key × Value) → Bool)
    (hfresh : rollbackEntries ⟨config.dataplaneId, config.instanceId⟩ store₀ = [])
    (hcursor : lastPoint ⟨config.dataplaneId, config.instanceId⟩ store₀ = .ok last)
    (hmessages : ∀ input ∈ inputs, input.endsWithCursor = true)
    (hpersistable : meets World.live persistable
      (.ofStore (Worker.spawn config instanceNames last none) store₀) inputs = true)
    (hrun : run World.live (.ofStore (Worker.spawn config instanceNames last none) store₀)
      inputs = .ok world)
    (hfits : persistable world (.restart tooLarge) = true) :
    ∃ restarted, world.restart tooLarge = .ok restarted ∧
      restarted.worker.rollbackBuffer.points = world.worker.rollbackBuffer.points ∧
      ∀ point ∈ world.worker.rollbackBuffer.points, NextSlotFits point.slotOrDefault → ∀ env,
        ∃ rolledBack rolledBack',
          world.step (env, .rollBack point) = .ok rolledBack ∧
          restarted.step (env, .rollBack point) = .ok rolledBack' ∧
          ∀ k, KeyEncoder.IndexKey ⟨config.dataplaneId, config.instanceId⟩ k →
            rolledBack'.tikv.store.get k = rolledBack.tikv.store.get k := by
  set enc : KeyEncoder := ⟨config.dataplaneId, config.instanceId⟩
  have hinv : PersistInv enc world := by
    refine invariant_of_meets (I := fun past mid =>
      (∀ input ∈ past, input.endsWithCursor = true) → PersistInv enc mid)
      (fun _ => ?_) ?_ hpersistable hrun hmessages
    · refine ⟨rfl, rfl, rfl, nofun, fun before block rest hsplit => ?_, fun _ => hcursor, [],
        List.Pairwise.nil, hfresh, SameUndo.nil, nofun⟩
      cases before <;> cases hsplit
    · intro past mid input world' _ hmid hcond hstep hpast
      exact (hmid fun i hi => hpast i (List.mem_append_left _ hi)).live
        (hpast input (by simp)) hcond hstep
  obtain ⟨restarted, hrestart, htikv, hundo, hinv'⟩ := hinv.exists_restart hfits
  refine ⟨restarted, hrestart, hundo.points_eq.symm, fun point hpoint hslot env => ?_⟩
  obtain ⟨undone, buffer, hbuffer⟩ := RollbackBuffer.exists_rollbackToPoint hpoint
  obtain ⟨hsplit, hbefore, block, rest, hat, rfl⟩ := RollbackBuffer.rollbackToPoint_eq_ok hbuffer
  rw [hat] at hsplit
  obtain ⟨block', rest', hsplit', hsame⟩ := hundo.split hsplit
  obtain ⟨buffer', hbuffer', -⟩ :=
    RollbackBuffer.rollbackToPoint_of_split hsplit' (by rwa [hsame])
  rw [hsame] at hbuffer'
  obtain ⟨rolledBack, hstep, hplain⟩ :=
    World.exists_step_rollBack hinv.restoring hslot hbuffer env
  obtain ⟨rolledBack', hstep', hrestored⟩ :=
    World.exists_step_rollBack hinv'.restoring hslot hbuffer' env
  refine ⟨rolledBack, rolledBack', hstep, hstep', fun k hk => ?_⟩
  rw [hrestored k (by rwa [hinv'.encoder]), htikv, hplain k (by rwa [hinv.encoder])]

def sampleStartedStore : Store :=
  (∅ : Store).put (sampleWorld none).worker.keyEncoder.encodeCursorKey
    (encodeCursorValue (samplePoint 5 9) 5)

def sampleLifecycle : List Lifecycle :=
  [.message .plain (sampleBlock 20 2 [⟨7, [1], .set [5]⟩, ⟨7, [2], .incrementU64 4⟩] true),
    .message .plain (sampleBlock 30 3 [⟨7, [1], .delete⟩] true),
    .restart fun page => 3 < page.length,
    .message .plain (.rollBack (samplePoint 20 2)),
    .message .plain (sampleBlock 40 4 [⟨7, [2], .decrementU64 4⟩] true)]

theorem rollbackBuffer_survives_restart_sample :
    ∃ world restarted,
      run World.live (.ofStore (Worker.spawn sampleConfig [] (some (samplePoint 5 9)) none)
        sampleStartedStore) sampleLifecycle = .ok world ∧
      world.restart (fun _ => false) = .ok restarted ∧
      restarted.worker.rollbackBuffer.points =
        [samplePoint 40 4, samplePoint 20 2, samplePoint 5 9] ∧
      ∀ env, ∃ rolledBack rolledBack',
        world.step (env, .rollBack (samplePoint 20 2)) = .ok rolledBack ∧
        restarted.step (env, .rollBack (samplePoint 20 2)) = .ok rolledBack' ∧
        ∀ k, KeyEncoder.IndexKey ⟨1, 2⟩ k →
          rolledBack'.tikv.store.get k = rolledBack.tikv.store.get k := by
  have hrun : run World.live (.ofStore (Worker.spawn sampleConfig [] (some (samplePoint 5 9)) none)
      sampleStartedStore) sampleLifecycle = .ok _ := Except.eq_ok_get (by decide +kernel)
  obtain ⟨restarted, hrestart, hsame, hrollBack⟩ :=
    rollbackBuffer_survives_restart sampleConfig [] sampleStartedStore (some (samplePoint 5 9))
      sampleLifecycle _ (fun _ => false) (by decide +kernel) (by decide +kernel) (by decide)
      (by decide +kernel) hrun (by decide +kernel)
  exact ⟨_, restarted, hrun, hrestart, hsame.trans (by decide +kernel),
    hrollBack (samplePoint 20 2) (by decide +kernel) (by decide)⟩

/-- After a gap of more than 640 slots the points before it are gone from the keys. -/
theorem slot_gap_loses_points :
    ∃ world restarted,
      run World.step (.ofStore (Worker.spawn sampleConfig [] (some (samplePoint 5 9)) none)
        sampleStartedStore)
        [(.plain, sampleBlock 20 2 [] true), (.plain, sampleBlock 700 3 [] true)] = .ok world ∧
      world.restart (fun _ => false) = .ok restarted ∧
      world.worker.rollbackBuffer.points =
        [samplePoint 700 3, samplePoint 20 2, samplePoint 5 9] ∧
      restarted.worker.rollbackBuffer.points = [samplePoint 700 3] :=
  ⟨_, _, Except.eq_ok_get (by decide +kernel), Except.eq_ok_get (by decide +kernel),
    by decide +kernel, by decide +kernel⟩

end CardanoIndexer.Polyphony
