import CardanoIndexer.Compressor.Storage
import CardanoIndexer.Lib.Journal

/-!
# What each database transaction does

One inversion lemma per staged transaction.  `Undone` collects what a whole rollback leaves.
-/

namespace CardanoIndexer.Compressor

variable {P : Pallas} {out : SortedMap TxoRef (TxoBody × Bool)} {txos : SortedMap TxoRef TxoBody}

theorem resolveRef_eq_ok {made : SortedMap TxoRef TxoBody} {block : Block} {ref : TxoRef}
    {value : TxoBody × Bool} :
    resolveRef txos made block ref = .ok value ↔
      (txos.get ref = some value.1 ∧ value.2 = false) ∨
        (txos.get ref = none ∧ made.get ref = some value.1 ∧ value.2 = true) := by
  obtain ⟨body, flag⟩ := value
  unfold resolveRef
  split
  case h_1 found hfound => simp [hfound, eq_comm]
  case h_2 hnone =>
    split
    case h_1 found hmade => simp [hnone, hmade, eq_comm]
    case h_2 hmade => simp [hnone, hmade]

theorem foldlM_put_eq_ok {f : TxoRef → Except Error (TxoBody × Bool)} {refs : List TxoRef}
    (hnodup : refs.Nodup) {init : SortedMap TxoRef (TxoBody × Bool)} :
    refs.foldlM (fun out ref => do return out.put ref (← f ref)) init = .ok out ↔
      (∀ ref ∈ refs, ∃ value, f ref = .ok value ∧ out.get ref = some value) ∧
        ∀ ref ∉ refs, out.get ref = init.get ref := by
  induction refs generalizing init with
  | nil =>
    simp only [List.foldlM_nil, Except.pure_eq_ok, Except.ok.injEq, List.not_mem_nil,
      false_implies, implies_true, true_and, not_false_eq_true, true_implies]
    exact ⟨fun h ref => by rw [h], fun h => (SortedMap.ext_get h).symm⟩
  | cons ref rest ih =>
    rw [List.nodup_cons] at hnodup
    rw [List.foldlM_cons]
    cases hf : f ref with
    | error e => simp [hf]
    | ok value =>
      rw [Except.ok_bind, Except.pure_eq_ok, Except.ok_bind, ih hnodup.2]
      constructor
      · rintro ⟨hrest, hother⟩
        refine ⟨List.forall_mem_cons.mpr ⟨⟨value, hf, ?_⟩, hrest⟩, ?_⟩
        · simpa using hother ref hnodup.1
        · intro other hmem
          rw [List.mem_cons, not_or] at hmem
          simpa [hmem.1] using hother other hmem.2
      · rintro ⟨hall, hother⟩
        obtain ⟨⟨value', hvalue', hhead⟩, hrest⟩ := List.forall_mem_cons.mp hall
        cases hf.symm.trans hvalue'
        refine ⟨hrest, fun other hmem => ?_⟩
        rw [SortedMap.get_put]
        by_cases heq : other = ref
        · rw [heq, if_pos rfl, hhead]
        · rw [if_neg heq]
          exact hother other (by simp [heq, hmem])

theorem resolveBlockTxInputs_eq_ok {block : Block} :
    resolveBlockTxInputs P txos block = .ok out ↔
      (∀ ref ∈ block.inputRefs, ∃ value,
        resolveRef txos (producedAndConsumedInBlock P block) block ref = .ok value ∧
          out.get ref = some value) ∧
        ∀ ref ∉ block.inputRefs, out.get ref = none :=
  foldlM_put_eq_ok (List.nodup_dedup _)

namespace ChainDB

theorem decodeBlock_eq_ok {bytes : BlockBody} {block : Block} :
    decodeBlock P bytes = .ok block ↔ P.decode bytes = .ok block := by
  unfold decodeBlock
  split
  case h_1 found hfound => simp [hfound]
  case h_2 text htext => simp [htext]

variable {self self' : ChainDB} {state : Tables × ℕ} {rbHash : BlockHash} {height rbSlot : ℕ}

theorem checkPrevious_eq_ok {block : Block} :
    self.checkPrevious block = .ok () ↔
      ∀ last, self.lastBlockHash = some last → block.previousHash = some last := by
  unfold checkPrevious
  cases hlast : self.lastBlockHash with
  | none => simp
  | some last => by_cases hprev : block.previousHash = some last <;> simp [hprev]

variable {isMutable : Bool}

theorem stageApply_eq_ok {bytes : BlockBody} :
    stageApply P self bytes isMutable = .ok self' ↔
      ∃ block resolver, P.decode bytes = .ok block ∧
        (∀ last, self.lastBlockHash = some last → block.previousHash = some last) ∧
        resolveBlockTxInputs P self.db.txoKV block = .ok resolver ∧
        self' = self.applied P bytes isMutable block resolver := by
  simp only [stageApply, Except.bind_eq_ok, decodeBlock_eq_ok, Except.pure_eq_ok,
    Except.ok.injEq]
  constructor
  · rintro ⟨block, hdecode, ⟨⟩, hprev, resolver, hresolve, rfl⟩
    exact ⟨block, resolver, hdecode, checkPrevious_eq_ok.mp hprev, hresolve, rfl⟩
  · rintro ⟨block, resolver, hdecode, hprev, hresolve, rfl⟩
    exact ⟨block, hdecode, (), checkPrevious_eq_ok.mpr hprev, resolver, hresolve, rfl⟩

/-! ## Rolling back -/

theorem fetchResolver_eq_ok {db : Tables} {slot : ℕ} {hash : BlockHash}
    {resolver : ResolverValue} :
    fetchResolver db slot hash = .ok resolver ↔
      db.resolverBySlotKV.get slot = some (hash, resolver) := by
  unfold fetchResolver
  split
  case h_1 hnone => simp [hnone]
  case h_2 resHash found hfound =>
    by_cases heq : resHash = hash
    · simp [hfound, heq]
    · simp [hfound, heq]

def resolverMap (resolver : ResolverValue) : SortedMap TxoRef TxoBody :=
  (∅ : SortedMap TxoRef TxoBody).applyWrites
    (resolver.map fun output => (output.1, some output.2.1))

theorem undoEntry_eq_ok {state' : Tables × ℕ} {slot : ℕ} {hash : BlockHash} {bytes : BlockBody} :
    undoEntry P isMutable state (slot, height, hash, bytes) = .ok state' ↔
      ∃ block resolver txoKV, P.decode bytes = .ok block ∧
        state.1.resolverBySlotKV.get slot = some (hash, resolver) ∧
        undoTxs block.hash block.txs.reverse (resolverMap resolver, state.1.txoKV) = .ok txoKV ∧
        state' =
          (⟨state.1.blockBySlotKV.erase slot,
            (record isMutable (state.1.mutableKV, state.2) (.undo slot hash bytes)).1,
            state.1.resolverBySlotKV.erase slot, txoKV⟩,
          (record isMutable (state.1.mutableKV, state.2) (.undo slot hash bytes)).2) := by
  simp only [undoEntry, Except.bind_eq_ok, decodeBlock_eq_ok, fetchResolver_eq_ok,
    Except.pure_eq_ok, Except.ok.injEq, resolverMap]
  constructor
  · rintro ⟨block, hdecode, resolver, hresolver, txoKV, hundo, rfl⟩
    exact ⟨block, resolver, txoKV, hdecode, hresolver, hundo, rfl⟩
  · rintro ⟨block, resolver, txoKV, hdecode, hresolver, hundo, rfl⟩
    exact ⟨block, hdecode, resolver, hresolver, txoKV, hundo, rfl⟩

def undoLog (entry : ℕ × BlockValue) : Log := .undo entry.1 entry.2.2.1 entry.2.2.2

structure Undone (isMutable : Bool) (state : Tables × ℕ)
    (entries : List (ℕ × BlockValue)) (state' : Tables × ℕ) : Prop where
  blocks : state'.1.blockBySlotKV =
    state.1.blockBySlotKV.applyWrites (entries.map fun entry => (entry.1, none))
  resolvers : state'.1.resolverBySlotKV =
    state.1.resolverBySlotKV.applyWrites (entries.map fun entry => (entry.1, none))
  wal : (state'.1.mutableKV, state'.2) =
    (entries.map undoLog).foldl (record isMutable) (state.1.mutableKV, state.2)

theorem undone_of_run :
    ∀ {entries : List (ℕ × BlockValue)} {state' : Tables × ℕ},
      Run.run (undoEntry P isMutable) state entries = .ok state' →
        Undone isMutable state entries state' := by
  refine Run.invariant ⟨rfl, rfl, rfl⟩ ?_
  rintro past mid ⟨slot, height, hash, bytes⟩ state' - hmid hstep
  obtain ⟨block, resolver, txoKV, -, -, -, rfl⟩ := undoEntry_eq_ok.mp hstep
  refine ⟨?_, ?_, ?_⟩
  · simp [hmid.blocks, SortedMap.applyWrite]
  · simp [hmid.resolvers, SortedMap.applyWrite]
  · rw [List.map_append, List.foldl_append, ← hmid.wal]
    rfl

theorem stageRollback_eq_ok :
    stageRollback P self rbSlot rbHash isMutable = .ok self' ↔
      ∃ height bytes toRemove state,
        self.db.blockBySlotKV.entriesFrom rbSlot = (rbSlot, height, rbHash, bytes) :: toRemove ∧
        Run.run (undoEntry P isMutable) (self.db, self.nextWalSeq) toRemove.reverse = .ok state ∧
        self' = self.rolledBack isMutable state (.mark rbSlot rbHash bytes) (some rbHash) := by
  unfold stageRollback
  split
  case h_1 hnil => simp [hnil]
  case h_2 foundSlot height foundHash bytes toRemove hfound =>
    by_cases hpoint : rbSlot = foundSlot ∧ rbHash = foundHash
    · obtain ⟨rfl, rfl⟩ := hpoint
      simp only [ne_eq, not_true_eq_false, or_self, if_false, Except.bind_eq_ok,
        Except.pure_eq_ok, Except.ok.injEq, hfound, List.cons.injEq, Prod.mk.injEq, true_and]
      constructor
      · rintro ⟨state, hrun, rfl⟩
        exact ⟨height, bytes, toRemove, state, ⟨⟨rfl, rfl⟩, rfl⟩, hrun, rfl⟩
      · rintro ⟨height', bytes', toRemove', state, ⟨⟨rfl, rfl⟩, rfl⟩, hrun, rfl⟩
        exact ⟨state, hrun, rfl⟩
    · rw [if_pos (by tauto)]
      simp only [reduceCtorEq, false_iff, not_exists, not_and]
      intro height' bytes' toRemove' state heq
      rw [hfound] at heq
      simp only [List.cons.injEq, Prod.mk.injEq] at heq
      exact absurd ⟨heq.1.1.symm, heq.1.2.2.1.symm⟩ hpoint

theorem undoTxs_error {blockHash : BlockHash} {txs : List Tx}
    {state : SortedMap TxoRef TxoBody × SortedMap TxoRef TxoBody} {e : Error}
    (h : undoTxs blockHash txs state = .error e) :
    ∃ txHash index, e = .missingTxo blockHash txHash index := by
  have hrestore : ∀ refs resolver txos, restoreConsumed blockHash refs (resolver, txos) = .error e →
      ∃ txHash index, e = .missingTxo blockHash txHash index := by
    intro refs
    induction refs with
    | nil => intro resolver txos h; cases h
    | cons ref rest ih =>
      intro resolver txos h
      rw [restoreConsumed] at h
      split at h
      case h_1 =>
        cases h
        exact ⟨_, _, rfl⟩
      case h_2 => exact ih _ _ h
  induction txs generalizing state with
  | nil => cases h
  | cons tx earlier ih =>
    rw [undoTxs, Except.bind_eq_error] at h
    rcases h with h | ⟨mid, -, h⟩
    · exact hrestore _ _ _ h
    · exact ih h

theorem undoEntry_ne_invalidRollbackPoint {entry : ℕ × BlockValue}
    {found : Option (ℕ × BlockHash)} :
    undoEntry P isMutable state entry ≠ .error (.invalidRollbackPoint found) := by
  obtain ⟨slot, height, hash, bytes⟩ := entry
  intro h
  simp only [undoEntry, Except.bind_eq_error] at h
  rcases h with h | ⟨block, -, h | ⟨resolver, -, h | ⟨txoKV, -, h⟩⟩⟩
  · unfold decodeBlock at h
    split at h <;> cases h
  · unfold fetchResolver at h
    split at h
    case h_1 => cases h
    case h_2 => split at h <;> cases h
  · obtain ⟨txHash, index, herror⟩ := undoTxs_error h
    cases herror
  · cases h

theorem stageRollback_ne_invalidRollbackPoint {foundSlot : ℕ} {foundHash : BlockHash}
    {bytes : BlockBody} {toRemove : List (ℕ × BlockValue)}
    (hfrom : self.db.blockBySlotKV.entriesFrom rbSlot =
      (foundSlot, height, foundHash, bytes) :: toRemove) (isMutable : Bool) :
    (∀ found, stageRollback P self rbSlot rbHash isMutable ≠ .error (.invalidRollbackPoint found)) ↔
      foundSlot = rbSlot ∧ foundHash = rbHash := by
  unfold stageRollback
  rw [hfrom]
  constructor
  · intro haccepted
    by_contra hpoint
    refine haccepted (some (foundSlot, foundHash)) (if_pos ?_)
    by_contra hcheck
    rw [not_or, not_not, not_not] at hcheck
    exact hpoint ⟨hcheck.1.symm, hcheck.2.symm⟩
  · rintro ⟨rfl, rfl⟩ found herror
    simp only [ne_eq, not_true_eq_false, or_self, if_false, Except.bind_eq_error] at herror
    rcases herror with hrun | ⟨state, -, hdone⟩
    · obtain ⟨mid, entry, -, hstep⟩ := Run.exists_step_of_run_eq_error hrun
      exact undoEntry_ne_invalidRollbackPoint hstep
    · cases hdone

theorem stageRollbackToOrigin_eq_ok :
    stageRollbackToOrigin P self isMutable = .ok self' ↔
      ∃ state,
        Run.run (undoEntry P isMutable) (self.db, self.nextWalSeq)
          self.db.blockBySlotKV.entries.reverse = .ok state ∧
        self' = self.rolledBack isMutable state .origin none := by
  simp only [stageRollbackToOrigin, Except.bind_eq_ok, Except.pure_eq_ok, Except.ok.injEq,
    eq_comm (a := self')]

theorem stageStart_eq_ok {genesis : List GenesisUtxo} :
    stageStart P self genesis = .ok self' ↔
      ∃ kvs, genesis.mapM (genesisUtxoToKv P) = .ok kvs ∧
        self' = { ChainDB.open self.db self.immutableAfterSlots with
          db := { self.db with
            mutableKV := ∅
            txoKV := self.db.txoKV.applyWrites (kvs.map fun kv => (kv.1, some kv.2)) } } := by
  simp only [stageStart, insertGenesisTxos, Except.bind_eq_ok, Except.pure_eq_ok,
    Except.ok.injEq]
  constructor
  · rintro ⟨txoKV, ⟨kvs, hkvs, rfl⟩, rfl⟩
    exact ⟨kvs, hkvs, rfl⟩
  · rintro ⟨kvs, hkvs, rfl⟩
    exact ⟨_, ⟨kvs, hkvs, rfl⟩, rfl⟩

end ChainDB

end CardanoIndexer.Compressor
