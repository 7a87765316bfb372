import CardanoIndexer.Lib.Listing
import CardanoIndexer.Reducers.Ledger
import CardanoIndexer.Timbre.Values

/-!
# Lists of unspent outputs

Three reducers that go through a block in the same way.  Outputs made and spent in one block are
skipped on both sides.
-/

namespace CardanoIndexer.Reducers

open Compressor (Pallas GenesisUtxo Tx Block StoredBlock TxoRef Era genesisTxos history)
open Pipeline (Produced Resolves)
open Polyphony (BlockContext WorkError Store StorageOp StorageAction DataOp ReducerOutput Key Value
  storageOps executeOneByOne)
open Listing
open Timbre

/-! ## Reducers -/

inductive UtxoAction (ν : Type) where
  | consumed
  | produced (value : ν)

structure UtxoOutput (κ ν : Type) where
  owner : κ
  slot : U64
  uHash : Hash
  uIndex : U64
  action : UtxoAction ν

structure UtxoReducer (κ ν : Type) where
  keeps : Address → Bool
  rows : Address → TxOutput → Bytes → List (κ × ν)
  key : κ → UtxosByAddressCursor → DataKey
  value : ν → Value

def chainedTxoRefs (block : Block) : List TxoRef :=
  (block.txs.flatMap fun tx => tx.produces.map fun output => ⟨tx.hash, output.1⟩).filter
    fun ref => ref ∈ block.txs.flatMap Tx.consumes

namespace UtxoReducer

variable {κ ν : Type} (reducer : UtxoReducer κ ν) (L : Library) (policy : RuntimePolicy)

def outputsOf (slot : ℕ) (ref : TxoRef) (output : TxOutput) (cbor : Bytes)
    (action : ν → UtxoAction ν) : Except WorkError (List (UtxoOutput κ ν)) := do
  let address ← orPanic output.address
  if reducer.keeps address then
    return (reducer.rows address output cbor).map fun row =>
      ⟨row.1, BitVec.ofNat 64 slot, ref.txHash, BitVec.ofNat 64 ref.index, action row.2⟩
  else return []

def processConsumedTxo (ctx : BlockContext) (input : TxoRef) :
    Except WorkError (List (UtxoOutput κ ν)) := do
  match ← applyPolicy policy (findUtxo L ctx input) with
  | none => return []
  | some (slot, utxo, cbor) => reducer.outputsOf slot input utxo cbor fun _ => .consumed

def processProducedTxo (chained : List TxoRef) (slot : ℕ) (tx : Tx) (output : ℕ × Bytes) :
    Except WorkError (List (UtxoOutput κ ν)) :=
  -- skip if this output is consumed later in the block
  if ⟨tx.hash, output.1⟩ ∈ chained then return []
  else do
    let decoded ← orPanic (L.decodeOutput tx.era output.2)
    reducer.outputsOf slot ⟨tx.hash, output.1⟩ decoded output.2 .produced

def reduceTx (block : Block) (ctx : BlockContext) (tx : Tx) :
    Except WorkError (List (UtxoOutput κ ν)) := do
  let chained := chainedTxoRefs block
  let refs := uniqueBy Polyphony.outputRefText [] (tx.consumes.filter fun ref => ref ∉ chained)
  let consumed ← refs.mapM (reducer.processConsumedTxo L policy ctx)
  let produced ← tx.produces.mapM (reducer.processProducedTxo L chained block.slot tx)
  return consumed.flatten ++ produced.flatten

def reduceBlock (block : Block) (ctx : BlockContext) :
    Except WorkError (List (UtxoOutput κ ν)) := do
  let outputs ← block.txs.mapM (reducer.reduceTx L policy block ctx)
  return outputs.flatten

variable (blake2b : Bytes → Hash)

def dataOp (output : UtxoOutput κ ν) : DataOp :=
  let key := reducer.key output.owner ⟨output.slot, output.uHash, output.uIndex⟩
  ⟨key.reducer.tag, key.body blake2b,
    match output.action with
    | .consumed => .delete
    | .produced value => .set (reducer.value value)⟩

variable (enc : KeyEncoder) (paranoidMode : Bool) (now : U64)

def indexChain : List (StoredBlock × BlockContext) → Except WorkError Store
  | [] => .ok ∅
  | (block, ctx) :: older => do
    let store ← indexChain older
    let outputs ← reducer.reduceBlock L policy block.toBlock ctx
    executeOneByOne paranoidMode store
      (storageOps enc now [.data (outputs.map (reducer.dataOp blake2b))])

end UtxoReducer

def addressKey (item : UtxosByAddressCursor) : Address → DataKey
  | .shelley address => .utxosByShelleyAddress address item
  | .byron address => .utxosByByronAddress address item

def utxoCborByAddress (L : Library) (filter : Option (List (List Char))) :
    UtxoReducer Address Bytes where
  keeps address := match filter with
    | some addresses => L.addressText address ∈ addresses
    | none => true
  rows address _ cbor := [(address, cbor)]
  key address item := addressKey item address
  value cbor := cbor

def utxosByAsset (blake2b : Bytes → Hash) :
    UtxoReducer (Hash28 × ShortBytes) (Address × U64) where
  keeps _ := true
  rows address output _ := match output.multiassets with
    | some ma => ma.entries.flatMap fun entry =>
      entry.2.map fun asset => ((entry.1, asset.1), (address, asset.2))
    | none => []
  key asset item := .utxosByAsset asset.1 asset.2 item
  value owned := encodeUtxosByAssetValue blake2b owned.1 owned.2

def utxosByPolicy (blake2b : Bytes → Hash) :
    UtxoReducer Hash28 (Address × List (ShortBytes × U64)) where
  keeps _ := true
  rows address output _ := match output.multiassets with
    | some ma => ma.entries.map fun entry => (entry.1, (address, entry.2))
    | none => []
  key policy item := .utxosByPolicy policy item
  value owned := encodeUtxosByPolicyValue blake2b owned.1 owned.2

/-! ## Rows of an output -/

def Txo.item (txo : Txo) : UtxosByAddressCursor :=
  ⟨BitVec.ofNat 64 txo.2.1, txo.1.txHash, BitVec.ofNat 64 txo.1.index⟩

section Rows

variable {κ ν : Type} (reducer : UtxoReducer κ ν) (L : Library) (enc : KeyEncoder)
  (blake2b : Bytes → Hash) {address : Address} {out : TxOutput}

def rowsAt (txo : Txo) (out : TxOutput) (address : Address) : List (Key × Value) :=
  if reducer.keeps address then
    (reducer.rows address out txo.2.2.2).map fun row =>
      ((reducer.key row.1 txo.item).encode enc blake2b, reducer.value row.2)
  else []

def rowsOf (txo : Txo) : List (Key × Value) :=
  match L.decodeOutput txo.2.2.1 txo.2.2.2 with
  | some out => match out.address with
      | some address => rowsAt reducer enc blake2b txo out address
      | none => []
  | none => []

variable {reducer L enc blake2b}

theorem rowsOf_eq {txo : Txo} (hdecode : L.decodeOutput txo.2.2.1 txo.2.2.2 = some out)
    (haddress : out.address = some address) :
    rowsOf reducer L enc blake2b txo = rowsAt reducer enc blake2b txo out address := by
  rw [rowsOf]
  simp only [hdecode, haddress]

def writeOf (action : StorageAction) : Key × Option Value :=
  (action.key, match action.op with
    | .set v => some v
    | _ => none)

def UtxoReducer.write (reducer : UtxoReducer κ ν) (enc : KeyEncoder) (blake2b : Bytes → Hash)
    (output : UtxoOutput κ ν) : Key × Option Value :=
  writeOf ((reducer.dataOp blake2b output).toAction enc)

theorem exists_outputsOf (txo : Txo) (hdecode : L.decodeOutput txo.2.2.1 txo.2.2.2 = some out)
    (haddress : out.address = some address) :
    (∃ outputs, reducer.outputsOf txo.2.1 txo.1 out txo.2.2.2 (fun _ => .consumed) = .ok outputs ∧
      outputs.map (reducer.write enc blake2b) =
        (Change.remove txo).writes (rowsOf reducer L enc blake2b)) ∧
    ∃ outputs, reducer.outputsOf txo.2.1 txo.1 out txo.2.2.2 .produced = .ok outputs ∧
      outputs.map (reducer.write enc blake2b) =
        (Change.add txo).writes (rowsOf reducer L enc blake2b) := by
  have hkey : ∀ row : κ × ν,
      enc.encodeDataKey (reducer.key row.1 txo.item).reducer.tag
        ((reducer.key row.1 txo.item).body blake2b) =
          (reducer.key row.1 txo.item).encode enc blake2b := fun row =>
    (DataKey.encode_eq enc _).symm
  rw [Change.writes, Change.writes, rowsOf_eq hdecode haddress, rowsAt]
  simp only [UtxoReducer.outputsOf, haddress, orPanic, Except.ok_bind]
  by_cases hkeeps : reducer.keeps address
  · simp only [hkeeps, if_true, Except.pure_eq_ok, Except.ok.injEq, exists_eq_left', List.map_map]
    constructor
    · refine List.map_congr_left fun row _ => ?_
      exact Prod.ext (hkey row) rfl
    · refine List.map_congr_left fun row _ => ?_
      exact Prod.ext (hkey row) rfl
  · simp [hkeeps]

end Rows

/-! ## The changes of a block -/

def txChanges (block : Block) (ctx : BlockContext) (tx : Tx) : List (Change Txo) :=
  ((tx.consumes.filter fun ref => ref ∉ chainedTxoRefs block).map fun ref =>
      .remove (resolvedTxo ctx ref)) ++
    (tx.produces.filter fun output => ⟨tx.hash, output.1⟩ ∉ chainedTxoRefs block).map
      fun output => .add (⟨tx.hash, output.1⟩, (block.slot, tx.era, output.2))

def blockChanges (block : Block) (ctx : BlockContext) : List (Change Txo) :=
  block.txs.flatMap (txChanges block ctx)

variable {ref : TxoRef}

theorem mem_chainedTxoRefs {block : Block} :
    ref ∈ chainedTxoRefs block ↔
      (∃ tx ∈ block.txs, ∃ output ∈ tx.produces, ref = ⟨tx.hash, output.1⟩) ∧
        ∃ tx ∈ block.txs, ref ∈ tx.consumes := by
  simp [chainedTxoRefs, eq_comm]

section Block

variable {P : Pallas} {L : Library} {genesis : List GenesisUtxo} {block : StoredBlock}
  {older : List StoredBlock} {ctx : BlockContext} {tx : Tx}

theorem add_mem_blockChanges {txo : Txo} :
    Change.add txo ∈ blockChanges block.toBlock ctx ↔
      txo.1 ∉ chainedTxoRefs block.toBlock ∧ ∃ tx ∈ block.txs, ∃ index raw,
        (index, raw) ∈ tx.produces ∧ txo.1 = ⟨tx.hash, index⟩ ∧
          txo.2 = (block.slot, tx.era, raw) := by
  simp only [blockChanges, txChanges, List.mem_flatMap, List.mem_append, List.mem_map,
    List.mem_filter, reduceCtorEq, and_false, exists_false, false_or, Change.add.injEq,
    decide_eq_true_eq]
  constructor
  · rintro ⟨tx, htx, ⟨index, raw⟩, ⟨hproduces, hchained⟩, rfl⟩
    exact ⟨hchained, tx, htx, index, raw, hproduces, rfl, rfl⟩
  · rintro ⟨hchained, tx, htx, index, raw, hproduces, href, houtput⟩
    obtain ⟨ref, output⟩ := txo
    cases href
    cases houtput
    exact ⟨tx, htx, (index, raw), ⟨hproduces, hchained⟩, rfl⟩

theorem remove_mem_blockChanges {txo : Txo} :
    Change.remove txo ∈ blockChanges block.toBlock ctx ↔
      txo.1 ∉ chainedTxoRefs block.toBlock ∧ (∃ tx ∈ block.txs, txo.1 ∈ tx.consumes) ∧
        resolvedTxo ctx txo.1 = txo := by
  simp only [blockChanges, txChanges, List.mem_flatMap, List.mem_append, List.mem_map,
    List.mem_filter, reduceCtorEq, and_false, exists_false, or_false, Change.remove.injEq,
    decide_eq_true_eq]
  constructor
  · rintro ⟨tx, htx, ref, ⟨hconsumes, hchained⟩, rfl⟩
    exact ⟨hchained, ⟨tx, htx, hconsumes⟩, rfl⟩
  · rintro ⟨hchained, ⟨tx, htx, hconsumes⟩, heq⟩
    exact ⟨tx, htx, txo.1, ⟨hconsumes, hchained⟩, heq⟩

variable {κ ν : Type} {reducer : UtxoReducer κ ν} {policy : RuntimePolicy} {enc : KeyEncoder}
  {blake2b : Bytes → Hash}

theorem exists_processConsumedTxo (hchain : IsLedgerChain P L genesis (block :: older))
    (hresolves : Resolves P genesis (block :: older) block.toBlock ctx) (htx : tx ∈ block.txs)
    (href : ref ∈ tx.consumes) :
    ∃ outputs, reducer.processConsumedTxo L policy ctx ref = .ok outputs ∧
      outputs.map (reducer.write enc blake2b) =
        (Change.remove (resolvedTxo ctx ref)).writes (rowsOf reducer L enc blake2b) := by
  obtain ⟨slot, era, raw, out, address, -, hdecode, haddress, hctx, hfind⟩ :=
    findUtxo_of_resolves hchain hresolves htx href
  have hresolved : resolvedTxo ctx ref = (ref, (slot, era, raw)) := by
    rw [resolvedTxo, hctx]
    rfl
  have hprocess : reducer.processConsumedTxo L policy ctx ref =
      reducer.outputsOf slot ref out raw fun _ => .consumed := by
    rw [UtxoReducer.processConsumedTxo, hfind]
    rfl
  rw [hprocess, hresolved]
  exact (exists_outputsOf (ref, (slot, era, raw)) hdecode haddress).1

theorem exists_processProducedTxo (hchain : IsLedgerChain P L genesis (block :: older))
    (htx : tx ∈ block.txs) {output : ℕ × Bytes} (houtput : output ∈ tx.produces) :
    ∃ outputs, reducer.processProducedTxo L (chainedTxoRefs block.toBlock) block.slot tx output =
        .ok outputs ∧
      outputs.map (reducer.write enc blake2b) =
        if ⟨tx.hash, output.1⟩ ∈ chainedTxoRefs block.toBlock then []
        else (Change.add (⟨tx.hash, output.1⟩, (block.slot, tx.era, output.2))).writes
          (rowsOf reducer L enc blake2b) := by
  obtain ⟨out, address, hdecode, haddress⟩ :=
    hchain.readable _ _ (produced_of_mem_produces htx houtput)
  unfold UtxoReducer.processProducedTxo
  split
  · exact ⟨[], rfl, rfl⟩
  · simp only [hdecode, orPanic, Except.ok_bind]
    exact (exists_outputsOf (⟨tx.hash, output.1⟩, (block.slot, tx.era, output.2)) hdecode
      haddress).2

theorem flatMap_ite_nil {α β : Type} {p : α → Prop} [DecidablePred p] {g : α → List β}
    (xs : List α) :
    (xs.flatMap fun x => if p x then [] else g x) = (xs.filter fun x => ¬ p x).flatMap g := by
  induction xs with
  | nil => rfl
  | cons x rest ih =>
    by_cases hx : p x
    · simp [hx, ih]
    · simp [hx, ih]

theorem exists_reduceBlock (hchain : IsLedgerChain P L genesis (block :: older))
    (hresolves : Resolves P genesis (block :: older) block.toBlock ctx) :
    ∃ outputs, reducer.reduceBlock L policy block.toBlock ctx = .ok outputs ∧
      outputs.map (reducer.write enc blake2b) =
        (blockChanges block.toBlock ctx).flatMap
          (Change.writes (rowsOf reducer L enc blake2b)) := by
  have htxs : ∀ tx ∈ block.txs, ∃ outputs,
      reducer.reduceTx L policy block.toBlock ctx tx = .ok outputs ∧
        outputs.map (reducer.write enc blake2b) = (txChanges block.toBlock ctx tx).flatMap
          (Change.writes (rowsOf reducer L enc blake2b)) := by
    intro tx htx
    have hunique : uniqueBy Polyphony.outputRefText []
        (tx.consumes.filter fun ref => ref ∉ chainedTxoRefs block.toBlock) =
          tx.consumes.filter fun ref => ref ∉ chainedTxoRefs block.toBlock :=
      uniqueBy_eq Polyphony.outputRefText_injective (tx.nodup_consumes.filter _)
        fun _ _ h => by cases h
    have hconsumes : ∀ ref ∈ tx.consumes.filter fun ref => ref ∉ chainedTxoRefs block.toBlock,
        ∃ outputs, reducer.processConsumedTxo L policy ctx ref = .ok outputs ∧
          outputs.map (reducer.write enc blake2b) =
            (Change.remove (resolvedTxo ctx ref)).writes (rowsOf reducer L enc blake2b) :=
      fun ref href => exists_processConsumedTxo hchain hresolves htx (List.mem_of_mem_filter href)
    have hproduces : ∀ output ∈ tx.produces, ∃ outputs, reducer.processProducedTxo L
        (chainedTxoRefs block.toBlock) block.slot tx output = .ok outputs ∧
          outputs.map (reducer.write enc blake2b) =
            if ⟨tx.hash, output.1⟩ ∈ chainedTxoRefs block.toBlock then []
            else (Change.add (⟨tx.hash, output.1⟩, (block.slot, tx.era, output.2))).writes
              (rowsOf reducer L enc blake2b) :=
      fun output houtput => exists_processProducedTxo hchain htx houtput
    obtain ⟨consumed, hconsumed, hremoved⟩ := Except.exists_mapM_flatten hconsumes
    obtain ⟨produced, hproduced, hadded⟩ := Except.exists_mapM_flatten hproduces
    refine ⟨consumed.flatten ++ produced.flatten, ?_, ?_⟩
    · simp only [UtxoReducer.reduceTx, hunique, hconsumed, hproduced, Except.ok_bind,
        Except.pure_eq_ok]
    · rw [List.map_append, hremoved, hadded, flatMap_ite_nil, txChanges, List.flatMap_append,
        List.flatMap_map, List.flatMap_map]
  obtain ⟨outputs, houtputs, hwrites⟩ := Except.exists_mapM_flatten htxs
  refine ⟨outputs.flatten, ?_, ?_⟩
  · rw [UtxoReducer.reduceBlock, houtputs]
    rfl
  · rw [hwrites, blockChanges, List.flatMap_assoc]

end Block

/-! ## Unspent outputs -/

def IsUnspent (chain : List StoredBlock) (txo : Txo) : Prop :=
  (∃ block ∈ chain, ∃ tx ∈ block.txs, ∃ index raw, (index, raw) ∈ tx.produces ∧
    txo.1 = ⟨tx.hash, index⟩ ∧ txo.2 = (block.slot, tx.era, raw)) ∧
  ∀ block ∈ chain, ∀ tx ∈ block.txs, txo.1 ∉ tx.consumes

section Unspent

variable {P : Pallas} {L : Library} {genesis : List GenesisUtxo} {block : StoredBlock}
  {chain older : List StoredBlock} {ctx : BlockContext} {txo : Txo}

theorem IsUnspent.produced (h : IsUnspent chain txo) : Produced P genesis chain txo.1 txo.2 :=
  Or.inr h.1

theorem mem_spent_history :
    ref ∈ Spending.spent (history P chain) ↔
      ∃ block ∈ chain, ∃ tx ∈ block.txs, ref ∈ tx.consumes := by
  simp only [Spending.spent, history, Compressor.Block.transfers, Compressor.Tx.transfer,
    List.mem_flatMap, List.mem_reverse, List.mem_map]
  constructor
  · rintro ⟨transfer, ⟨block, hblock, tx, htx, rfl⟩, href⟩
    exact ⟨block, hblock, tx, htx, href⟩
  · rintro ⟨block, hblock, tx, htx, href⟩
    exact ⟨_, ⟨block, hblock, tx, htx, rfl⟩, href⟩

theorem mem_outputs_of_produced {output : ℕ × Era × Bytes}
    (h : Produced P genesis chain ref output) :
    ref ∈ (Spending.outputs (genesisTxos P genesis) (history P chain)).map Prod.fst := by
  obtain ⟨body, hbody, -⟩ := Pipeline.produced_iff.mp h
  exact List.mem_map_of_mem hbody

theorem not_mem_outputs_of_produces (hchain : IsLedgerChain P L genesis (block :: older)) {tx : Tx}
    (htx : tx ∈ block.txs) {index : ℕ} {raw : Bytes} (h : (index, raw) ∈ tx.produces) :
    ⟨tx.hash, index⟩ ∉
      (Spending.outputs (genesisTxos P genesis) (history P older)).map Prod.fst := by
  have hnodup := hchain.valid.nodup_outputs
  rw [Compressor.history_cons, Spending.outputs_append, List.map_append, List.nodup_append] at hnodup
  refine fun hold => hnodup.2.2 _ hold _ ?_ rfl
  refine List.mem_map.mpr ⟨(⟨tx.hash, index⟩, ⟨block.slot, P.eraToU16 tx.era, raw⟩), ?_, rfl⟩
  refine List.mem_flatMap.mpr ⟨_, List.mem_map_of_mem htx, ?_⟩
  exact List.mem_map.mpr ⟨(index, raw), h, rfl⟩

theorem isUnspent_cons (hchain : IsLedgerChain P L genesis (block :: older))
    (hresolves : Resolves P genesis (block :: older) block.toBlock ctx) :
    IsUnspent (block :: older) txo ↔
      Change.add txo ∈ blockChanges block.toBlock ctx ∨
        IsUnspent older txo ∧ Change.remove txo ∉ blockChanges block.toBlock ctx := by
  rw [add_mem_blockChanges, remove_mem_blockChanges]
  constructor
  · rintro ⟨⟨block', hblock', tx, htx, index, raw, hproduces, href, houtput⟩, hunspent⟩
    obtain ⟨hhead, hrest⟩ := List.forall_mem_cons.mp hunspent
    rcases List.mem_cons.mp hblock' with rfl | hblock'
    · refine Or.inl ⟨fun hchained => ?_, tx, htx, index, raw, hproduces, href, houtput⟩
      obtain ⟨-, tx', htx', hconsumes⟩ := mem_chainedTxoRefs.mp hchained
      exact hhead tx' htx' hconsumes
    · refine Or.inr ⟨⟨⟨block', hblock', tx, htx, index, raw, hproduces, href, houtput⟩, hrest⟩, ?_⟩
      rintro ⟨-, ⟨tx', htx', hconsumes⟩, -⟩
      exact hhead tx' htx' hconsumes
  · rintro (⟨hchained, tx, htx, index, raw, hproduces, href, houtput⟩ | ⟨hunspent, hkept⟩)
    · refine ⟨⟨block, List.mem_cons_self, tx, htx, index, raw, hproduces, href, houtput⟩, ?_⟩
      refine List.forall_mem_cons.mpr ⟨fun tx' htx' hconsumes => hchained ?_,
        fun block' hblock' tx' htx' hconsumes => ?_⟩
      · exact mem_chainedTxoRefs.mpr ⟨⟨tx, htx, _, hproduces, href⟩, tx', htx', hconsumes⟩
      · -- an earlier block would have spent what did not exist
        have hspent : txo.1 ∈ Spending.spent (history P older) :=
          mem_spent_history.mpr ⟨block', hblock', tx', htx', hconsumes⟩
        rw [href] at hspent
        exact not_mem_outputs_of_produces hchain htx hproduces
          (hchain.of_cons.valid.known_of_spent hspent)
    · obtain ⟨⟨block', hblock', hmade⟩, hrest⟩ := hunspent
      have hproduced : Produced P genesis older txo.1 txo.2 := Or.inr ⟨block', hblock', hmade⟩
      refine ⟨⟨block', List.mem_cons_of_mem _ hblock', hmade⟩,
        List.forall_mem_cons.mpr ⟨fun tx htx hconsumes => hkept ?_, hrest⟩⟩
      refine ⟨fun hchained => ?_, ⟨tx, htx, hconsumes⟩, ?_⟩
      · obtain ⟨⟨tx', htx', ⟨index, raw⟩, hproduces, href⟩, -⟩ := mem_chainedTxoRefs.mp hchained
        rw [href] at hproduced
        exact not_mem_outputs_of_produces hchain htx' hproduces (mem_outputs_of_produced hproduced)
      · obtain ⟨slot, era, raw, -, -, hfound, -, -, hctx, -⟩ :=
          findUtxo_of_resolves hchain hresolves htx hconsumes
        rw [resolvedTxo, hctx, Option.getD_some,
          hchain.produced_unique hfound (Produced.cons hproduced block)]

theorem remove_not_mem_of_add (h : Change.add txo ∈ blockChanges block.toBlock ctx) :
    Change.remove txo ∉ blockChanges block.toBlock ctx := by
  rw [remove_mem_blockChanges]
  rintro ⟨hchained, hconsumes, -⟩
  obtain ⟨-, tx, htx, index, raw, hproduces, href, -⟩ := add_mem_blockChanges.mp h
  exact hchained (mem_chainedTxoRefs.mpr ⟨⟨tx, htx, _, hproduces, href⟩, hconsumes⟩)

theorem produced_of_mem_blockChanges (hchain : IsLedgerChain P L genesis (block :: older))
    (hresolves : Resolves P genesis (block :: older) block.toBlock ctx) {change : Change Txo}
    (h : change ∈ blockChanges block.toBlock ctx) :
    Produced P genesis (block :: older) change.item.1 change.item.2 := by
  cases change with
  | add txo =>
    obtain ⟨-, hmade⟩ := add_mem_blockChanges.mp h
    exact Or.inr ⟨block, List.mem_cons_self, hmade⟩
  | remove txo =>
    obtain ⟨-, ⟨tx, htx, hconsumes⟩, heq⟩ := remove_mem_blockChanges.mp h
    obtain ⟨slot, era, raw, -, -, hfound, -, -, hctx, -⟩ :=
      findUtxo_of_resolves hchain hresolves htx hconsumes
    rw [resolvedTxo, hctx] at heq
    rw [Change.item, ← heq]
    exact hfound

end Unspent

/-! ## Indexing a chain -/

theorem executeOneByOne_eq_applyWrites {paranoidMode : Bool} {store : Store}
    {actions : List StorageAction} (h : ∀ a ∈ actions, a.op = .delete ∨ ∃ v, a.op = .set v) :
    executeOneByOne paranoidMode store actions = .ok (store.applyWrites (actions.map writeOf)) := by
  induction actions generalizing store with
  | nil => rfl
  | cons a rest ih =>
    obtain ⟨ha, hrest⟩ := List.forall_mem_cons.mp h
    have hwrites : Polyphony.collectWrites StorageOp.plainWrite store.get [a] =
        .ok [writeOf a] := by
      obtain ⟨key, op⟩ := a
      rcases ha with rfl | ⟨v, rfl⟩
      · rfl
      · rfl
    have hfirst : Polyphony.executedStore paranoidMode store [a] false =
        .ok (store.applyWrites [writeOf a]) := by
      rw [Polyphony.executedStore_plain (Polyphony.independent_of_nodup (by simp)), hwrites]
      rfl
    rw [executeOneByOne, List.foldlM_cons, hfirst, Except.ok_bind, List.map_cons,
      ← List.singleton_append, SortedMap.applyWrites_append]
    exact ih hrest

section Index

variable {P : Pallas} {L : Library} {genesis : List GenesisUtxo} {κ ν : Type}
  {reducer : UtxoReducer κ ν} {policy : RuntimePolicy} {enc : KeyEncoder} {blake2b : Bytes → Hash}
  {paranoidMode : Bool} {now : U64} {chain : List StoredBlock}

theorem executeOneByOne_outputs (store : Store) (outputs : List (UtxoOutput κ ν)) :
    executeOneByOne paranoidMode store
        (storageOps enc now [.data (outputs.map (reducer.dataOp blake2b))]) =
      .ok (store.applyWrites (outputs.map (reducer.write enc blake2b))) := by
  have hactions : storageOps enc now [.data (outputs.map (reducer.dataOp blake2b))] =
      outputs.map fun output => (reducer.dataOp blake2b output).toAction enc := by
    simp [storageOps, Polyphony.reducerOutputToStorageOps, Function.comp_def]
  rw [hactions, executeOneByOne_eq_applyWrites, List.map_map]
  · rfl
  · intro a ha
    obtain ⟨output, -, rfl⟩ := List.mem_map.mp ha
    obtain ⟨owner, slot, uHash, uIndex, action⟩ := output
    cases action with
    | consumed => exact Or.inl rfl
    | produced value => exact Or.inr ⟨reducer.value value, rfl⟩

theorem exists_indexChain {chain : List (StoredBlock × BlockContext)}
    (hchain : IsLedgerChain P L genesis (chain.map Prod.fst)) (hresolved : AllResolved P genesis chain)
    (hsep : Separate (rowsOf reducer L enc blake2b)
      {txo | Produced P genesis (chain.map Prod.fst) txo.1 txo.2}) :
    ∃ store, reducer.indexChain L policy blake2b enc paranoidMode now chain = .ok store ∧
      Lists (rowsOf reducer L enc blake2b) {txo | IsUnspent (chain.map Prod.fst) txo} store := by
  induction chain with
  | nil =>
    refine ⟨∅, rfl, ?_⟩
    have hnone : {txo | IsUnspent [] txo} = (∅ : Set Txo) := by
      ext txo
      simp [IsUnspent]
    rw [List.map_nil, hnone]
    exact lists_empty _
  | cons entry older ih =>
    obtain ⟨block, ctx⟩ := entry
    obtain ⟨hresolves, holder⟩ := hresolved
    rw [List.map_cons] at hchain hsep
    have hfewer : {txo : Txo | Produced P genesis (older.map Prod.fst) txo.1 txo.2} ⊆
        {txo | Produced P genesis (block :: older.map Prod.fst) txo.1 txo.2} :=
      fun txo htxo => Produced.cons htxo block
    obtain ⟨store, hstore, hlists⟩ := ih hchain.of_cons holder (hsep.mono hfewer)
    obtain ⟨outputs, houtputs, hwrites⟩ : ∃ outputs,
        reducer.reduceBlock L policy block.toBlock ctx = .ok outputs ∧
          outputs.map (reducer.write enc blake2b) =
            (blockChanges block.toBlock ctx).flatMap
              (Change.writes (rowsOf reducer L enc blake2b)) :=
      exists_reduceBlock hchain hresolves
    refine ⟨store.applyWrites (outputs.map (reducer.write enc blake2b)), ?_, ?_⟩
    · rw [UtxoReducer.indexChain, hstore, Except.ok_bind, houtputs, Except.ok_bind,
        executeOneByOne_outputs]
    · have hafter : afterChanges {txo | IsUnspent (older.map Prod.fst) txo}
          (blockChanges block.toBlock ctx) =
            {txo | IsUnspent (block :: older.map Prod.fst) txo} := by
        ext txo
        rw [mem_afterChanges fun _ => remove_not_mem_of_add]
        exact (isUnspent_cons hchain hresolves).symm
      rw [hwrites, List.map_cons, ← hafter]
      refine hlists.changes hsep (fun txo htxo => hfewer htxo.produced) fun change hchange => ?_
      exact produced_of_mem_blockChanges hchain hresolves hchange

theorem eq_of_item_eq (hchain : IsLedgerChain P L genesis chain) {txo txo' : Txo}
    (hproduced : Produced P genesis chain txo.1 txo.2)
    (hproduced' : Produced P genesis chain txo'.1 txo'.2) (hitem : txo.item = txo'.item) :
    txo = txo' := by
  obtain ⟨⟨hash, index⟩, output⟩ := txo
  obtain ⟨⟨hash', index'⟩, output'⟩ := txo'
  obtain ⟨-, hhash, hindex⟩ := UtxosByAddressCursor.mk.inj hitem
  have hnat := congrArg BitVec.toNat hindex
  have hlt : index < 2 ^ 64 := hchain.index_lt _ _ hproduced
  have hlt' : index' < 2 ^ 64 := hchain.index_lt _ _ hproduced'
  simp only [BitVec.toNat_ofNat, Nat.mod_eq_of_lt hlt, Nat.mod_eq_of_lt hlt'] at hnat
  cases hhash
  cases hnat
  cases hchain.produced_unique hproduced hproduced'
  rfl

theorem mem_rowsOf {txo : Txo} {k : Key} {v : Value} :
    (k, v) ∈ rowsOf reducer L enc blake2b txo ↔
      ∃ out address, L.decodeOutput txo.2.2.1 txo.2.2.2 = some out ∧
        out.address = some address ∧ reducer.keeps address = true ∧
        ∃ row ∈ reducer.rows address out txo.2.2.2,
          (reducer.key row.1 txo.item).encode enc blake2b = k ∧ reducer.value row.2 = v := by
  unfold rowsOf
  cases hdecode : L.decodeOutput txo.2.2.1 txo.2.2.2 with
  | none => simp
  | some out =>
    cases haddress : out.address with
    | none => simp [haddress]
    | some address => simp [rowsAt, haddress]

theorem separate_rowsOf (hchain : IsLedgerChain P L genesis chain)
    (hitem : ∀ owner owner' item item', (reducer.key owner item).encode enc blake2b =
      (reducer.key owner' item').encode enc blake2b → item = item')
    (hnodup : ∀ address out raw item, ((reducer.rows address out raw).map fun row =>
      (reducer.key row.1 item).encode enc blake2b).Nodup) :
    Separate (rowsOf reducer L enc blake2b) {txo | Produced P genesis chain txo.1 txo.2} where
  nodup txo _ := by
    unfold rowsOf
    split
    · split
      · unfold rowsAt
        split
        · rw [List.map_map]
          exact hnodup _ _ _ _
        · exact List.nodup_nil
      · exact List.nodup_nil
    · exact List.nodup_nil
  item_eq txo htxo txo' htxo' k hk hk' := by
    obtain ⟨⟨_, v⟩, hrow, rfl⟩ := List.mem_map.mp hk
    obtain ⟨⟨_, v'⟩, hrow', rfl⟩ := List.mem_map.mp hk'
    obtain ⟨-, -, -, -, -, row, -, hkey, -⟩ := mem_rowsOf.mp hrow
    obtain ⟨-, -, -, -, -, row', -, hkey', -⟩ := mem_rowsOf.mp hrow'
    exact eq_of_item_eq hchain htxo htxo' (hitem row.1 row'.1 _ _ (hkey.trans hkey'.symm))

end Index

end CardanoIndexer.Reducers
