import CardanoIndexer.Compressor.Model

/-!
# The chain database of the compressor

The `stage…` functions are what a call does up to the commit, on a copy of the tables; `commit` is
the only place where the database changes.
-/

namespace CardanoIndexer.Compressor

variable (P : Pallas)

/-! ## Transaction outputs -/

def Tx.produced (slot : ℕ) (tx : Tx) : List (TxoRef × TxoBody) :=
  tx.produces.map fun output => (⟨tx.hash, output.1⟩, ⟨slot, P.eraToU16 tx.era, output.2⟩)

def Block.inputRefs (block : Block) : List TxoRef := (block.txs.flatMap Tx.requires).dedup

def producedAndConsumedInBlock (block : Block) : SortedMap TxoRef TxoBody :=
  (∅ : SortedMap TxoRef TxoBody).applyWrites
    (((block.txs.flatMap (Tx.produced P block.slot)).filter fun output =>
      output.1 ∈ block.inputRefs).map fun output => (output.1, some output.2))

def resolveRef (txos made : SortedMap TxoRef TxoBody) (block : Block) (ref : TxoRef) :
    Except Error (TxoBody × Bool) :=
  match txos.get ref with
  | some body => .ok (body, false)
  | none =>
    match made.get ref with
    | some body => .ok (body, true)
    | none => .error (.missingTxo block.hash ref.txHash ref.index)

def resolveBlockTxInputs (txos : SortedMap TxoRef TxoBody) (block : Block) :
    Except Error (SortedMap TxoRef (TxoBody × Bool)) :=
  let made := producedAndConsumedInBlock P block
  block.inputRefs.foldlM (fun out ref => do return out.put ref (← resolveRef txos made block ref)) ∅

def Tx.writes (slot : ℕ) (tx : Tx) : List (TxoRef × Option TxoBody) :=
  (tx.produced P slot).map (fun output => (output.1, some output.2)) ++
    tx.consumes.map fun ref => (ref, none)

def Block.writes (block : Block) : List (TxoRef × Option TxoBody) :=
  block.txs.flatMap (Tx.writes P block.slot)

def restoreConsumed (blockHash : BlockHash) :
    List TxoRef → SortedMap TxoRef TxoBody × SortedMap TxoRef TxoBody →
      Except Error (SortedMap TxoRef TxoBody × SortedMap TxoRef TxoBody)
  | [], state => .ok state
  | ref :: rest, (resolver, txos) =>
    match resolver.get ref with
    | none => .error (.missingTxo blockHash ref.txHash ref.index)
    | some body => restoreConsumed blockHash rest (resolver.erase ref, txos.put ref body)

def undoTxs (blockHash : BlockHash) :
    List Tx → SortedMap TxoRef TxoBody × SortedMap TxoRef TxoBody →
      Except Error (SortedMap TxoRef TxoBody)
  | [], (_, txos) => .ok txos
  | tx :: earlier, state => do
    let (resolver, txos) ← restoreConsumed blockHash tx.consumes state
    undoTxs blockHash earlier (resolver,
      txos.applyWrites (tx.produces.map fun output => (⟨tx.hash, output.1⟩, none)))

def genesisUtxoToKv (utxo : GenesisUtxo) : Except Error (TxoRef × TxoBody) :=
  match P.encodeTxOut utxo.payload utxo.crc utxo.amount with
  | .ok txout => .ok (⟨utxo.tx, 0⟩, ⟨0, 0, txout⟩)
  | .error text => .error (.genesisTxo text)

def insertGenesisTxos (txos : SortedMap TxoRef TxoBody) (genesis : List GenesisUtxo) :
    Except Error (SortedMap TxoRef TxoBody) := do
  let kvs ← genesis.mapM (genesisUtxoToKv P)
  return txos.applyWrites (kvs.map fun kv => (kv.1, some kv.2))

/-! ## The log -/

/-- `MutableKV::prune` drops entries from the front up to the first one whose slot is
not before the given one. -/
def prune (log : SortedMap ℕ Log) (beforeSlot : ℕ) : SortedMap ℕ Log :=
  log.dropFront fun entry => entry.2.slot.getD 0 < beforeSlot

def scanUntilOr {K V : Type} (predicate bailPredicate : V → Bool) : List (K × V) → Option K
  | [] => none
  | (k, v) :: rest =>
    if predicate v then some k
    else if bailPredicate v then none
    else scanUntilOr predicate bailPredicate rest

def Log.names (log : Log) (slot : ℕ) (hash : BlockHash) : Bool :=
  (log.isApply || log.isMark) && log.slot = some slot && log.hash = some hash

def findWalSeq (log : SortedMap ℕ Log) (slot : ℕ) (hash : BlockHash) : Option ℕ :=
  scanUntilOr (fun v => v.names slot hash) (fun v => slot ≤ v.slot.getD 0) log.entries

def record (isMutable : Bool) (wal : SortedMap ℕ Log × ℕ) (log : Log) : SortedMap ℕ Log × ℕ :=
  if isMutable then (wal.1.put wal.2 log, wal.2 + 1) else wal

/-! ## Transactions of the database -/

namespace ChainDB

def «open» (db : Tables) (immutableAfterSlots : Option ℕ) : ChainDB where
  db := { db with mutableKV := ∅ }
  nextWalSeq := 1
  lastBlockHash := db.blockBySlotKV.entries.getLast?.map fun entry => entry.2.2.1
  immutableAfterSlots := immutableAfterSlots

def decodeBlock (bytes : BlockBody) : Except Error Block :=
  match P.decode bytes with
  | .ok block => .ok block
  | .error text => .error (.decoding text)

def checkPrevious (self : ChainDB) (block : Block) : Except Error Unit :=
  if self.lastBlockHash.isSome && block.previousHash ≠ self.lastBlockHash then
    .error (.previousHashMismatch block.hash block.previousHash self.lastBlockHash)
  else .ok ()

def pruneBehind (self : ChainDB) (slot : ℕ) (log : SortedMap ℕ Log) : SortedMap ℕ Log :=
  match self.immutableAfterSlots with
  | some pruneAfter => if pruneAfter ≤ slot then prune log (slot - pruneAfter) else log
  | none => log

def applied (self : ChainDB) (bytes : BlockBody) (isMutable : Bool) (block : Block)
    (resolver : SortedMap TxoRef (TxoBody × Bool)) : ChainDB :=
  let log := .apply block.slot block.hash bytes (resolver.mapVal Prod.fst)
  let mutableKV := (record isMutable (self.db.mutableKV, self.nextWalSeq) log).1
  { self with
    db := {
      blockBySlotKV := self.db.blockBySlotKV.put block.slot (block.number, block.hash, bytes)
      mutableKV := if isMutable then self.pruneBehind block.slot mutableKV else mutableKV
      resolverBySlotKV :=
        self.db.resolverBySlotKV.put block.slot
          (block.hash, resolver.entries)
      txoKV := self.db.txoKV.applyWrites (block.writes P) }
    nextWalSeq := self.nextWalSeq + 1
    lastBlockHash := some block.hash }

def stageApply (self : ChainDB) (bytes : BlockBody) (isMutable : Bool) :
    Except Error ChainDB := do
  let block ← decodeBlock P bytes
  self.checkPrevious block
  let resolver ← resolveBlockTxInputs P self.db.txoKV block
  return self.applied P bytes isMutable block resolver

def fetchResolver (db : Tables) (slot : ℕ) (hash : BlockHash) :
    Except Error ResolverValue :=
  match db.resolverBySlotKV.get slot with
  | none => .error (.missingResolver hash)
  | some (resHash, resolver) =>
    if resHash ≠ hash then .error (.resolverHashMismatch slot hash resHash) else .ok resolver

def undoEntry (isMutable : Bool) (state : Tables × ℕ) (entry : ℕ × BlockValue) :
    Except Error (Tables × ℕ) := do
  let (slot, _, hash, bytes) := entry
  let (mutableKV, seq) := record isMutable (state.1.mutableKV, state.2) (.undo slot hash bytes)
  let block ← decodeBlock P bytes
  let resolver ← fetchResolver state.1 slot hash
  let txoKV ← undoTxs block.hash block.txs.reverse
    ((∅ : SortedMap TxoRef TxoBody).applyWrites
      (resolver.map fun output => (output.1, some output.2.1)), state.1.txoKV)
  return ({
    blockBySlotKV := state.1.blockBySlotKV.erase slot
    mutableKV, txoKV
    resolverBySlotKV := state.1.resolverBySlotKV.erase slot }, seq)

def rolledBack (self : ChainDB) (isMutable : Bool) (state : Tables × ℕ) (log : Log)
    (lastBlockHash : Option BlockHash) : ChainDB :=
  let wal := record isMutable (state.1.mutableKV, state.2) log
  { self with
    db := { state.1 with mutableKV := wal.1 }, nextWalSeq := wal.2, lastBlockHash }

def stageRollback (self : ChainDB) (rbSlot : ℕ) (rbHash : BlockHash)
    (isMutable : Bool) : Except Error ChainDB :=
  match self.db.blockBySlotKV.entriesFrom rbSlot with
  | [] => .error (.invalidRollbackPoint none)
  | (foundSlot, _, foundHash, foundBytes) :: toRemove =>
    if rbSlot ≠ foundSlot ∨ rbHash ≠ foundHash then
      .error (.invalidRollbackPoint (some (foundSlot, foundHash)))
    else do
      let state ← Run.run (undoEntry P isMutable) (self.db, self.nextWalSeq) toRemove.reverse
      return self.rolledBack isMutable state (.mark rbSlot rbHash foundBytes) (some rbHash)

def stageRollbackToOrigin (self : ChainDB) (isMutable : Bool) : Except Error ChainDB := do
  let state ← Run.run (undoEntry P isMutable) (self.db, self.nextWalSeq)
    self.db.blockBySlotKV.entries.reverse
  return self.rolledBack isMutable state .origin none

def stageStart (self : ChainDB) (genesis : List GenesisUtxo) : Except Error ChainDB := do
  let self := ChainDB.open self.db self.immutableAfterSlots
  let txoKV ← insertGenesisTxos P self.db.txoKV genesis
  return { self with db := { self.db with txoKV } }

def commit (self : ChainDB) (commitFails : Bool) (staged : Except Error ChainDB) :
    ChainDB × Except Error Unit :=
  match staged with
  | .error e => (self, .error e)
  | .ok self' => if commitFails then (self, .error .rocks) else (self', .ok ())

def applyBlockWithContext (self : ChainDB) (commitFails : Bool) (bytes : BlockBody)
    (isMutable : Bool) : ChainDB × Except Error Unit :=
  self.commit commitFails (stageApply P self bytes isMutable)

def rollback (self : ChainDB) (commitFails : Bool) (rbSlot : ℕ) (rbHash : BlockHash)
    (isMutable : Bool) : ChainDB × Except Error Unit :=
  self.commit commitFails (stageRollback P self rbSlot rbHash isMutable)

def rollbackToOrigin (self : ChainDB) (commitFails : Bool) (isMutable : Bool) :
    ChainDB × Except Error Unit :=
  self.commit commitFails (stageRollbackToOrigin P self isMutable)

end ChainDB

inductive Command where
  | start
  | apply (bytes : BlockBody) (isMutable : Bool)
  | rollback (slot : ℕ) (hash : BlockHash) (isMutable : Bool)
  | rollbackToOrigin (isMutable : Bool)
  deriving DecidableEq

def ChainDB.step (genesis : List GenesisUtxo) (self : ChainDB) : Command → Except Error ChainDB
  | .start => stageStart P self genesis
  | .apply bytes isMutable => stageApply P self bytes isMutable
  | .rollback slot hash isMutable => stageRollback P self slot hash isMutable
  | .rollbackToOrigin isMutable => stageRollbackToOrigin P self isMutable

end CardanoIndexer.Compressor
