import CardanoIndexer.Reducers.Balance
import CardanoIndexer.Reducers.Values
import CardanoIndexer.Timbre.Values

/-!
# Datums and scripts
-/

namespace CardanoIndexer.Reducers

open BalanceByAddress (filterMatches)
open Compressor (Tx Block StoredBlock Era)
open Polyphony (BlockContext WorkError Store DataOp)
open Timbre

/-! ## The reducer of datums -/

inductive DatumOption where
  | hash (hash : Hash)
  | data (raw : Bytes)
  deriving DecidableEq

structure DatumReader where
  datum : Era → Bytes → Option DatumOption
  plutusData : Tx → List Bytes

structure DatumOutput where
  hash : Hash
  bytes : Option Bytes

namespace DatumByHash

variable (R : DatumReader) (blake2b : Bytes → Hash)

def outputOf : DatumOption → DatumOutput
  | .data raw => ⟨blake2b raw, some raw⟩
  | .hash hash => ⟨hash, none⟩

/-- `process_tx`: outputs, collateral return and witnesses, whether or not the transaction is
valid. -/
def processTx (tx : Tx) : List DatumOutput :=
  (tx.outputs.filterMap (R.datum tx.era)).map (outputOf blake2b) ++
    (tx.collateralReturn.toList.filterMap (R.datum tx.era)).map (outputOf blake2b) ++
    (R.plutusData tx).map fun raw => ⟨blake2b raw, some raw⟩

def reduceBlock (filter : Option (Block → BlockContext → Tx → Except WorkError Bool))
    (block : Block) (ctx : BlockContext) : Except WorkError (List DatumOutput) := do
  let outputs ← block.txs.mapM fun tx => do
    if ← filterMatches filter block ctx tx then return processTx R blake2b tx else return []
  return outputs.flatten

def dataOp (output : DatumOutput) : DataOp :=
  ⟨reducerDatumByHash, output.hash.toList, match output.bytes with
    | some bytes => .set bytes
    | none => .insert []⟩

def reduce (filter : Option (Block → BlockContext → Tx → Except WorkError Bool)) (block : Block)
    (ctx : BlockContext) : Except WorkError (List DataOp) := do
  let outputs ← reduceBlock R blake2b filter block ctx
  return outputs.map dataOp

end DatumByHash

/-! ## The reducer of scripts -/

inductive ScriptRef where
  | nativeScript (raw : Bytes)
  | plutusV1Script (bytes : Bytes)
  | plutusV2Script (bytes : Bytes)
  | plutusV3Script (bytes : Bytes)
  deriving DecidableEq

structure ScriptReader where
  scriptRef : Era → Bytes → Option ScriptRef
  nativeScripts : Tx → List Bytes
  plutusV1Scripts : Tx → List Bytes
  plutusV2Scripts : Tx → List Bytes
  plutusV3Scripts : Tx → List Bytes
  hashTagged : Byte → Bytes → Hash28
  encodeFragment : Bytes → Bytes

structure ScriptOutput where
  hash : Hash28
  txHash : Hash
  slot : U64
  kind : Byte
  bytes : Bytes
  deriving DecidableEq

namespace ScriptByHash

variable (S : ScriptReader)

def outputOf (txHash : Hash) (slot : U64) : ScriptRef → ScriptOutput
  | .nativeScript raw => ⟨S.hashTagged 0 raw, txHash, slot, 0, raw⟩
  | .plutusV1Script bytes => ⟨S.hashTagged 1 bytes, txHash, slot, 1, S.encodeFragment bytes⟩
  | .plutusV2Script bytes => ⟨S.hashTagged 2 bytes, txHash, slot, 2, S.encodeFragment bytes⟩
  | .plutusV3Script bytes => ⟨S.hashTagged 3 bytes, txHash, slot, 3, S.encodeFragment bytes⟩

def scriptsOf (tx : Tx) : List ScriptRef :=
  (tx.outputs ++ tx.collateralReturn.toList).filterMap (S.scriptRef tx.era) ++
    (S.nativeScripts tx).map .nativeScript ++ (S.plutusV1Scripts tx).map .plutusV1Script ++
    (S.plutusV2Scripts tx).map .plutusV2Script ++ (S.plutusV3Scripts tx).map .plutusV3Script

def processTx (slot : U64) (tx : Tx) : List ScriptOutput :=
  (scriptsOf S tx).map (outputOf S tx.hash slot)

def reduceBlock (block : Block) : List ScriptOutput :=
  block.txs.flatMap (processTx S (BitVec.ofNat 64 block.slot))

def dataOp (output : ScriptOutput) : DataOp :=
  ⟨reducerScriptByHash, output.hash.toList,
    .insert (encodeScriptByHashValue output.txHash output.slot output.kind output.bytes)⟩

def reduce (block : Block) (_ : BlockContext) : Except WorkError (List DataOp) :=
  .ok ((reduceBlock S block).map dataOp)

end ScriptByHash

/-! ## Datums and scripts on a chain -/

section Chain

variable (R : DatumReader) (S : ScriptReader) (blake2b : Bytes → Hash)

def DatumOption.hashOf : DatumOption → Hash
  | .hash h => h
  | .data raw => blake2b raw

def ShowsDatum (tx : Tx) (datum : DatumOption) : Prop :=
  (∃ output ∈ tx.outputs, R.datum tx.era output = some datum) ∨
    (∃ output, tx.collateralReturn = some output ∧ R.datum tx.era output = some datum) ∨
    ∃ raw ∈ R.plutusData tx, datum = .data raw

def DatumSeen (chain : List StoredBlock) (datum : DatumOption) : Prop :=
  ∃ block ∈ chain, ∃ tx ∈ block.txs, ShowsDatum R tx datum

structure ScriptSeen where
  script : ScriptRef
  txHash : Hash
  slot : U64

def scriptsSeen (chain : List StoredBlock) : List ScriptSeen :=
  chain.reverse.flatMap fun block => block.txs.flatMap fun tx =>
    (ScriptByHash.scriptsOf S tx).map fun script => ⟨script, tx.hash, BitVec.ofNat 64 block.slot⟩

def ScriptRef.hashOf : ScriptRef → Hash28
  | .nativeScript raw => S.hashTagged 0 raw
  | .plutusV1Script bytes => S.hashTagged 1 bytes
  | .plutusV2Script bytes => S.hashTagged 2 bytes
  | .plutusV3Script bytes => S.hashTagged 3 bytes

end Chain

/-! ## The registers -/

theorem encodeDataKey_toList_eq_iff (enc : KeyEncoder) (tag : Byte) {n : ℕ} {a b : Vector Byte n} :
    enc.encodeDataKey tag a.toList = enc.encodeDataKey tag b.toList ↔ a = b := by
  rw [enc.encodeDataKey_inj, toList_injective.eq_iff]

section Datums

variable {R : DatumReader} {blake2b : Bytes → Hash} {enc : KeyEncoder}
  {blocks : List (StoredBlock × BlockContext)}

theorem mem_processTx {tx : Tx} {output : DatumOutput} :
    output ∈ DatumByHash.processTx R blake2b tx ↔
      ∃ datum, ShowsDatum R tx datum ∧ DatumByHash.outputOf blake2b datum = output := by
  rw [DatumByHash.processTx, List.mem_append, List.mem_append]
  simp only [List.mem_map, List.mem_filterMap, Option.mem_toList]
  constructor
  · rintro ((⟨datum, ⟨raw, hraw, hdatum⟩, rfl⟩ | ⟨datum, ⟨raw, hraw, hdatum⟩, rfl⟩) |
      ⟨raw, hraw, rfl⟩)
    · exact ⟨datum, Or.inl ⟨raw, hraw, hdatum⟩, rfl⟩
    · exact ⟨datum, Or.inr (Or.inl ⟨raw, hraw, hdatum⟩), rfl⟩
    · exact ⟨.data raw, Or.inr (Or.inr ⟨raw, hraw, rfl⟩), rfl⟩
  · rintro ⟨datum, ⟨raw, hraw, hdatum⟩ | ⟨raw, hraw, hdatum⟩ | ⟨raw, hraw, rfl⟩, rfl⟩
    · exact Or.inl (Or.inl ⟨datum, ⟨raw, hraw, hdatum⟩, rfl⟩)
    · exact Or.inl (Or.inr ⟨datum, ⟨raw, hraw, hdatum⟩, rfl⟩)
    · exact Or.inr ⟨raw, hraw, rfl⟩

def datumOutputs (R : DatumReader) (blake2b : Bytes → Hash) (entry : StoredBlock × BlockContext) :
    List DatumOutput :=
  entry.1.txs.flatMap (DatumByHash.processTx R blake2b)

theorem reduces_datums (R : DatumReader) (blake2b : Bytes → Hash)
    (blocks : List (StoredBlock × BlockContext)) :
    Reduces (DatumByHash.reduce R blake2b none) .value
      (fun entry => (datumOutputs R blake2b entry).map DatumByHash.dataOp) blocks := by
  intro entry _
  constructor
  · have houtputs : DatumByHash.reduceBlock R blake2b none entry.1.toBlock entry.2 =
        .ok (datumOutputs R blake2b entry) := by
      have hall : entry.1.txs.mapM (fun tx => (do
          if ← filterMatches none entry.1.toBlock entry.2 tx then
            return DatumByHash.processTx R blake2b tx
          else return [] : Except WorkError (List DatumOutput))) =
          .ok (entry.1.txs.map (DatumByHash.processTx R blake2b)) :=
        Except.mapM_eq_ok_map fun tx _ => rfl
      rw [DatumByHash.reduceBlock, hall]
      rfl
    rw [DatumByHash.reduce, houtputs]
    rfl
  · intro op hop
    obtain ⟨output, -, rfl⟩ := List.mem_map.mp hop
    unfold DatumByHash.dataOp
    split <;> rfl

theorem mem_datumOutputs {output : DatumOutput} :
    output ∈ blocks.reverse.flatMap (datumOutputs R blake2b) ↔
      ∃ datum, DatumSeen R (blocks.map Prod.fst) datum ∧
        DatumByHash.outputOf blake2b datum = output := by
  simp only [List.mem_flatMap, List.mem_reverse, datumOutputs, mem_processTx]
  constructor
  · rintro ⟨entry, hentry, tx, htx, datum, hshows, houtput⟩
    exact ⟨datum, ⟨entry.1, List.mem_map_of_mem hentry, tx, htx, hshows⟩, houtput⟩
  · rintro ⟨datum, ⟨block, hblock, tx, htx, hshows⟩, houtput⟩
    obtain ⟨entry, hentry, rfl⟩ := List.mem_map.mp hblock
    exact ⟨entry, hentry, tx, htx, datum, hshows, houtput⟩

def datumWrite : DatumOption → Register.Op Bytes
  | .hash _ => .insert []
  | .data raw => .set raw

theorem mem_writesAt_datum {hash : Hash} {op : Register.Op Bytes} :
    op ∈ writesAt (enc.encodeDatumByHashKey hash) (actionsOf enc
        (fun entry => (datumOutputs R blake2b entry).map DatumByHash.dataOp) blocks) ↔
      ∃ datum, DatumSeen R (blocks.map Prod.fst) datum ∧ datum.hashOf blake2b = hash ∧
        datumWrite datum = op := by
  have hkey : ∀ output : DatumOutput, ((DatumByHash.dataOp output).toAction enc).key =
      enc.encodeDatumByHashKey hash ↔ output.hash = hash := fun output =>
    encodeDataKey_toList_eq_iff enc reducerDatumByHash
  have hop : ∀ datum : DatumOption, (DatumByHash.outputOf blake2b datum).hash =
      datum.hashOf blake2b ∧ registerOp (DatumByHash.dataOp (DatumByHash.outputOf blake2b datum)).op =
        datumWrite datum := by
    intro datum
    cases datum <;> exact ⟨rfl, rfl⟩
  rw [writesAt_actionsOf hkey, List.mem_map]
  simp only [List.mem_filter, mem_datumOutputs, decide_eq_true_eq]
  constructor
  · rintro ⟨_, ⟨⟨datum, hseen, rfl⟩, hhash⟩, rfl⟩
    exact ⟨datum, hseen, (hop datum).1 ▸ hhash, (hop datum).2.symm⟩
  · rintro ⟨datum, hseen, hhash, rfl⟩
    exact ⟨_, ⟨⟨datum, hseen, rfl⟩, (hop datum).1.trans hhash⟩, (hop datum).2⟩

end Datums

section Scripts

variable {S : ScriptReader} {enc : KeyEncoder} {blocks : List (StoredBlock × BlockContext)}

theorem reduces_scripts (S : ScriptReader) (blocks : List (StoredBlock × BlockContext)) :
    Reduces (ScriptByHash.reduce S) .value
      (fun entry => (ScriptByHash.reduceBlock S entry.1.toBlock).map ScriptByHash.dataOp)
      blocks := by
  intro entry _
  refine ⟨rfl, fun op hop => ?_⟩
  obtain ⟨output, -, rfl⟩ := List.mem_map.mp hop
  rfl

def ScriptSeen.output (S : ScriptReader) (seen : ScriptSeen) : ScriptOutput :=
  ScriptByHash.outputOf S seen.txHash seen.slot seen.script

def ScriptOutput.value (output : ScriptOutput) : Bytes :=
  encodeScriptByHashValue output.txHash output.slot output.kind output.bytes

theorem flatMap_reduceBlock_scripts :
    blocks.reverse.flatMap (fun entry => ScriptByHash.reduceBlock S entry.1.toBlock) =
      (scriptsSeen S (blocks.map Prod.fst)).map (ScriptSeen.output S) := by
  simp only [scriptsSeen, ScriptByHash.reduceBlock, List.map_flatMap,
    List.map_map, ← List.map_reverse, List.flatMap_map]
  rfl

theorem hash_outputOf (S : ScriptReader) (seen : ScriptSeen) :
    (seen.output S).hash = seen.script.hashOf S ∧ (seen.output S).txHash = seen.txHash ∧
      (seen.output S).slot = seen.slot := by
  obtain ⟨script, txHash, slot⟩ := seen
  cases script <;> exact ⟨rfl, rfl, rfl⟩

theorem writesAt_script (hash : Hash28) :
    writesAt (enc.encodeScriptByHashKey hash) (actionsOf enc
        (fun entry => (ScriptByHash.reduceBlock S entry.1.toBlock).map ScriptByHash.dataOp)
        blocks) =
      (((scriptsSeen S (blocks.map Prod.fst)).filter fun seen =>
        seen.script.hashOf S = hash).map fun seen => (seen.output S).value).map .insert := by
  have hkey : ∀ output : ScriptOutput, ((ScriptByHash.dataOp output).toAction enc).key =
      enc.encodeScriptByHashKey hash ↔ output.hash = hash := fun output =>
    encodeDataKey_toList_eq_iff enc reducerScriptByHash
  rw [writesAt_actionsOf hkey, flatMap_reduceBlock_scripts, List.filter_map, List.map_map,
    List.map_map]
  have hfilter : (fun output : ScriptOutput => decide (output.hash = hash)) ∘ ScriptSeen.output S =
      fun seen => decide (seen.script.hashOf S = hash) := by
    funext seen
    rw [Function.comp_apply, (hash_outputOf S seen).1]
  rw [hfilter]
  rfl

end Scripts

/-- **Datums and scripts are recorded once and for good**, however a chain is divided into batches.
-/
theorem datums_and_scripts_recorded (R : DatumReader) (S : ScriptReader) (blake2b : Bytes → Hash)
    (enc : KeyEncoder) (maxLen maxBytes : ℕ) (paranoidMode : Bool) (now : U64)
    (batches : List Batch) :
    ∃ datums scripts,
      indexBatches (DatumByHash.reduce R blake2b none) enc maxLen maxBytes paranoidMode now batches =
        .ok datums ∧
      indexBatches (ScriptByHash.reduce S) enc maxLen maxBytes paranoidMode now batches =
        .ok scripts ∧
      (∀ hash, (datums.get (enc.encodeDatumByHashKey hash)).isSome ↔
        ∃ datum, DatumSeen R ((blocksOf batches).map Prod.fst) datum ∧
          datum.hashOf blake2b = hash) ∧
      (∀ raw, DatumSeen R ((blocksOf batches).map Prod.fst) (.data raw) →
        (∀ other, DatumSeen R ((blocksOf batches).map Prod.fst) (.data other) →
          blake2b other = blake2b raw → other = raw) →
        datums.get (enc.encodeDatumByHashKey (blake2b raw)) = some raw) ∧
      ∀ hash, ((scripts.get (enc.encodeScriptByHashKey hash)).map fun value =>
          (decodeScriptByHashValue value).map fun script => (script.txHash, script.slot)) =
        ((scriptsSeen S ((blocksOf batches).map Prod.fst)).find? fun seen =>
          seen.script.hashOf S = hash).map fun seen => some (seen.txHash, seen.slot) := by
  obtain ⟨datums, hdatums, hdatum⟩ := exists_indexBatches_values enc maxLen maxBytes paranoidMode now
    (reduces_datums R blake2b (blocksOf batches))
  obtain ⟨scripts, hscripts, hscript⟩ := exists_indexBatches_values enc maxLen maxBytes paranoidMode
    now (reduces_scripts S (blocksOf batches))
  have hclear : ∀ hash, Register.Op.clear ∉ writesAt (enc.encodeDatumByHashKey hash)
      (actionsOf enc (fun entry => (datumOutputs R blake2b entry).map DatumByHash.dataOp)
        (blocksOf batches)) := by
    intro hash h
    obtain ⟨datum, -, -, hop⟩ := mem_writesAt_datum.mp h
    cases datum <;> cases hop
  refine ⟨datums, scripts, hdatums, hscripts, fun hash => ?_, fun raw hseen hunique => ?_,
    fun hash => ?_⟩
  · rw [hdatum, Register.isSome_run_iff (hclear hash)]
    constructor
    · intro hne
      obtain ⟨op, hop⟩ := List.exists_mem_of_ne_nil _ hne
      obtain ⟨datum, hseen, hhash, -⟩ := mem_writesAt_datum.mp hop
      exact ⟨datum, hseen, hhash⟩
    · rintro ⟨datum, hseen, hhash⟩
      exact List.ne_nil_of_mem (mem_writesAt_datum.mpr ⟨datum, hseen, hhash, rfl⟩)
  · obtain ⟨other, hother, hrun⟩ := Register.exists_set_of_run (hclear (blake2b raw))
      (mem_writesAt_datum.mpr ⟨.data raw, hseen, rfl, rfl⟩) none
    obtain ⟨datum, hseen', hhash, hop⟩ := mem_writesAt_datum.mp hother
    rw [hdatum, hrun]
    cases datum with
    | hash h => cases hop
    | data raw' =>
      cases hop
      rw [hunique other hseen' hhash]
  · rw [hscript, writesAt_script, Register.run_map_insert, List.head?_map, List.head?_filter,
      Option.map_map]
    congr 1
    funext seen
    obtain ⟨-, htx, hslot⟩ := hash_outputOf S seen
    simp [ScriptOutput.value, decodeScriptByHashValue_encode, htx, hslot]

end CardanoIndexer.Reducers
