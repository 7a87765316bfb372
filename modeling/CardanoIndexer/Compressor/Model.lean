import CardanoIndexer.Lib.Run
import CardanoIndexer.Timbre.Keys

/-!
# Blocks, transaction outputs and the tables of the compressor
-/

namespace CardanoIndexer.Compressor

abbrev BlockHash := Hash
abbrev BlockBody := Bytes
abbrev TxHash := Hash

/-! ## Transactions and blocks -/

structure TxoRef where
  txHash : TxHash
  index : ℕ
  deriving DecidableEq

def TxoRef.toPair (ref : TxoRef) : Bytes ×ₗ ℕ := toLex (ref.txHash.toList, ref.index)

theorem TxoRef.toPair_injective : Function.Injective TxoRef.toPair := by
  intro ref ref' heq
  obtain ⟨hlist, hindex⟩ := Prod.mk.inj (toLex.injective heq)
  cases ref
  cases ref'
  cases Vector.toList_inj.mp hlist
  cases hindex
  rfl

instance : LinearOrder TxoRef := LinearOrder.lift' TxoRef.toPair TxoRef.toPair_injective

inductive Era where
  | byron
  | shelley
  | allegra
  | mary
  | alonzo
  | babbage
  | conway
  deriving DecidableEq

structure TxoBody where
  slot : ℕ
  era : ℕ
  raw : Bytes
  deriving DecidableEq

structure Tx where
  hash : TxHash
  era : Era
  isValid : Bool
  inputs : List TxoRef
  collateral : List TxoRef
  referenceInputs : List TxoRef
  outputs : List Bytes
  collateralReturn : Option Bytes
  deriving DecidableEq

namespace Tx

def requires (tx : Tx) : List TxoRef := tx.inputs ++ tx.collateral ++ tx.referenceInputs

def consumes (tx : Tx) : List TxoRef := (if tx.isValid then tx.inputs else tx.collateral).dedup

def produces (tx : Tx) : List (ℕ × Bytes) :=
  if tx.isValid then tx.outputs.zipIdx.map Prod.swap
  else tx.collateralReturn.toList.map fun output => (tx.outputs.length, output)

theorem nodup_consumes (tx : Tx) : tx.consumes.Nodup := List.nodup_dedup _

theorem requires_of_consumes {tx : Tx} {ref : TxoRef} (h : ref ∈ tx.consumes) :
    ref ∈ tx.requires := by
  rw [consumes, List.mem_dedup] at h
  split at h <;> simp [requires, h]

end Tx

structure Block where
  slot : ℕ
  hash : BlockHash
  number : ℕ
  previousHash : Option BlockHash
  txs : List Tx
  deriving DecidableEq

structure GenesisUtxo where
  tx : TxHash
  payload : Bytes
  crc : ℕ
  amount : ℕ
  deriving DecidableEq

structure Pallas where
  decode : BlockBody → Except String Block
  encodeTxOut : Bytes → ℕ → ℕ → Except String Bytes
  eraToU16 : Era → ℕ
  eraOfU16 : ℕ → Option Era
  eraToU16_lt : ∀ era, eraToU16 era < 2 ^ 16
  eraOfU16_eraToU16 : ∀ era, eraOfU16 (eraToU16 era) = some era
  eraOfU16_zero : eraOfU16 0 = some .byron

structure StoredBlock extends Block where
  bytes : BlockBody
  deriving DecidableEq

/-! ## Tables -/

abbrev BlockValue := ℕ × BlockHash × BlockBody

abbrev ResolverValue := List (TxoRef × TxoBody × Bool)

inductive Log where
  | apply (slot : ℕ) (hash : BlockHash) (body : BlockBody)
      (resolver : SortedMap TxoRef TxoBody)
  | undo (slot : ℕ) (hash : BlockHash) (body : BlockBody)
  | mark (slot : ℕ) (hash : BlockHash) (body : BlockBody)
  | origin
  deriving DecidableEq

namespace Log

def slot : Log → Option ℕ
  | apply slot _ _ _ | undo slot _ _ | mark slot _ _ => some slot
  | origin => none

def hash : Log → Option BlockHash
  | apply _ hash _ _ | undo _ hash _ | mark _ hash _ => some hash
  | origin => none

def isApply : Log → Bool
  | apply .. => true
  | _ => false

def isMark : Log → Bool
  | mark .. => true
  | _ => false

end Log

structure Tables where
  blockBySlotKV : SortedMap ℕ BlockValue
  mutableKV : SortedMap ℕ Log
  resolverBySlotKV : SortedMap ℕ (BlockHash × ResolverValue)
  txoKV : SortedMap TxoRef TxoBody
  deriving DecidableEq

inductive Error where
  | rocks
  | decoding (text : String)
  | genesisTxo (text : String)
  | missingTxo (block : BlockHash) (tx : TxHash) (index : ℕ)
  | missingResolver (block : BlockHash)
  | resolverHashMismatch (slot : ℕ) (block resolver : BlockHash)
  | invalidRollbackPoint (found : Option (ℕ × BlockHash))
  | previousHashMismatch (applying : BlockHash) (receivedPrev expectedPrev : Option BlockHash)
  deriving DecidableEq

structure ChainDB where
  db : Tables
  nextWalSeq : ℕ
  lastBlockHash : Option BlockHash
  immutableAfterSlots : Option ℕ
  deriving DecidableEq

/-! ## A small instance

The concrete runs of the later modules decode a handful of listed blocks. -/

def sampleHash (tag : Byte) : Hash := Vector.replicate 32 tag

def samplePallas (blocks : List StoredBlock) : Pallas where
  decode bytes :=
    match blocks.find? fun block => block.bytes = bytes with
    | some block => .ok block.toBlock
    | none => .error "unknown block"
  encodeTxOut _ _ amount := .ok [Fin.ofNat 256 amount]
  eraToU16
    | .byron => 1
    | .shelley => 2
    | .allegra => 3
    | .mary => 4
    | .alonzo => 5
    | .babbage => 6
    | .conway => 7
  eraOfU16
    | 0 | 1 => some .byron
    | 2 => some .shelley
    | 3 => some .allegra
    | 4 => some .mary
    | 5 => some .alonzo
    | 6 => some .babbage
    | 7 => some .conway
    | _ => none
  eraToU16_lt era := by cases era <;> decide
  eraOfU16_eraToU16 era := by cases era <;> rfl
  eraOfU16_zero := rfl

def sampleBlock (slot : ℕ) (tag : Byte) (previous : Option Byte) (txs : List Tx) :
    StoredBlock where
  slot := slot
  hash := sampleHash tag
  number := tag.val
  previousHash := previous.map sampleHash
  txs := txs
  bytes := [tag]

end CardanoIndexer.Compressor
