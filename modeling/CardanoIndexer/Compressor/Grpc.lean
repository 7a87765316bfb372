import CardanoIndexer.Compressor.Storage

/-!
# The sync service

Pages of blocks with their resolved inputs, and log entries as they go over the wire.
-/

namespace CardanoIndexer.Compressor

/-! ## Messages -/

structure BlockRef where
  slot : ℕ
  hash : BlockHash
  deriving DecidableEq

structure ResolvedTxo where
  txHash : TxHash
  txoIndex : ℕ
  slot : ℕ
  era : ℕ
  raw : Bytes
  deriving DecidableEq

structure BlockWithContext where
  ref : BlockRef
  raw : BlockBody
  txoResolver : List ResolvedTxo
  deriving DecidableEq

inductive Action where
  | apply (block : BlockWithContext)
  | undo (ref : BlockRef)
  | reset (ref : BlockRef)
  | origin
  deriving DecidableEq

inductive Status where
  | invalidArgument (text : String)
  | notFound (text : String)
  | internal (text : String)
  deriving DecidableEq

structure PageBlocksWithCtxResponse where
  blocks : List BlockWithContext
  nextCursor : Option BlockRef
  chainTip : Option BlockRef
  deriving DecidableEq

def toResolvedTxo (output : TxoRef × TxoBody) : ResolvedTxo where
  txHash := output.1.txHash
  txoIndex := output.1.index % 2 ^ 32
  slot := output.2.slot
  era := output.2.era
  raw := output.2.raw

/-! ## Pages -/

def intersectBlocks (db : Tables) : Option BlockRef → Except Status (List (ℕ × BlockValue))
  | none => .ok (db.blockBySlotKV.entriesFrom 0)
  | some cursor =>
    match db.blockBySlotKV.entriesFrom cursor.slot with
    | [] => .error (.notFound "intersect not found (no entry)")
    | (foundSlot, _, foundHash, _) :: rest =>
      if foundSlot ≠ cursor.slot then
        .error (.notFound "intersect not found (slot mismatch)")
      else if foundHash ≠ cursor.hash then
        .error (.notFound "intersect not found (hash mismatch)")
      else .ok rest

def intersectResolvers (db : Tables) :
    Option BlockRef → List (ℕ × BlockHash × ResolverValue)
  | none => db.resolverBySlotKV.entriesFrom 0
  | some cursor => (db.resolverBySlotKV.entriesFrom cursor.slot).drop 1

def pairWithContext (pair : (ℕ × BlockValue) × (ℕ × BlockHash × ResolverValue)) :
    Except Status BlockWithContext :=
  let ((slot, _, blockHash, bytes), (_, resolverHash, resolver)) := pair
  if blockHash ≠ resolverHash then .error (.internal "blocks/resolvers hash mismatch")
  else .ok ⟨⟨slot, blockHash⟩, bytes,
    resolver.map fun output => toResolvedTxo (output.1, output.2.1)⟩

def zipPage (blocks : List (ℕ × BlockValue)) (resolvers : List (ℕ × BlockHash × ResolverValue)) :
    Except Status (List BlockWithContext) :=
  if blocks.length ≠ resolvers.length then .error (.internal "blocks/resolvers len mismatch")
  else (blocks.zip resolvers).mapM pairWithContext

def pageBlocksWithContext (db : Tables) (cursor : Option BlockRef) (maxItems : ℕ) :
    Except Status PageBlocksWithCtxResponse :=
  if maxItems < 1 then .error (.invalidArgument "max items must be greater than 0")
  else do
    let behind ← intersectBlocks db cursor
    let pageBlocks := behind.take maxItems
    let page ← zipPage pageBlocks ((intersectResolvers db cursor).take maxItems)
    return {
      blocks := page
      -- there is a next page if one more block is behind this one
      nextCursor :=
        if maxItems < behind.length then
          pageBlocks.getLast?.map fun entry => ⟨entry.1, entry.2.2.1⟩
        else none
      chainTip := db.blockBySlotKV.entries.getLast?.map fun entry => ⟨entry.1, entry.2.2.1⟩ }

def logToResponseWithCtx : Log → Action
  | .apply slot hash body resolver =>
    .apply ⟨⟨slot, hash⟩, body, resolver.entries.map toResolvedTxo⟩
  | .undo slot hash _ => .undo ⟨slot, hash⟩
  | .mark slot hash _ => .reset ⟨slot, hash⟩
  | .origin => .origin

/-- `stream_updates_with_context` up to the stream itself: the sequence number that the
first known intersect gives. -/
def intersectMutable (log : SortedMap ℕ Log) (intersects : List BlockRef) : Except Status ℕ :=
  match intersects.findSome? fun ref => findWalSeq log ref.slot ref.hash with
  | some seq => .ok seq
  | none => .error (.notFound "no intersect found with mutable part of chain")

end CardanoIndexer.Compressor
