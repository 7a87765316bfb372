import Mathlib.Data.Char
import CardanoIndexer.Compressor.Grpc
import CardanoIndexer.Polyphony.Model

/-!
# The source stage

Pages of blocks are sent as immutable; near the tip the worker tries to switch to the update stream,
whose blocks it sends as mutable.
-/

namespace CardanoIndexer.Polyphony

open Compressor (BlockRef BlockBody TxoRef Era Pallas ResolvedTxo Tables Action Status Log
  pageBlocksWithContext logToResponseWithCtx intersectMutable)

/-! ## Block contexts -/

def outputRefText (ref : TxoRef) : List Char :=
  Bytes.hex ref.txHash.toList ++ '#' :: Nat.toDigits 10 ref.index

structure BlockContext where
  utxos : SortedMap (List Char) (ℕ × Era × Bytes)
  deriving DecidableEq

namespace BlockContext

def new : BlockContext := ⟨∅⟩

def insertTxo (self : BlockContext) (key : TxoRef) (slot : ℕ) (era : Era) (cbor : Bytes) :
    BlockContext :=
  ⟨self.utxos.put (outputRefText key) (slot, era, cbor)⟩

def findUtxo (self : BlockContext) (key : TxoRef) : Option (ℕ × Era × Bytes) :=
  self.utxos.get (outputRefText key)

end BlockContext

/-! ## Messages -/

inductive EnrichedBlockPayload where
  | rollForward (point : Option BlockRef) (block : BlockBody) (ctx : BlockContext)
      (isMutable : Bool)
  | rollBack (point : Option BlockRef)
  deriving DecidableEq

inductive SourceError where
  | unrecognisedEra
  | intersectNotFound
  | rollbackOutOfRange
  | source (status : Status)
  | unreachable
  deriving DecidableEq

section Actions

variable (P : Pallas)

def insertResolved (ctx : BlockContext) (txo : ResolvedTxo) : Except SourceError BlockContext :=
  match P.eraOfU16 (txo.era % 2 ^ 16) with
  | some era => .ok (ctx.insertTxo ⟨txo.txHash, txo.txoIndex⟩ txo.slot era txo.raw)
  | none => .error .unrecognisedEra

def buildContext (txoResolver : List ResolvedTxo) : Except SourceError BlockContext :=
  txoResolver.foldlM (insertResolved P) .new

def processAction (isMutable : Bool) : Action → Except SourceError (Option EnrichedBlockPayload)
  | .apply block => do
    let ctx ← buildContext P block.txoResolver
    return some (.rollForward (some block.ref) block.raw ctx isMutable)
  | .reset ref => return some (.rollBack (some ref))
  | .undo _ => return none
  | .origin => return none

structure SourceWorkUnit where
  actions : List Action
  isMutable : Bool

def SourceWorkUnit.execute (unit : SourceWorkUnit) :
    Except SourceError (List EnrichedBlockPayload) := do
  return (← unit.actions.mapM (processAction P unit.isMutable)).reduceOption

end Actions

/-! ## Where to start -/

inductive IntersectConfig where
  | origin
  | tip
  | point (ref : BlockRef)
  deriving DecidableEq

structure Persisted where
  buffer : Option (List BlockRef)
  lastPoint : Option (Option BlockRef)
  deriving DecidableEq

def firstServed (db : Tables) : List BlockRef → Except SourceError BlockRef
  | [] => .error .rollbackOutOfRange
  | point :: rest =>
    match pageBlocksWithContext db (some point) 1 with
    | .ok _ => .ok point
    | .error (.notFound _) => firstServed db rest
    | .error status => .error (.source status)

def tryIntersectWithRollbackBuf (db : Tables) (persisted : Persisted) :
    Except SourceError (Option BlockRef) :=
  match persisted.buffer with
  | none => .ok none
  | some buffer =>
    let points := buffer.reverse
    let newestBuffered := (points.head?.map BlockRef.slot).getD 0
    if persisted.lastPoint.any fun cursor => newestBuffered < (cursor.map BlockRef.slot).getD 0
    then .ok none
    else return some (← firstServed db points)

def served (db : Tables) (point : Option BlockRef) : Except SourceError (Option BlockRef) :=
  match pageBlocksWithContext db point 1 with
  | .ok _ => .ok point
  | .error (.notFound _) => .error .intersectNotFound
  | .error status => .error (.source status)

def requestTip (db : Tables) : Except SourceError (Option BlockRef) :=
  match pageBlocksWithContext db none 1 with
  | .ok page => .ok page.chainTip
  | .error status => .error (.source status)

def tryIntersectWithLastPointOrConfig (db : Tables) (intersect : IntersectConfig)
    (persisted : Persisted) : Except SourceError (Option BlockRef) :=
  match persisted.lastPoint with
  | some point => served db point
  | none =>
    match intersect with
    | .origin => .ok none
    | .tip => requestTip db
    | .point ref => served db (some ref)

/-! ## The worker -/

def immutableAfterSlots : ℕ := 129600

inductive Mode where
  | init
  | dumping (cursor : Option BlockRef)
  | streaming (lastSeq : ℕ)
  deriving DecidableEq

structure SourceWorker where
  maxItemsPerPage : Option ℕ
  intersect : IntersectConfig
  mode : Mode
  upstreamSlot : Option ℕ
  deriving DecidableEq

namespace SourceWorker

def new (maxItemsPerPage : Option ℕ) (intersect : IntersectConfig) : SourceWorker :=
  ⟨maxItemsPerPage, intersect, .init, none⟩

def bootstrap (self : SourceWorker) (db : Tables) (persisted : Persisted) :
    Except SourceError (SourceWorker × List EnrichedBlockPayload) := do
  let (intersect, sent) ←
    match ← tryIntersectWithRollbackBuf db persisted with
    -- the point may be behind the tip of what is stored
    | some point => pure (some point, [.rollBack (some point)])
    | none => do
      let point ← tryIntersectWithLastPointOrConfig db self.intersect persisted
      pure (point, [])
  let tip ← requestTip db
  return ({ self with upstreamSlot := tip.map BlockRef.slot, mode := .dumping intersect }, sent)

/-- The first half of `schedule`: near the tip, try to switch to the stream from the last
block of the last page. -/
def trySwitch (self : SourceWorker) (log : SortedMap ℕ Log) : Except SourceError SourceWorker :=
  match self.upstreamSlot, self.mode with
  | some upstreamSlot, .dumping (some cursor) =>
    if upstreamSlot ≤ cursor.slot + immutableAfterSlots then
      match intersectMutable log [cursor] with
      | .ok seq => .ok { self with mode := .streaming seq }
      | .error (.notFound _) => .ok self
      | .error status => .error (.source status)
    else .ok self
  | _, _ => .ok self

def nextUnit (self : SourceWorker) (db : Tables) :
    Except SourceError (SourceWorker × Option SourceWorkUnit) :=
  match self.mode with
  | .init => .error .unreachable
  | .streaming lastSeq =>
    match db.mutableKV.get (lastSeq + 1) with
    | some log =>
      .ok ({ self with mode := .streaming (lastSeq + 1) },
        some ⟨[logToResponseWithCtx log], true⟩)
    | none => .ok (self, none)
  | .dumping cursor =>
    match pageBlocksWithContext db cursor (self.maxItemsPerPage.getD 20) with
    | .error status => .error (.source status)
    | .ok page =>
      let self' := { self with
        mode := page.blocks.getLast?.elim self.mode fun last => .dumping (some last.ref)
        upstreamSlot := page.chainTip.map BlockRef.slot }
      .ok (self', if page.blocks.isEmpty then none
        else some ⟨page.blocks.map .apply, false⟩)

end SourceWorker

theorem outputRefText_injective : Function.Injective outputRefText := by
  intro ref ref' heq
  obtain ⟨hhash, hindex⟩ := List.append_inj heq (by simp)
  have hdigits : Nat.toDigits 10 ref.index = Nat.toDigits 10 ref'.index :=
    (List.cons.inj hindex).2
  have hnat := congrArg (Nat.ofDigitChars 10 · 0) hdigits
  simp only [Nat.ofDigitChars_ten_toDigits] at hnat
  cases ref
  cases ref'
  cases Vector.toList_inj.mp (Bytes.hex_injective hhash)
  cases hnat
  rfl

end CardanoIndexer.Polyphony
