import CardanoIndexer.Mapi.Metadata
import CardanoIndexer.Reducers.Supply
import CardanoIndexer.Reducers.Values
import CardanoIndexer.Timbre.Values

/-!
# CIP-25 metadata of assets

The reducer keeps the metadata of the last mint unread; the API searches it for the asset.
-/

namespace CardanoIndexer.Pipeline

open Compressor (Tx Block StoredBlock)
open Polyphony (BlockContext WorkError DataOp)
open Mapi (Failure Json Metadatum Store insertField metadatumToJson)
open Reducers (Asset Batch Mint Reduces actionsOf blocksOf indexBatches quantitiesIn validTxs
  writesAt)
open Timbre

/-! ## The reducer -/

structure Cip25Output where
  policy : Hash28
  name : Bytes
  metadata721 : Bytes

namespace Cip25MetadataByAsset

variable (mints : Tx → Mint) (metadata721 : Tx → Option Metadatum)
  (encodeFragment : Metadatum → Bytes)

def processTx (tx : Tx) : List Cip25Output :=
  match metadata721 tx with
  | none => []
  | some md => (mints tx).entries.flatMap fun entry =>
    (entry.2.filter fun asset => 0 < asset.2.toInt).map fun asset =>
      ⟨entry.1, asset.1, encodeFragment md⟩

def reduceBlock (block : Block) : List Cip25Output :=
  (block.txs.filter Tx.isValid).flatMap (processTx mints metadata721 encodeFragment)

def dataOp (output : Cip25Output) : Except WorkError DataOp :=
  if h : output.name.length ≤ 255 then
    .ok ⟨reducerCip25MetadataByAsset,
      output.policy.toList ++ encodeShortBytestring ⟨output.name, h⟩, .set output.metadata721⟩
  else .error .panic

def reduce (block : Block) (_ : BlockContext) : Except WorkError (List DataOp) :=
  (reduceBlock mints metadata721 encodeFragment block).mapM dataOp

end Cip25MetadataByAsset

/-! ## The API -/

section Api

variable (fromUtf8Lossy : Bytes → List Char) (decodeFragment : Bytes → Option Metadatum)

def isVersion (number : ℤ) (short long : List Char) : Json → Bool
  | .number n => n.val = number
  | .string s => s = short || s = long
  | _ => false

def joinTexts : List Json → Option (List Char)
  | [] => some []
  | .string s :: rest => (joinTexts rest).map (s ++ ·)
  | _ :: _ => none

def joinImage : Json → Option Json
  | .object fields => match fields.lookup "image".toList with
      | some (.array chunks) => (joinTexts chunks).map fun image =>
        .object (insertField "image".toList (.string image) fields)
      | _ => some (.object fields)
  | other => some other

def tryParseCip25Metadata (md721 : Json) (policy : Hash28) (assetName : Bytes) : Option Json :=
  let policyHex := Bytes.hex policy.toList
  let firstVersion := (md721.get? policyHex).bind (Json.get? (fromUtf8Lossy assetName))
  let md := match md721.get? "version".toList with
    | some ver =>
      if isVersion 1 "1".toList "1.0".toList ver then firstVersion
      else if isVersion 2 "2".toList "2.0".toList ver then
        (md721.get? ('0' :: 'x' :: policyHex)).bind
          (Json.get? ('0' :: 'x' :: Bytes.hex assetName))
      else none
    | none => firstVersion
  md.bind joinImage

def requiredKey (enc : KeyEncoder) (asset : Asset) : Except Failure Bytes :=
  if h : asset.2.length ≤ 255 then
    .ok (enc.encodeCip25MetadataByAssetKey asset.1 ⟨asset.2, h⟩)
  else .error .panic

def readMetadata (kv : Bytes × Bytes) : Except Failure (Asset × Metadatum) := do
  let asset ← Mapi.orPanic (decodeCip25MetadataByAssetKey kv.1)
  let md ← Mapi.orPanic (decodeFragment kv.2)
  return (asset, md)

def deriveEntry (asset : Asset) (md721 : Metadatum) : Except Failure (Option Json) := do
  match ← metadatumToJson md721 with
  | some md721Json => return tryParseCip25Metadata fromUtf8Lossy md721Json asset.1 asset.2
  | none => return none

def fetchCip25Metadata (enc : KeyEncoder) (store : Store) (assets : List Asset) :
    Except Failure (List (Asset × Json)) := do
  let requiredKeys ← assets.mapM (requiredKey enc)
  let kvs := requiredKeys.filterMap fun key => (store.get key).map fun value => (key, value)
  let acc ← kvs.mapM (readMetadata decodeFragment)
  let acc2 ← acc.mapM fun entry => do
    let derived ← deriveEntry fromUtf8Lossy entry.1 entry.2
    return derived.map fun json => (entry.1, json)
  return acc2.filterMap id

end Api

/-! ## Entries on a chain -/

section Chain

variable (mints : Tx → Mint) (metadata721 : Tx → Option Metadatum)
  (fromUtf8Lossy : Bytes → List Char) (asset : Asset)

def MintsSome (tx : Tx) : Prop := ∃ q ∈ quantitiesIn mints asset tx, 0 < q

instance (tx : Tx) : Decidable (MintsSome mints asset tx) :=
  inferInstanceAs (Decidable (∃ q ∈ quantitiesIn mints asset tx, 0 < q))

def metadataOfMints (chain : List StoredBlock) : List Metadatum :=
  (validTxs chain).filterMap fun tx => if MintsSome mints asset tx then metadata721 tx else none

def entryOf (md : Metadatum) : Option Json :=
  match deriveEntry fromUtf8Lossy asset md with
  | .ok entry => entry
  | .error _ => none

def latestEntry (chain : List StoredBlock) : Option Json :=
  ((metadataOfMints mints metadata721 asset chain).filterMap (entryOf fromUtf8Lossy asset)).getLast?

def NamesFit (chain : List StoredBlock) : Prop :=
  ∀ tx ∈ validTxs chain, ∀ entry ∈ (mints tx).entries, ∀ item ∈ entry.2, item.1.length ≤ 255

end Chain

/-! ## What is stored -/

section Store

variable {mints : Tx → Mint} {metadata721 : Tx → Option Metadatum}
  {encodeFragment : Metadatum → Bytes} {blocks : List (StoredBlock × BlockContext)}

open Cip25MetadataByAsset

def cip25Op (output : Cip25Output) : DataOp :=
  ⟨reducerCip25MetadataByAsset,
    output.policy.toList ++ (Fin.ofNat 256 output.name.length :: output.name),
    .set output.metadata721⟩

theorem dataOp_eq {output : Cip25Output} (h : output.name.length ≤ 255) :
    dataOp output = .ok (cip25Op output) :=
  dif_pos h

theorem mem_processTx {tx : Tx} {output : Cip25Output}
    (h : output ∈ processTx mints metadata721 encodeFragment tx) :
    ∃ entry ∈ (mints tx).entries, ∃ item ∈ entry.2, output.name = item.1 := by
  unfold processTx at h
  split at h
  · cases h
  · obtain ⟨entry, hentry, h⟩ := List.mem_flatMap.mp h
    obtain ⟨item, hitem, rfl⟩ := List.mem_map.mp h
    exact ⟨entry, hentry, item, List.mem_of_mem_filter hitem, rfl⟩

theorem reduces_cip25 (hnames : NamesFit mints (blocks.map Prod.fst)) :
    Reduces (reduce mints metadata721 encodeFragment) .value
      (fun entry => (reduceBlock mints metadata721 encodeFragment entry.1.toBlock).map cip25Op)
      blocks := by
  intro entry hentry
  constructor
  · rw [reduce]
    refine Except.mapM_eq_ok_map fun output houtput => dataOp_eq ?_
    obtain ⟨tx, htx, houtput⟩ := List.mem_flatMap.mp houtput
    obtain ⟨minted, hminted, item, hitem, hname⟩ := mem_processTx houtput
    rw [hname]
    refine hnames tx (List.mem_flatMap.mpr ⟨entry.1, ?_, htx⟩) minted hminted item hitem
    exact List.mem_reverse.mpr (List.mem_map_of_mem hentry)
  · intro op hop
    obtain ⟨output, -, rfl⟩ := List.mem_map.mp hop
    rfl

theorem key_cip25Op (enc : KeyEncoder) (output : Cip25Output) (policy : Hash28)
    (name : ShortBytes) :
    ((cip25Op output).toAction enc).key = enc.encodeCip25MetadataByAssetKey policy name ↔
      (output.policy, output.name) = (policy, name.bytes) := by
  have hkey : ((cip25Op output).toAction enc).key = enc.encodeDataKey reducerCip25MetadataByAsset
      (output.policy.toList ++ (Fin.ofNat 256 output.name.length :: output.name)) := rfl
  rw [hkey, KeyEncoder.encodeCip25MetadataByAssetKey, enc.encodeDataKey_inj, Prod.mk.injEq]
  constructor
  · intro heq
    obtain ⟨hpolicy, hrest⟩ := List.append_inj heq (by simp)
    exact ⟨toList_injective hpolicy, (List.cons.inj hrest).2⟩
  · rintro ⟨rfl, hname⟩
    rw [hname, encodeShortBytestring]

theorem filter_processTx (asset : Asset) (tx : Tx) :
    ((processTx mints metadata721 encodeFragment tx).filter fun output =>
        (output.policy, output.name) = asset).map Cip25Output.metadata721 =
      (if MintsSome mints asset tx then metadata721 tx else none).toList.map encodeFragment := by
  cases hmd : metadata721 tx with
  | none => simp [processTx, hmd]
  | some md =>
    have hvalues : ((processTx mints metadata721 encodeFragment tx).filter fun output =>
        (output.policy, output.name) = asset).map Cip25Output.metadata721 =
          ((quantitiesIn mints asset tx).filter fun q => 0 < q).map
            fun _ => encodeFragment md := by
      simp only [processTx, hmd, quantitiesIn, List.filter_flatMap, List.map_flatMap,
        List.filter_map, List.map_map, List.filter_filter]
      refine List.flatMap_congr fun entry _ => ?_
      refine congrArg _ (List.filter_congr fun item _ => ?_)
      exact Bool.and_comm ..
    rw [hvalues]
    -- a transaction has one quantity of an asset at most
    have hone : (quantitiesIn mints asset tx).length ≤ 1 := Reducers.length_quantitiesIn_le_one tx
    by_cases hmints : MintsSome mints asset tx
    · rw [if_pos hmints]
      obtain ⟨q, hq, hpos⟩ := hmints
      have hsingle : quantitiesIn mints asset tx = [q] := by
        obtain ⟨q', hq'⟩ := List.length_eq_one_iff.mp
          (le_antisymm hone (List.length_pos_of_mem hq))
        have heq : q = q' := List.mem_singleton.mp (hq' ▸ hq)
        rw [hq', heq]
      simp [hsingle, hpos]
    · rw [if_neg hmints]
      have hnone : (quantitiesIn mints asset tx).filter (fun q => 0 < q) = [] := by
        rw [List.filter_eq_nil_iff]
        intro q hq hpos
        exact hmints ⟨q, hq, of_decide_eq_true hpos⟩
      rw [hnone]
      rfl

theorem writesAt_cip25 (enc : KeyEncoder) (policy : Hash28) (name : ShortBytes) :
    writesAt (enc.encodeCip25MetadataByAssetKey policy name) (actionsOf enc
        (fun entry => (reduceBlock mints metadata721 encodeFragment entry.1.toBlock).map cip25Op)
        blocks) =
      ((metadataOfMints mints metadata721 (policy, name.bytes) (blocks.map Prod.fst)).map
        encodeFragment).map .set := by
  have houtputs : blocks.reverse.flatMap (fun entry =>
      reduceBlock mints metadata721 encodeFragment entry.1.toBlock) =
        (validTxs (blocks.map Prod.fst)).flatMap (processTx mints metadata721 encodeFragment) := by
    simp only [reduceBlock, validTxs, ← List.map_reverse, List.flatMap_map, List.flatMap_assoc]
  rw [Reducers.writesAt_actionsOf fun output => key_cip25Op enc output policy name, houtputs,
    metadataOfMints, List.filterMap_eq_flatMap_toList, List.map_flatMap, List.map_flatMap,
    List.filter_flatMap, List.map_flatMap]
  refine List.flatMap_congr fun tx _ => ?_
  rw [← filter_processTx, List.map_map]
  rfl

theorem exists_indexBatches_cip25 (metadata721 : Tx → Option Metadatum)
    (encodeFragment : Metadatum → Bytes) (enc : KeyEncoder) (maxLen maxBytes : ℕ)
    (paranoidMode : Bool) (now : U64) {batches : List Batch}
    (hnames : NamesFit mints ((blocksOf batches).map Prod.fst)) :
    ∃ store, indexBatches (reduce mints metadata721 encodeFragment) enc maxLen maxBytes paranoidMode
        now batches = .ok store ∧
      ∀ (policy : Hash28) (name : ShortBytes),
        store.get (enc.encodeCip25MetadataByAssetKey policy name) =
          (metadataOfMints mints metadata721 (policy, name.bytes)
            ((blocksOf batches).map Prod.fst)).getLast?.map encodeFragment := by
  have hreduces : Reduces (reduce mints metadata721 encodeFragment) .value
      (fun entry => (reduceBlock mints metadata721 encodeFragment entry.1.toBlock).map cip25Op)
      (blocksOf batches) := reduces_cip25 hnames
  obtain ⟨store, hstore, hget⟩ :=
    Reducers.exists_indexBatches_values enc maxLen maxBytes paranoidMode now hreduces
  refine ⟨store, hstore, fun policy name => ?_⟩
  rw [hget, writesAt_cip25, Register.run_map_set, List.getLast?_map]

end Store

/-! ## What is derived -/

section Derived

variable {fromUtf8Lossy : Bytes → List Char} {decodeFragment : Bytes → Option Metadatum}
  {enc : KeyEncoder} {store : Store} {policy : Hash28} {name : ShortBytes}

theorem requiredKey_eq :
    requiredKey enc (policy, name.bytes) = .ok (enc.encodeCip25MetadataByAssetKey policy name) :=
  dif_pos name.length_le

theorem fetchCip25Metadata_singleton {value : Bytes} {md : Metadatum}
    (hget : store.get (enc.encodeCip25MetadataByAssetKey policy name) = some value)
    (hdecode : decodeFragment value = some md) :
    fetchCip25Metadata fromUtf8Lossy decodeFragment enc store [(policy, name.bytes)] =
      (deriveEntry fromUtf8Lossy (policy, name.bytes) md).map fun entry =>
        entry.toList.map fun json => ((policy, name.bytes), json) := by
  have hkeys : [(policy, name.bytes)].mapM (requiredKey enc) =
      .ok [enc.encodeCip25MetadataByAssetKey policy name] :=
    Except.mapM_cons_eq_ok.mpr ⟨_, _, requiredKey_eq, rfl, rfl⟩
  have hread : [(enc.encodeCip25MetadataByAssetKey policy name, value)].mapM
      (readMetadata decodeFragment) = .ok [((policy, name.bytes), md)] := by
    refine Except.mapM_cons_eq_ok.mpr ⟨_, _, ?_, rfl, rfl⟩
    rw [readMetadata, decodeCip25MetadataByAssetKey_encode, hdecode]
    rfl
  rw [fetchCip25Metadata, hkeys, Except.ok_bind, List.filterMap_cons, hget]
  simp only [Option.map_some, List.filterMap_nil]
  rw [hread, Except.ok_bind, List.mapM_cons]
  cases hderived : deriveEntry fromUtf8Lossy (policy, name.bytes) md with
  | error failure => rfl
  | ok derived => cases derived <;> rfl

theorem eq_getLast?_filterMap_iff {α β : Type} {f : α → Option β} {as : List α} {a : α}
    (hlast : as.getLast? = some a) (hsome : ∃ a ∈ as, (f a).isSome) :
    f a = (as.filterMap f).getLast? ↔ (f a).isSome := by
  obtain ⟨front, rfl⟩ := List.getLast?_eq_some_iff.mp hlast
  constructor
  · intro heq
    obtain ⟨a', ha', hsome⟩ := hsome
    obtain ⟨b, hb⟩ := Option.isSome_iff_exists.mp hsome
    rw [heq, List.getLast?_isSome]
    exact List.ne_nil_of_mem (List.mem_filterMap.mpr ⟨a', ha', hb⟩)
  · intro hsome
    obtain ⟨b, hb⟩ := Option.isSome_iff_exists.mp hsome
    simp [List.filterMap_append, hb]

end Derived

def repeatedMints (_ : Tx) : Mint where
  entries := [(Reducers.sampleAsset.1, [(Reducers.sampleAsset.2, 5)])]
  nodup_policies := by simp
  nodup_names := by simp
  nonzero := by simp

def ownMetadata : Metadatum :=
  .map [(.text (Bytes.hex Reducers.sampleAsset.1.toList), .map [(.text ['a'], .text ['b'])])]

def sampleMetadata721 (tx : Tx) : Option Metadatum :=
  if tx.hash = Compressor.sampleHash 101 then some ownMetadata else some (.map [])

def sampleEncodeFragment : Metadatum → Bytes
  | .map [] => []
  | _ => [1]

def sampleDecodeFragment : Bytes → Option Metadatum
  | [] => some (.map [])
  | _ => some ownMetadata

theorem decodeFragment_sample (tx : Tx) (md : Metadatum) (h : sampleMetadata721 tx = some md) :
    sampleDecodeFragment (sampleEncodeFragment md) = some md := by
  unfold sampleMetadata721 at h
  split_ifs at h <;> cases h <;> rfl

def mintingBatch : Batch :=
  ⟨Reducers.mintingBlocks.reverse.map fun block => (block, .new), false, .byKey, fun h => by cases h⟩

theorem namesFit_repeatedMints (chain : List StoredBlock) : NamesFit repeatedMints chain := by
  intro tx _ entry hentry item hitem
  obtain rfl := List.mem_singleton.mp hentry
  obtain rfl := List.mem_singleton.mp hitem
  decide

end CardanoIndexer.Pipeline
