import CardanoIndexer.Mapi.SlotListings
import CardanoIndexer.Pipeline.Agreement

/-!
# What a client is told

The log feeds an instance with `utxo_cbor_by_address`, and `utxos_by_address` lists its keys.
-/

namespace CardanoIndexer.Pipeline

open Compressor Reducers Timbre
open Mapi (AddressEnv ApiConfig SlotPagination UtxoParams UtxoWithSlot Attempts ListsAll
  utxosByAddress decodePaymentAddress decodeFilterAsset addressOwner)
open Polyphony (BlockContext Key StorageActionPayload ReducerOutput World)

variable {τ : Type} {P : Pallas} {genesis : List GenesisUtxo} {L : Library} {policy : RuntimePolicy}
  {blake2b : Bytes → Hash} {reduce : Block → BlockContext → List ReducerOutput}
  {first server : Server} {commands : List Command} {world₀ world : World}
  {inputs : List (Polyphony.Env × StorageActionPayload)} {env : AddressEnv τ} {address : Address}
  {filterAsset : Option (Hash28 × Bytes)}

/-- What is shown of an output in the compressor's table: its place in the index and what
the API reads of it.  Its address is the one asked for, as far as keys tell addresses apart. -/
def ShowsOutput (P : Pallas) (genesis : List GenesisUtxo) (L : Library) (db : Tables)
    (enc : KeyEncoder) (blake2b : Bytes → Hash) (env : AddressEnv τ) (address : Address)
    (filterAsset : Option (Hash28 × Bytes)) (place : UtxosByAddressCursor)
    (shown : UtxoWithSlot τ) : Prop :=
  ∃ txo out owner read, InTable P genesis db txo ∧ txo.item = place ∧
    L.decodeOutput txo.2.2.1 txo.2.2.2 = some out ∧ out.address = some owner ∧
    (addressKey place owner).encode enc blake2b = (addressKey place address).encode enc blake2b ∧
    env.decodeTxo txo.2.2.2 = some read ∧
    (∀ asset, filterAsset = some asset → env.containsAsset read asset.1 asset.2 = true) ∧
    shown = ⟨place.uHash, place.uIndex, place.slot, read⟩

theorem addressOwner_key (place : UtxosByAddressCursor) (address : Address) :
    (addressOwner address).key place = addressKey place address := by
  cases address <;> rfl

theorem mem_rowsOf_utxoCborByAddress {enc : KeyEncoder} {txo : Txo} {k : Key} {v : Bytes} :
    (k, v) ∈ rowsOf (utxoCborByAddress L none) L enc blake2b txo ↔
      ∃ out owner, L.decodeOutput txo.2.2.1 txo.2.2.2 = some out ∧ out.address = some owner ∧
        (addressKey txo.item owner).encode enc blake2b = k ∧ txo.2.2.2 = v := by
  simp [mem_rowsOf, utxoCborByAddress]

theorem isPrefix_encode (enc : KeyEncoder) (key : DataKey) :
    [enc.dataplaneId, enc.instanceId, prefixData] <+: key.encode enc blake2b := by
  rw [DataKey.encode_eq]
  exact ⟨key.reducer.tag :: key.body blake2b, rfl⟩

section Answers

variable (h : SharedRun P genesis L (utxoCborByAddress L none) policy blake2b reduce first commands
  server world₀ inputs world)

include h

theorem SharedRun.get_data_iff {k : Key} {v : Bytes}
    (hk : [world₀.worker.keyEncoder.dataplaneId, world₀.worker.keyEncoder.instanceId,
      prefixData] <+: k) :
    world.tikv.store.get k = some v ↔
      ∃ txo out owner, InTable P genesis server.chainDB.db txo ∧
        L.decodeOutput txo.2.2.1 txo.2.2.2 = some out ∧ out.address = some owner ∧
        (addressKey txo.item owner).encode world₀.worker.keyEncoder blake2b = k ∧
        txo.2.2.2 = v := by
  obtain ⟨hholds, delivered, hfollows⟩ := h.exists_follows
  rw [hfollows.get_iff h.separate h.reads_genesis hholds hk]
  simp only [mem_rowsOf_utxoCborByAddress, ← exists_and_left]

theorem SharedRun.isAddressUtxo_iff {place : UtxosByAddressCursor} {shown : UtxoWithSlot τ} :
    Mapi.IsAddressUtxo blake2b world.tikv.store world₀.worker.keyEncoder env address filterAsset
        place shown ↔
      ShowsOutput P genesis L server.chainDB.db world₀.worker.keyEncoder blake2b env address
        filterAsset place shown := by
  simp only [Mapi.IsAddressUtxo, addressOwner_key, h.get_data_iff (isPrefix_encode _ _)]
  constructor
  · rintro ⟨_, read, ⟨txo, out, owner, htable, hdecode, howner, hkey, rfl⟩, hread, hfilter, hshown⟩
    obtain rfl := item_eq_of_addressKey hkey
    exact ⟨txo, out, owner, read, htable, rfl, hdecode, howner, hkey, hread, hfilter, hshown⟩
  · rintro ⟨txo, out, owner, read, htable, rfl, hdecode, howner, hkey, hread, hfilter, hshown⟩
    exact ⟨_, read, ⟨txo, out, owner, htable, hdecode, howner, hkey, rfl⟩, hread, hfilter, hshown⟩

theorem SharedRun.law (hb64 : ∀ bytes, env.b64Decode (env.b64Encode bytes) = some bytes)
    (hbyron : ∀ a, address = .byron a → env.byronFromBytes a.toVec = some a)
    (htxos : ∀ txo, InTable P genesis server.chainDB.db txo → (env.decodeTxo txo.2.2.2).isSome)
    (config : ApiConfig) (filterAsset : Option (Hash28 × Bytes)) :
    (Mapi.utxosByAddressListing env config blake2b world₀.worker.keyEncoder address
      filterAsset).Law world.tikv.store (fun place => ((addressOwner address).key place).encode
        world₀.worker.keyEncoder blake2b) (Mapi.ShowsUtxo env.toEnv) := by
  refine Mapi.law_utxosByAddress_of_keys hb64 config _ hbyron (fun {rest v} hget => ?_)
    (fun {place v} hget => ?_) filterAsset
  · have hk : [world₀.worker.keyEncoder.dataplaneId, world₀.worker.keyEncoder.instanceId,
        prefixData] <+: (addressOwner address).front world₀.worker.keyEncoder blake2b ++
          (breakByte :: rest) := by
      rw [UtxoOwner.front_eq, KeyEncoder.encodeDataKey, List.append_assoc]
      exact ⟨_, rfl⟩
    obtain ⟨txo, out, owner, -, -, -, hkey, -⟩ := (h.get_data_iff hk).mp hget
    have hencode : (InstanceKey.data (addressKey txo.item owner)).encode _ blake2b = _ := hkey
    exact UtxoOwner.exists_item_of_encode_eq hencode
  · obtain ⟨txo, out, owner, htable, -, -, -, rfl⟩ :=
      (h.get_data_iff (isPrefix_encode _ _)).mp hget
    exact Option.isSome_iff_exists.mp (htxos txo htable)

theorem SharedRun.exists_getLastUpdated (hchain : server.adopted ≠ [])
    (htimes : ∀ slot, (env.slotTimestamp slot).isSome) :
    ∃ lastUpdated, Mapi.getLastUpdated env.toEnv world.tikv.store world₀.worker.keyEncoder =
      .ok lastUpdated := by
  obtain ⟨-, delivered, hfollows⟩ := h.exists_follows
  obtain ⟨tip, older, hadopted⟩ := List.exists_cons_of_ne_nil hchain
  have htip : tip ∈ server.adopted.head? := by simp [hadopted]
  have hpoint := hfollows.lastPoint htip
  unfold Polyphony.lastPoint at hpoint
  split at hpoint
  · cases hpoint
  case h_2 value hget =>
    split at hpoint
    · cases hpoint
    case h_2 point height hdecode =>
      obtain ⟨timestamp, htimestamp⟩ :=
        Option.isSome_iff_exists.mp (htimes (Mapi.shownBlock point).1)
      refine ⟨⟨timestamp, (Mapi.shownBlock point).2, (Mapi.shownBlock point).1⟩, ?_⟩
      simp [Mapi.getLastUpdated, hget, hdecode, htimestamp, Mapi.orInternal, Mapi.orPanic]

end Answers

end CardanoIndexer.Pipeline
