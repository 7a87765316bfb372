import CardanoIndexer.Timbre.Histories

/-!
# Reading keys

A reader is right at an offset if the bytes from there on start with the field (`arrayAt_of_drop`).
-/

namespace CardanoIndexer.Timbre

/-! ## Decoders -/

structure UtxosByPolicyKey where
  policy : Hash28
  slot : U64
  utxoHash : Hash
  utxoIndex : U64
  deriving DecidableEq

structure UtxosByAssetKey where
  policy : Hash28
  assetName : Bytes
  slot : U64
  utxoHash : Hash
  utxoIndex : U64
  deriving DecidableEq

structure TxsByAddressKey where
  address : DecodedAddress
  slot : U64
  txHash : Hash
  blockIndex : U16
  deriving DecidableEq

inductive ReducerKey where
  | tx (txHash : Hash)
  | txCount (address : DecodedAddress)
  | policyUtxos (key : UtxosByPolicyKey)
  | assetUtxos (key : UtxosByAssetKey)
  | addressBalance (address : DecodedAddress)
  | addressUtxos (key : UtxosByAddressKey)
  | datum (datumHash : Hash)
  deriving DecidableEq

inductive DecodedKey where
  | cursor (dataplane instanceId : Byte)
  | reducer (dataplane instanceId : Byte) (key : ReducerKey)
  | rollback (dataplane instanceId : Byte) (key : RollbackKey)

section

variable (byronFromBytes : Bytes → Option ByronAddress)

def decodeAddressWithType (bytes : Bytes) : Option (DecodedAddress × ℕ) := do
  let kind ← bytes[0]?
  if kind = addressShelley then do
    let (shelley, len) ← decodeShelleyAddress (bytes.drop 1)
    return (.address (.shelley shelley), len + 1)
  else if kind = addressByron then do
    let (addr, len) ← decodeByronAddress byronFromBytes (bytes.drop 1)
    return (addr, len + 1)
  else none

def decodeAssetUtxo (bytes : Bytes) : Option UtxosByAssetKey := do
  let policy ← arrayAt 28 bytes 4
  let (assetName, rem) ← decodeShortBytestring (bytes.drop 33)
  let slot ← u64At rem 1
  let utxoHash ← arrayAt 32 rem 9
  let utxoIndex ← u64At rem 41
  return ⟨policy, assetName, slot, utxoHash, utxoIndex⟩

def decodeReducerKey (bytes : Bytes) : Option ReducerKey := do
  let tag ← bytes[3]?
  if tag = reducerTxByHash then do
    let txHash ← arrayAt 32 bytes 4
    return .tx txHash
  else if tag = reducerTxCountByAddress then do
    let (address, _) ← decodeAddressWithType byronFromBytes (bytes.drop 4)
    return .txCount address
  else if tag = reducerHoldersByAsset then none
  else if tag = reducerUtxosByPolicy then do
    let policy ← arrayAt 28 bytes 4
    let _break ← bytes[32]?
    let slot ← u64At bytes 33
    let utxoHash ← arrayAt 32 bytes 41
    let utxoIndex ← u64At bytes 73
    return .policyUtxos ⟨policy, slot, utxoHash, utxoIndex⟩
  else if tag = reducerUtxosByAsset then do
    let key ← decodeAssetUtxo bytes
    return .assetUtxos key
  else if tag = reducerLovelaceByAddress then do
    let (address, _) ← decodeAddressWithType byronFromBytes (bytes.drop 4)
    return .addressBalance address
  else if tag = reducerUtxosByShelleyAddress then do
    let (address, consumed) ← decodeShelleyAddress (bytes.drop 4)
    let key ← decodeUtxoItem bytes (.address (.shelley address)) consumed
    return .addressUtxos key
  else if tag = reducerUtxosByByronAddress then do
    let (address, consumed) ← decodeByronAddress byronFromBytes (bytes.drop 4)
    let key ← decodeUtxoItem bytes address consumed
    return .addressUtxos key
  else if tag = reducerDatumByHash then do
    let datumHash ← arrayAt 32 bytes 4
    return .datum datumHash
  else none

def decodeUtxosByAssetKey (bytes : Bytes) : Option UtxosByAssetKey := do
  let tag ← bytes[3]?
  if tag = reducerUtxosByAsset then decodeAssetUtxo bytes else none

def decodeTxsByAddressKey (bytes : Bytes) : Option TxsByAddressKey := do
  let tag ← bytes[3]?
  if tag = reducerTxsByAddress then do
    let (address, addrLen) ← decodeAddressWithType byronFromBytes (bytes.drop 4)
    let slot ← u64At bytes (4 + addrLen + 1)
    let blockIndex ← u16At bytes (4 + addrLen + 1 + 8)
    let txHash ← arrayAt 32 bytes (4 + addrLen + 1 + 8 + 2)
    return ⟨address, slot, txHash, blockIndex⟩
  else none

def decodeKey (bytes : Bytes) : Option DecodedKey := do
  let dataplane ← bytes[0]?
  let instanceId ← bytes[1]?
  let kind ← bytes[2]?
  if kind = prefixCursor then return .cursor dataplane instanceId
  else if kind = prefixData then do
    let key ← decodeReducerKey byronFromBytes bytes
    return .reducer dataplane instanceId key
  else if kind = prefixRollback then do
    let key ← decodeRollbackMetadataKey bytes
    return .rollback dataplane instanceId key
  else none

end

/-! ## From one field to the next -/

variable {rest field : Bytes} {byte : Byte} {lo : ℕ}

theorem drop_of_drop {bytes : Bytes} {n : ℕ} (h : bytes.drop lo = field ++ rest)
    (hn : field.length = n) : bytes.drop (lo + n) = rest := by
  rw [← List.drop_drop, h, List.drop_left' hn]

theorem drop_succ_of_drop {bytes : Bytes} (h : bytes.drop lo = byte :: rest) :
    bytes.drop (lo + 1) = rest := by
  rw [← List.drop_drop, h]
  rfl

theorem getElem?_of_drop {bytes : Bytes} (h : bytes.drop lo = byte :: rest) :
    bytes[lo]? = some byte := by
  rw [← List.head?_drop, h]
  rfl

theorem slice_of_drop {bytes : Bytes} {hi : ℕ} (h : bytes.drop lo = field ++ rest)
    (hlo : lo ≤ bytes.length) (hhi : lo + field.length = hi) : slice bytes lo hi = some field := by
  have hlength := congrArg List.length h
  rw [List.length_drop, List.length_append] at hlength
  rw [slice, if_pos ⟨by omega, by omega⟩, h, List.take_left' (by omega)]

theorem utxoItem_of_drop {bytes : Bytes} {item : UtxosByAddressCursor}
    (h : bytes.drop lo = utxoItemBytes item) :
    u64At bytes lo = some item.slot ∧ arrayAt 32 bytes (lo + 8) = some item.uHash ∧
      u64At bytes (lo + 8 + 32) = some item.uIndex := by
  have hhash : bytes.drop (lo + 8) = item.uHash.toList ++ u64Bytes item.uIndex :=
    drop_of_drop h (length_u64Bytes _)
  have hindex : bytes.drop (lo + 8 + 32) = u64Bytes item.uIndex ++ [] := by
    rw [List.append_nil]
    exact drop_of_drop hhash (length_toList_hash _)
  exact ⟨u64At_of_drop h, arrayAt_of_drop hhash (by decide), u64At_of_drop hindex⟩

/-! ## Addresses -/

theorem Network.ofTag_tag {network : Network} (h : network.IsCanonical) :
    Network.ofTag network.tag = network := by
  cases network with
  | testnet => rfl
  | mainnet => rfl
  | other tag =>
    rw [Network.tag, Network.ofTag, if_neg h.1, if_neg h.2]

def Address.told (blake2b : Bytes → Hash) : Address → DecodedAddress
  | .shelley address => .address (.shelley ⟨Network.ofTag address.network.tag, address.payment,
      address.delegation⟩)
  | .byron address => address.decoded blake2b

def Address.IsCanonical : Address → Prop
  | .shelley address => address.network.IsCanonical
  | .byron _ => True

def Address.decoded (blake2b : Bytes → Hash) : Address → DecodedAddress
  | .shelley address => .address (.shelley address)
  | .byron address => address.decoded blake2b

theorem Address.told_eq_decoded {blake2b : Bytes → Hash} {address : Address}
    (hcanonical : address.IsCanonical) : address.told blake2b = address.decoded blake2b := by
  cases address with
  | shelley shelley => rw [told, decoded, Network.ofTag_tag hcanonical]
  | byron byron => rfl

def DataKey.told (blake2b : Bytes → Hash) : DataKey → Option ReducerKey
  | .txByHash txHash => some (.tx txHash)
  | .txCountByAddress address => some (.txCount (address.told blake2b))
  | .utxosByPolicy policy item =>
    some (.policyUtxos ⟨policy, item.slot, item.uHash, item.uIndex⟩)
  | .utxosByAsset policy assetName item =>
    some (.assetUtxos ⟨policy, assetName.bytes, item.slot, item.uHash, item.uIndex⟩)
  | .lovelaceByAddress address => some (.addressBalance (address.told blake2b))
  | .utxosByShelleyAddress address item =>
    some (.addressUtxos ⟨(Address.shelley address).told blake2b, item.slot, item.uHash,
      item.uIndex⟩)
  | .utxosByByronAddress address item =>
    some (.addressUtxos ⟨(Address.byron address).told blake2b, item.slot, item.uHash,
      item.uIndex⟩)
  | .datumByHash datumHash => some (.datum datumHash)
  | _ => none

section

variable {byronFromBytes : Bytes → Option ByronAddress}
  (hbyron : ∀ address : ByronAddress, byronFromBytes address.toVec = some address)
  (blake2b : Bytes → Hash)

include hbyron

theorem decodeAddressWithType_encode (address : Address) (rest : Bytes) :
    decodeAddressWithType byronFromBytes (encodeAddressWithType blake2b address ++ rest) =
      some (address.told blake2b, (encodeAddressWithType blake2b address).length) := by
  cases address with
  | shelley shelley =>
    have haddress := decodeShelleyAddress_encode shelley rest
    simp [decodeAddressWithType, encodeAddressWithType, haddress, Address.told]
  | byron byron =>
    have hne : addressByron ≠ addressShelley := by decide
    have haddress := decodeByronAddress_encode blake2b (hbyron byron) rest
    simp [decodeAddressWithType, encodeAddressWithType, hne, haddress, Address.told]

theorem decodeTxsByAddressKey_encode (enc : KeyEncoder) (address : Address)
    (item : TxsByAddressCursor) :
    decodeTxsByAddressKey byronFromBytes (enc.encodeTxsByAddressKey blake2b address item) =
      some ⟨address.told blake2b, item.slot, item.txHash, item.blockIndex⟩ := by
  obtain ⟨bytes, hbytes⟩ : ∃ bytes, enc.encodeTxsByAddressKey blake2b address item = bytes :=
    ⟨_, rfl⟩
  have htag : bytes[3]? = some reducerTxsByAddress := by
    rw [← hbytes]
    rfl
  have hbody : bytes.drop 4 =
      encodeAddressWithType blake2b address ++ (breakByte :: txItemBytes item) := by
    rw [← hbytes]
    rfl
  have hitem : bytes.drop (4 + (encodeAddressWithType blake2b address).length + 1) =
      txItemBytes item := drop_succ_of_drop (drop_of_drop hbody rfl)
  have hindex := drop_of_drop hitem (length_u64Bytes _)
  have hhash := (drop_of_drop hindex (length_u16Bytes _)).trans (List.append_nil _).symm
  rw [hbytes, decodeTxsByAddressKey, htag, hbody]
  simp [decodeAddressWithType_encode hbyron, u64At_of_drop hitem, u16At_of_drop hindex,
    arrayAt_of_drop hhash]

/-! ## Keys of reducers -/

omit hbyron in
theorem decodeAssetUtxo_encode (enc : KeyEncoder) (policy : Hash28) (assetName : ShortBytes)
    (item : UtxosByAddressCursor) :
    decodeAssetUtxo (enc.encodeUtxosByAssetKey policy assetName item) =
      some ⟨policy, assetName.bytes, item.slot, item.uHash, item.uIndex⟩ := by
  obtain ⟨bytes, hbytes⟩ : ∃ bytes, enc.encodeUtxosByAssetKey policy assetName item = bytes :=
    ⟨_, rfl⟩
  have hbody : bytes.drop 4 = policy.toList ++ (breakByte :: (encodeShortBytestring assetName ++
      (breakByte :: utxoItemBytes item))) := by
    rw [← hbytes]
    simp [KeyEncoder.encodeUtxosByAssetKey, KeyEncoder.encodeDataKey, KeyEncoder.assetBytes]
  have hname : bytes.drop 33 =
      encodeShortBytestring assetName ++ (breakByte :: utxoItemBytes item) :=
    drop_succ_of_drop (drop_of_drop (n := 28) hbody (length_toList_hash28 _))
  obtain ⟨hslot, hhash, hindex⟩ := utxoItem_of_drop
    (show (breakByte :: utxoItemBytes item).drop 1 = utxoItemBytes item from rfl)
  rw [hbytes, decodeAssetUtxo, hname]
  simp [decodeShortBytestring_encode, arrayAt_of_drop hbody, hslot, hhash, hindex]

theorem decodeReducerKey_txCount (enc : KeyEncoder) (address : Address) :
    decodeReducerKey byronFromBytes (enc.encodeTxCountByAddressKey blake2b address) =
      some (.txCount (address.told blake2b)) := by
  have haddress := decodeAddressWithType_encode hbyron blake2b address []
  rw [List.append_nil] at haddress
  change (decodeAddressWithType byronFromBytes (encodeAddressWithType blake2b address)).bind _ = _
  rw [haddress]
  rfl

theorem decodeReducerKey_addressBalance (enc : KeyEncoder) (address : Address) :
    decodeReducerKey byronFromBytes (enc.encodeLovelaceByAddressKey blake2b address) =
      some (.addressBalance (address.told blake2b)) := by
  have haddress := decodeAddressWithType_encode hbyron blake2b address []
  rw [List.append_nil] at haddress
  change (decodeAddressWithType byronFromBytes (encodeAddressWithType blake2b address)).bind _ = _
  rw [haddress]
  rfl

omit hbyron in
theorem decodeReducerKey_policyUtxos (enc : KeyEncoder) (policy : Hash28)
    (item : UtxosByAddressCursor) :
    decodeReducerKey byronFromBytes (enc.encodeUtxosByPolicyKey policy item) =
      some (.policyUtxos ⟨policy, item.slot, item.uHash, item.uIndex⟩) := by
  obtain ⟨bytes, hbytes⟩ : ∃ bytes, enc.encodeUtxosByPolicyKey policy item = bytes := ⟨_, rfl⟩
  have htag : bytes[3]? = some reducerUtxosByPolicy := by
    rw [← hbytes]
    rfl
  have hbody : bytes.drop 4 = policy.toList ++ (breakByte :: utxoItemBytes item) := by
    rw [← hbytes]
    rfl
  have hbreak : bytes.drop 32 = breakByte :: utxoItemBytes item :=
    drop_of_drop (n := 28) hbody (length_toList_hash28 _)
  obtain ⟨hslot, hhash, hindex⟩ := utxoItem_of_drop (drop_succ_of_drop hbreak)
  rw [hbytes, decodeReducerKey, htag]
  simp [reducerUtxosByPolicy, reducerTxByHash, reducerTxCountByAddress, reducerHoldersByAsset,
    arrayAt_of_drop hbody, getElem?_of_drop hbreak, hslot, hhash, hindex]

omit hbyron in
theorem decodeReducerKey_addressUtxos {bytes : Bytes}
    (htag : bytes[3]? = some reducerUtxosByShelleyAddress ∨
      bytes[3]? = some reducerUtxosByByronAddress) :
    decodeReducerKey byronFromBytes bytes =
      (decodeUtxosByAddressKey byronFromBytes bytes).map .addressUtxos := by
  rcases htag with htag | htag
  · rw [decodeReducerKey, decodeUtxosByAddressKey, htag]
    change (decodeShelleyAddress (bytes.drop 4)).bind _ =
      ((decodeShelleyAddress (bytes.drop 4)).bind _).map _
    rw [Option.map_bind]
    refine Option.bind_congr fun decoded _ => ?_
    exact Option.map_eq_bind.symm
  · rw [decodeReducerKey, decodeUtxosByAddressKey, htag]
    change (decodeByronAddress byronFromBytes (bytes.drop 4)).bind _ =
      ((decodeByronAddress byronFromBytes (bytes.drop 4)).bind _).map _
    rw [Option.map_bind]
    refine Option.bind_congr fun decoded _ => ?_
    exact Option.map_eq_bind.symm

theorem decodeReducerKey_encode (enc : KeyEncoder) (key : DataKey) :
    decodeReducerKey byronFromBytes (key.encode enc blake2b) = key.told blake2b := by
  cases key with
  | txByHash txHash =>
    have hhash : arrayAt 32 (enc.encodeTxByHashKey txHash) 4 = some txHash :=
      arrayAt_of_drop (List.append_nil _).symm (by decide)
    change (arrayAt 32 (enc.encodeTxByHashKey txHash) 4).bind _ = _
    rw [hhash]
    rfl
  | datumByHash datumHash =>
    have hhash : arrayAt 32 (enc.encodeDatumByHashKey datumHash) 4 = some datumHash :=
      arrayAt_of_drop (List.append_nil _).symm (by decide)
    change (arrayAt 32 (enc.encodeDatumByHashKey datumHash) 4).bind _ = _
    rw [hhash]
    rfl
  | txCountByAddress address => exact decodeReducerKey_txCount hbyron blake2b enc address
  | lovelaceByAddress address => exact decodeReducerKey_addressBalance hbyron blake2b enc address
  | utxosByPolicy policy item => exact decodeReducerKey_policyUtxos enc policy item
  | utxosByAsset policy assetName item =>
    change (decodeAssetUtxo (enc.encodeUtxosByAssetKey policy assetName item)).bind _ = _
    rw [decodeAssetUtxo_encode]
    rfl
  | utxosByShelleyAddress address item =>
    refine (decodeReducerKey_addressUtxos (Or.inl rfl)).trans ?_
    rw [DataKey.encode, decodeUtxosByAddressKey_encode]
    rfl
  | utxosByByronAddress address item =>
    refine (decodeReducerKey_addressUtxos (Or.inr rfl)).trans ?_
    rw [DataKey.encode, decodeUtxosByAddressKey_encode_byron enc blake2b (hbyron address)]
    rfl
  | holdersByAsset | blockByHeight | heightByBlockHash | txsByAddress | txsByPaymentCred
  | supplyByAsset | scriptByHash | txsByPolicy | updatesByPolicy | mintMetadataByAsset
  | cip25MetadataByAsset | blockByTx => rfl

theorem decodeKey_encode (enc : KeyEncoder) (key : DataKey) :
    decodeKey byronFromBytes (key.encode enc blake2b) =
      (key.told blake2b).map (.reducer enc.dataplaneId enc.instanceId) := by
  have hkey := decodeReducerKey_encode hbyron blake2b enc key
  rw [DataKey.encode_eq] at hkey ⊢
  change (decodeReducerKey byronFromBytes _).bind _ = _
  rw [hkey]
  exact Option.map_eq_bind.symm

end

theorem decodeRollbackMetadataKey_enrich (enc : KeyEncoder) (bSlot : U64) (bHash : Hash)
    (itemIdx : U64) (uHash : Hash) (uIndex : U64) :
    decodeRollbackMetadataKey
        (enc.encodeEnrichRollbackMetadataKey bSlot bHash itemIdx uHash uIndex) =
      some (.enrich (.specific bSlot bHash) itemIdx uHash uIndex) := by
  obtain ⟨bytes, hbytes⟩ : ∃ bytes,
      enc.encodeEnrichRollbackMetadataKey bSlot bHash itemIdx uHash uIndex = bytes := ⟨_, rfl⟩
  have hlength : bytes.length = 93 := by
    rw [← hbytes]
    simp [KeyEncoder.encodeEnrichRollbackMetadataKey, KeyEncoder.rollbackPrefix]
  have hslot : bytes.drop 4 = u64Bytes bSlot ++ (bHash.toList ++ (rollbackEnrichUtxo ::
      (u64Bytes itemIdx ++ (uHash.toList ++ u64Bytes uIndex)))) := by
    rw [← hbytes]
    rfl
  have hhash := drop_of_drop hslot (length_u64Bytes _)
  have htag := drop_of_drop hhash (length_toList_hash _)
  have hidx := drop_succ_of_drop htag
  have hutxo := drop_of_drop hidx (length_u64Bytes _)
  have hindex := (drop_of_drop hutxo (length_toList_hash _)).trans (List.append_nil _).symm
  have hkind : bytes[44]? = some rollbackEnrichUtxo := getElem?_of_drop htag
  rw [hbytes, decodeRollbackMetadataKey, hkind]
  simp [slice_of_drop hslot, slice_of_drop hhash, slice_of_drop hidx, slice_of_drop hutxo,
    slice_of_drop hindex, hlength]

theorem decodeKey_rollbackPrefix (byronFromBytes : Bytes → Option ByronAddress) (enc : KeyEncoder)
    (rest : Bytes) :
    decodeKey byronFromBytes (enc.rollbackPrefix ++ rest) =
      (decodeRollbackMetadataKey (enc.rollbackPrefix ++ rest)).map
        (.rollback enc.dataplaneId enc.instanceId) := by
  change (decodeRollbackMetadataKey (enc.rollbackPrefix ++ rest)).bind _ = _
  exact Option.map_eq_bind.symm

end CardanoIndexer.Timbre
