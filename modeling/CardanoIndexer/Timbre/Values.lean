import CardanoIndexer.Timbre.DecodeKey

/-!
# Stored values

Lists of assets have no count: they are read until the value ends.
-/

namespace CardanoIndexer.Timbre

structure ScriptByHashValue where
  txHash : Hash
  slot : U64
  kind : Byte
  bytes : Bytes
  deriving DecidableEq

def encodeScriptByHashValue (txHash : Hash) (slot : U64) (kind : Byte) (bytes : Bytes) : Bytes :=
  txHash.toList ++ (u64Bytes slot ++ (kind :: bytes))

def decodeScriptByHashValue (value : Bytes) : Option ScriptByHashValue := do
  let txHash ← arrayAt 32 value 0
  let slot ← u64At value 32
  let kind ← value[40]?
  return ⟨txHash, slot, kind, value.drop 41⟩

theorem decodeScriptByHashValue_encode (txHash : Hash) (slot : U64) (kind : Byte) (bytes : Bytes) :
    decodeScriptByHashValue (encodeScriptByHashValue txHash slot kind bytes) =
      some ⟨txHash, slot, kind, bytes⟩ := by
  obtain ⟨value, hvalue⟩ : ∃ value, encodeScriptByHashValue txHash slot kind bytes = value :=
    ⟨_, rfl⟩
  have hfirst : value.drop 0 = txHash.toList ++ (u64Bytes slot ++ (kind :: bytes)) := hvalue.symm
  have hsecond : value.drop 32 = u64Bytes slot ++ (kind :: bytes) := by
    rw [← hvalue, encodeScriptByHashValue, List.drop_left' (length_toList_hash _)]
  have hthird : value.drop 40 = kind :: bytes := by
    rw [show 40 = 32 + 8 by rfl, ← List.drop_drop, hsecond, List.drop_left' (length_u64Bytes _)]
  have hrest : value.drop 41 = bytes := by
    rw [show 41 = 40 + 1 by rfl, ← List.drop_drop, hthird]
    rfl
  have hkind : value[40]? = some kind := by
    rw [← List.head?_drop, hthird]
    rfl
  rw [hvalue, decodeScriptByHashValue, arrayAt_of_drop hfirst (by decide), u64At_of_drop hsecond,
    hkind, hrest]
  rfl

/-! ## Unspent outputs -/

def encodeUtxosByAssetValue (blake2b : Bytes → Hash) (address : Address) (amount : U64) : Bytes :=
  encodeAddressWithType blake2b address ++ u64Bytes amount

def encodeUtxosByPolicyValue (blake2b : Bytes → Hash) (address : Address)
    (assets : List (ShortBytes × U64)) : Bytes :=
  encodeAddressWithType blake2b address ++
    assets.flatMap fun asset => u64Bytes asset.2 ++ encodeShortBytestring asset.1

def decodeAmountAndName (bytes : Bytes) : Option ((Bytes × U64) × Bytes) := do
  let amount ← u64At bytes 0
  let (name, rest) ← decodeShortBytestring (bytes.drop 8)
  return ((name, amount), rest)

def decodeUtxosByPolicyValue (byronFromBytes : Bytes → Option ByronAddress) (bytes : Bytes) :
    Option (DecodedAddress × List (Bytes × U64)) := do
  let (address, addrLen) ← decodeAddressWithType byronFromBytes bytes
  let assets ← decodeAll decodeAmountAndName bytes.length (bytes.drop addrLen)
  return (address, assets)

theorem decodeAmountAndName_encode (asset : ShortBytes × U64) (rest : Bytes) :
    decodeAmountAndName ((u64Bytes asset.2 ++ encodeShortBytestring asset.1) ++ rest) =
      some ((asset.1.bytes, asset.2), rest) := by
  have hamount : u64At (u64Bytes asset.2 ++ (encodeShortBytestring asset.1 ++ rest)) 0 =
      some asset.2 := u64At_of_drop rfl
  rw [List.append_assoc, decodeAmountAndName, hamount, List.drop_left' (length_u64Bytes _),
    decodeShortBytestring_encode]
  rfl

theorem decodeUtxosByPolicyValue_encode {byronFromBytes : Bytes → Option ByronAddress}
    (hbyron : ∀ address : ByronAddress, byronFromBytes address.toVec = some address)
    (blake2b : Bytes → Hash) (address : Address) (assets : List (ShortBytes × U64)) :
    decodeUtxosByPolicyValue byronFromBytes (encodeUtxosByPolicyValue blake2b address assets) =
      some (address.told blake2b, assets.map fun asset => (asset.1.bytes, asset.2)) := by
  have haddress := decodeAddressWithType_encode hbyron blake2b address
    (assets.flatMap fun asset => u64Bytes asset.2 ++ encodeShortBytestring asset.1)
  have hassets : decodeAll decodeAmountAndName
      (encodeUtxosByPolicyValue blake2b address assets).length
      ((encodeUtxosByPolicyValue blake2b address assets).drop
        (encodeAddressWithType blake2b address).length) =
        some (assets.map fun asset => (asset.1.bytes, asset.2)) := by
    rw [encodeUtxosByPolicyValue, List.drop_left, List.flatMap_def]
    refine decodeAll_flatten decodeAmountAndName_encode (fun asset => by
      simp [encodeShortBytestring]) assets ?_
    rw [List.length_append]
    omega
  change (decodeAddressWithType byronFromBytes
    (encodeUtxosByPolicyValue blake2b address assets)).bind _ = _
  rw [encodeUtxosByPolicyValue] at hassets ⊢
  rw [haddress]
  change (decodeAll _ _ _).bind _ = _
  rw [hassets]
  rfl

def decodeCip25MetadataByAssetKey (bytes : Bytes) : Option (Hash28 × Bytes) := do
  let tag ← bytes[3]?
  if tag = reducerCip25MetadataByAsset then do
    let policy ← arrayAt 28 bytes 4
    let (name, _) ← decodeShortBytestring (bytes.drop 32)
    return (policy, name)
  else none

theorem decodeCip25MetadataByAssetKey_encode (enc : KeyEncoder) (policy : Hash28)
    (name : ShortBytes) :
    decodeCip25MetadataByAssetKey (enc.encodeCip25MetadataByAssetKey policy name) =
      some (policy, name.bytes) := by
  obtain ⟨bytes, hbytes⟩ : ∃ bytes, enc.encodeCip25MetadataByAssetKey policy name = bytes := ⟨_, rfl⟩
  have htag : bytes[3]? = some reducerCip25MetadataByAsset := by
    rw [← hbytes]
    rfl
  have hbody : bytes.drop 4 = policy.toList ++ encodeShortBytestring name := by
    rw [← hbytes]
    rfl
  have hname : bytes.drop 32 = encodeShortBytestring name ++ [] := by
    rw [show 32 = 4 + 28 by rfl, ← List.drop_drop, hbody, List.drop_left' (length_toList_hash28 _),
      List.append_nil]
  have hread : decodeShortBytestring (bytes.drop 32) = some (name.bytes, []) := by
    rw [hname, decodeShortBytestring_encode]
  rw [hbytes, decodeCip25MetadataByAssetKey, htag]
  simp [arrayAt_of_drop hbody, hread]

end CardanoIndexer.Timbre
