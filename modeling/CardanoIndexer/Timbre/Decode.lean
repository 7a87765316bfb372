import CardanoIndexer.Lib.Run
import CardanoIndexer.Timbre.Encode

/-!
# Reading addresses and cursors

Decoders of keys trust their input, decoders of cursors must not.  `none` is a panic of the source.
-/

namespace CardanoIndexer.Timbre

/-! ## Readers -/

def arrayAt (n : ℕ) (bytes : Bytes) (lo : ℕ) : Option (Vector Byte n) :=
  if h : lo + n ≤ bytes.length then some ⟨((bytes.drop lo).take n).toArray, by simp; omega⟩
  else none

def u64At (bytes : Bytes) (lo : ℕ) : Option U64 :=
  (arrayAt 8 bytes lo).map fun array => u64OfBytes array.toList

def u16At (bytes : Bytes) (lo : ℕ) : Option U16 :=
  (arrayAt 2 bytes lo).map fun array => BitVec.ofNat 16 (Bytes.ofBE array.toList)

variable {lo n : ℕ} {rest : Bytes} {α : Type*}

theorem exists_arrayAt {bytes : Bytes} (h : lo + n ≤ bytes.length) :
    ∃ array, arrayAt n bytes lo = some array :=
  ⟨_, dif_pos h⟩

theorem exists_u64At {bytes : Bytes} (h : lo + 8 ≤ bytes.length) :
    ∃ n, u64At bytes lo = some n := by
  obtain ⟨array, harray⟩ := exists_arrayAt h
  exact ⟨_, by rw [u64At, harray]; rfl⟩

theorem exists_u16At {bytes : Bytes} (h : lo + 2 ≤ bytes.length) :
    ∃ n, u16At bytes lo = some n := by
  obtain ⟨array, harray⟩ := exists_arrayAt h
  exact ⟨_, by rw [u16At, harray]; rfl⟩

theorem arrayAt_of_drop {bytes : Bytes} {array : Vector Byte n}
    (h : bytes.drop lo = array.toList ++ rest) (hn : 0 < n) : arrayAt n bytes lo = some array := by
  have hlength : lo + n ≤ bytes.length := by
    have := congrArg List.length h
    simp only [List.length_drop, List.length_append, Vector.length_toList] at this
    omega
  rw [arrayAt, dif_pos hlength]
  congr 1
  apply toList_injective
  simp [Vector.toList, h]

theorem u64At_of_drop {bytes : Bytes} {n : U64} (h : bytes.drop lo = u64Bytes n ++ rest) :
    u64At bytes lo = some n := by
  have harray : arrayAt 8 bytes lo = some ⟨(u64Bytes n).toArray, by simp⟩ :=
    arrayAt_of_drop h (by decide)
  rw [u64At, harray]
  simp [Vector.toList]

theorem u16At_of_drop {bytes : Bytes} {n : U16} (h : bytes.drop lo = u16Bytes n ++ rest) :
    u16At bytes lo = some n := by
  have harray : arrayAt 2 bytes lo = some ⟨(u16Bytes n).toArray, by simp⟩ :=
    arrayAt_of_drop h (by decide)
  rw [u16At, harray]
  simp only [Option.map_some, Vector.toList, Option.some.injEq]
  have hlt : n.toNat < 256 ^ 2 := n.isLt
  rw [u16Bytes, Bytes.ofBE_toBE_of_lt hlt, BitVec.ofNat_toNat, BitVec.setWidth_eq]

/-! ## Addresses -/

inductive DecodeFailure where
  | malformedCursor
  | panic
  deriving DecidableEq

def orPanic {α : Type*} : Option α → Except DecodeFailure α
  | some a => .ok a
  | none => .error .panic

def orMalformed {α : Type*} : Option α → Except DecodeFailure α
  | some a => .ok a
  | none => .error .malformedCursor

def Network.ofTag (tag : Byte) : Network :=
  if tag = 0 then .testnet else if tag = 1 then .mainnet else .other tag

def ShelleyPaymentPart.ofKind (kind : Byte) (hash : Hash28) : Option ShelleyPaymentPart :=
  if kind = 0 then some (.key hash) else if kind = 1 then some (.script hash) else none

def tryDecodeShelleyAddress (bytes : Bytes) : Except DecodeFailure (ShelleyAddress × ℕ) :=
  if bytes.length < 32 then .error .malformedCursor
  else do
    let network ← orPanic bytes[0]?
    let paymentHash ← orPanic (arrayAt 28 bytes 2)
    let paymentKind ← orPanic bytes[1]?
    let payment ← orMalformed (ShelleyPaymentPart.ofKind paymentKind paymentHash)
    -- the delimiter at position 30 is not looked at
    let delegationKind ← orPanic bytes[31]?
    if delegationKind = 0 ∨ delegationKind = 1 then do
      let stakeHash ← orMalformed (arrayAt 28 bytes 32)
      let part := if delegationKind = 0 then ShelleyDelegationPart.key stakeHash
        else ShelleyDelegationPart.script stakeHash
      return (⟨Network.ofTag network, payment, part⟩, 60)
    else if delegationKind = 2 then do
      let raw ← orMalformed (slice bytes 32 56)
      let slot ← orPanic (u64At raw 0)
      let txIdx ← orPanic (u64At raw 8)
      let certIdx ← orPanic (u64At raw 16)
      return (⟨Network.ofTag network, payment, .pointer slot txIdx certIdx⟩, 56)
    else if delegationKind = 3 then
      return (⟨Network.ofTag network, payment, .null⟩, 32)
    else .error .malformedCursor

def decodeShelleyAddress (bytes : Bytes) : Option (ShelleyAddress × ℕ) := do
  let network ← bytes[0]?
  let paymentHash ← arrayAt 28 bytes 2
  let paymentKind ← bytes[1]?
  let payment ← ShelleyPaymentPart.ofKind paymentKind paymentHash
  let delegationKind ← bytes[31]?
  if delegationKind = 0 then do
    let stakeHash ← arrayAt 28 bytes 32
    return (⟨Network.ofTag network, payment, .key stakeHash⟩, 60)
  else if delegationKind = 1 then do
    let stakeHash ← arrayAt 28 bytes 32
    return (⟨Network.ofTag network, payment, .script stakeHash⟩, 60)
  else if delegationKind = 2 then do
    let slot ← u64At bytes 32
    let txIdx ← u64At bytes 40
    let certIdx ← u64At bytes 48
    return (⟨Network.ofTag network, payment, .pointer slot txIdx certIdx⟩, 56)
  else if delegationKind = 3 then
    return (⟨Network.ofTag network, payment, .null⟩, 32)
  else none

/-! ## Keys -/

inductive DecodedAddress where
  | address (address : Address)
  | hash (hash : Hash)
  deriving DecidableEq

structure UtxosByAddressKey where
  address : DecodedAddress
  slot : U64
  utxoHash : Hash
  utxoIndex : U64
  deriving DecidableEq

section

variable (byronFromBytes : Bytes → Option ByronAddress)

def decodeByronAddress (bytes : Bytes) : Option (DecodedAddress × ℕ) := do
  let kind ← bytes[0]?
  if kind = 0 then do
    let length ← u16At bytes 1
    let addressBytes ← slice bytes 3 (3 + length.toNat)
    let address ← byronFromBytes addressBytes
    return (.address (.byron address), 1 + 2 + length.toNat)
  else if kind = 1 then do
    let hash ← arrayAt 32 bytes 1
    return (.hash hash, 1 + 32)
  else none

def decodeUtxoItem (bytes : Bytes) (address : DecodedAddress) (consumed : ℕ) :
    Option UtxosByAddressKey := do
  let cursor := 4 + consumed + 1
  let slot ← u64At bytes cursor
  let utxoHash ← arrayAt 32 bytes (cursor + 8)
  let utxoIndex ← u64At bytes (cursor + 8 + 32)
  return ⟨address, slot, utxoHash, utxoIndex⟩

def decodeUtxosByAddressKey (bytes : Bytes) : Option UtxosByAddressKey := do
  let tag ← bytes[3]?
  if tag = reducerUtxosByShelleyAddress then do
    let (address, consumed) ← decodeShelleyAddress (bytes.drop 4)
    decodeUtxoItem bytes (.address (.shelley address)) consumed
  else if tag = reducerUtxosByByronAddress then do
    let (address, consumed) ← decodeByronAddress byronFromBytes (bytes.drop 4)
    decodeUtxoItem bytes address consumed
  else none

end

/-! ## Cursors -/

structure UtxosByPaymentCredCursor where
  address : ShelleyAddress
  slot : U64
  uHash : Hash
  uIndex : U64
  deriving DecidableEq

structure UtxosByPaymentCredsCursor where
  credIdx : U16
  address : ShelleyAddress
  slot : U64
  uHash : Hash
  uIndex : U64
  deriving DecidableEq

def hasCursorLength (skip : ℕ) (cursor : Bytes) : Bool :=
  cursor.length = skip + 60 + 8 + 32 + 8 ∨ cursor.length = skip + 56 + 8 + 32 + 8 ∨
    cursor.length = skip + 32 + 8 + 32 + 8

def decodeCursorFields (skip : ℕ) (cursor : Bytes) :
    Except DecodeFailure UtxosByPaymentCredCursor := do
  let (address, consumed) ← tryDecodeShelleyAddress (cursor.drop skip)
  if skip + consumed + 8 + 32 + 8 ≠ cursor.length then .error .malformedCursor
  else do
    let slot ← orPanic (u64At cursor (skip + consumed))
    let uHash ← orPanic (arrayAt 32 cursor (skip + consumed + 8))
    let uIndex ← orPanic (u64At cursor (skip + consumed + 8 + 32))
    return ⟨address, slot, uHash, uIndex⟩

section

variable (b64Decode : Bytes → Option Bytes) (b64Encode : Bytes → Bytes)

def decodeUtxosByPaymentCredCursor (b64Cursor : Bytes) :
    Except DecodeFailure UtxosByPaymentCredCursor := do
  let cursor ← orMalformed (b64Decode b64Cursor)
  if hasCursorLength 0 cursor then decodeCursorFields 0 cursor
  else .error .malformedCursor

def decodeUtxosByPaymentCredsCursor (b64Cursor : Bytes) :
    Except DecodeFailure UtxosByPaymentCredsCursor := do
  let cursor ← orMalformed (b64Decode b64Cursor)
  if hasCursorLength 2 cursor then do
    let credIdx ← orPanic (u16At cursor 0)
    let fields ← decodeCursorFields 2 cursor
    return ⟨credIdx, fields.address, fields.slot, fields.uHash, fields.uIndex⟩
  else .error .malformedCursor

def encodeUtxosByPaymentCredCursor (cursor : UtxosByPaymentCredCursor) : Bytes :=
  b64Encode (encodeShelleyAddress cursor.address ++
    utxoItemBytes ⟨cursor.slot, cursor.uHash, cursor.uIndex⟩)

def encodeUtxosByPaymentCredsCursor (cursor : UtxosByPaymentCredsCursor) : Bytes :=
  b64Encode (u16Bytes cursor.credIdx ++ (encodeShelleyAddress cursor.address ++
    utxoItemBytes ⟨cursor.slot, cursor.uHash, cursor.uIndex⟩))

end

/-! ## Clients cannot make a decoder panic -/

abbrev NoPanic {α : Type*} (x : Except DecodeFailure α) : Prop :=
  x.Avoids .panic fun _ => True

theorem noPanic_orMalformed (value : Option α) : NoPanic (orMalformed value) := by
  cases value with
  | none => exact .error (by decide)
  | some a => exact .ok trivial

theorem noPanic_orPanic {value : Option α} (h : ∃ a, value = some a) : NoPanic (orPanic value) := by
  obtain ⟨a, rfl⟩ := h
  exact .ok trivial

theorem length_of_orMalformed_slice {bytes raw : Bytes} {hi : ℕ}
    (h : orMalformed (slice bytes lo hi) = .ok raw) : raw.length = hi - lo := by
  unfold slice at h
  split at h
  case isTrue hle =>
    cases h
    simp
    omega
  case isFalse => cases h

theorem noPanic_tryDecodeShelleyAddress (bytes : Bytes) :
    NoPanic (tryDecodeShelleyAddress bytes) := by
  unfold tryDecodeShelleyAddress
  split
  · exact .error (by decide)
  case isFalse hlength =>
    have hbyte : ∀ i < 32, ∃ byte, bytes[i]? = some byte := fun i hi =>
      ⟨_, List.getElem?_eq_getElem (by omega)⟩
    refine (noPanic_orPanic (hbyte 0 (by omega))).bind fun network _ _ => ?_
    refine (noPanic_orPanic (exists_arrayAt (by omega))).bind fun hash _ _ => ?_
    refine (noPanic_orPanic (hbyte 1 (by omega))).bind fun kind _ _ => ?_
    refine (noPanic_orMalformed _).bind fun payment _ _ => ?_
    refine (noPanic_orPanic (hbyte 31 (by omega))).bind fun delegationKind _ _ => ?_
    split_ifs
    · exact (noPanic_orMalformed _).bind fun _ _ _ => .ok trivial
    · exact (noPanic_orMalformed _).bind fun _ _ _ => .ok trivial
    · refine (noPanic_orMalformed _).bind fun raw hraw _ => ?_
      have hlength : raw.length = 24 := length_of_orMalformed_slice hraw
      refine (noPanic_orPanic (exists_u64At (by omega))).bind fun _ _ _ => ?_
      refine (noPanic_orPanic (exists_u64At (by omega))).bind fun _ _ _ => ?_
      exact (noPanic_orPanic (exists_u64At (by omega))).bind fun _ _ _ => .ok trivial
    · exact .ok trivial
    · exact .error (by decide)

theorem noPanic_decodeCursorFields (skip : ℕ) (cursor : Bytes) :
    NoPanic (decodeCursorFields skip cursor) := by
  refine (noPanic_tryDecodeShelleyAddress _).bind fun decoded _ _ => ?_
  obtain ⟨address, consumed⟩ := decoded
  by_cases hlength : skip + consumed + 8 + 32 + 8 = cursor.length
  · simp only [hlength, ne_eq, not_true_eq_false, if_false]
    refine (noPanic_orPanic (exists_u64At (by omega))).bind fun _ _ _ => ?_
    refine (noPanic_orPanic (exists_arrayAt (by omega))).bind fun _ _ _ => ?_
    exact (noPanic_orPanic (exists_u64At (by omega))).bind fun _ _ _ => .ok trivial
  · simp only [hlength, ne_eq, not_false_eq_true, if_true]
    exact .error (by decide)

theorem noPanic_decodeUtxosByPaymentCredsCursor (b64Decode : Bytes → Option Bytes)
    (text : Bytes) : NoPanic (decodeUtxosByPaymentCredsCursor b64Decode text) := by
  refine (noPanic_orMalformed _).bind fun cursor _ _ => ?_
  by_cases hlength : hasCursorLength 2 cursor
  · simp only [hlength, if_true]
    have hle : 0 + 2 ≤ cursor.length := by
      simp only [hasCursorLength, decide_eq_true_eq] at hlength
      omega
    refine (noPanic_orPanic (exists_u16At hle)).bind fun _ _ _ => ?_
    exact (noPanic_decodeCursorFields _ _).bind fun _ _ _ => .ok trivial
  · simp only [hlength]
    exact .error (by decide)

/-! ## Keys are read back -/

@[simp] theorem Network.tag_ofTag (tag : Byte) : (Network.ofTag tag).tag = tag := by
  unfold Network.ofTag
  split_ifs with h0 h1
  · exact h0.symm
  · exact h1.symm
  · rfl

theorem drop_toList_append (array : Vector Byte n) (rest : Bytes) (k : ℕ) :
    (array.toList ++ rest).drop (n + k) = rest.drop k := by
  rw [List.drop_append, Vector.length_toList, List.drop_eq_nil_of_le (by simp)]
  simp

theorem decodeShelleyAddress_encode (address : ShelleyAddress) (rest : Bytes) :
    decodeShelleyAddress (encodeShelleyAddress address ++ rest) =
      some (⟨Network.ofTag address.network.tag, address.payment, address.delegation⟩,
        (encodeShelleyAddress address).length) := by
  obtain ⟨network, payment, delegation⟩ := address
  obtain ⟨kind, hash, hpayment, hkind⟩ : ∃ (kind : Byte) (hash : Hash28),
      encodeShelleyPaymentCred payment = kind :: hash.toList ∧
        ShelleyPaymentPart.ofKind kind hash = some payment := by
    cases payment with
    | key hash => exact ⟨0, hash, rfl, rfl⟩
    | script hash => exact ⟨1, hash, rfl, rfl⟩
  obtain ⟨tail, htail⟩ : ∃ tail, encodeShelleyDelegation delegation ++ rest = tail := ⟨_, rfl⟩
  obtain ⟨bytes, hbytes⟩ : ∃ bytes,
      network.tag :: kind :: (hash.toList ++ (breakByte :: tail)) = bytes := ⟨_, rfl⟩
  have hencode : encodeShelleyAddress ⟨network, payment, delegation⟩ ++ rest = bytes := by
    simp [encodeShelleyAddress, hpayment, htail, hbytes]
  have hlength : (encodeShelleyAddress ⟨network, payment, delegation⟩).length =
      31 + (encodeShelleyDelegation delegation).length := by
    simp [encodeShelleyAddress]
    omega
  have hdrop : ∀ k, bytes.drop (31 + k) = tail.drop k := by
    intro k
    rw [← hbytes, show 31 + k = 28 + (k + 1) + 2 by omega, List.drop_succ_cons,
      List.drop_succ_cons, drop_toList_append, List.drop_succ_cons]
  have hzero : bytes[0]? = some network.tag := by rw [← hbytes]; rfl
  have hone : bytes[1]? = some kind := by rw [← hbytes]; rfl
  have hhash : arrayAt 28 bytes 2 = some hash :=
    arrayAt_of_drop (by rw [← hbytes]; rfl) (by decide)
  have hdelegationKind : bytes[31]? = tail.head? := by
    rw [← List.head?_drop, hdrop 0, List.drop_zero]
  rw [hencode, hlength, decodeShelleyAddress, hzero, hhash, hone, hdelegationKind, ← htail]
  simp only [Option.bind_eq_bind, Option.bind_some, hkind]
  cases delegation with
  | key stakeHash =>
    have hstake : arrayAt 28 bytes 32 = some stakeHash :=
      arrayAt_of_drop ((hdrop 1).trans (by rw [← htail]; rfl)) (by decide)
    simp [encodeShelleyDelegation, hstake]
  | script stakeHash =>
    have hstake : arrayAt 28 bytes 32 = some stakeHash :=
      arrayAt_of_drop ((hdrop 1).trans (by rw [← htail]; rfl)) (by decide)
    simp [encodeShelleyDelegation, hstake]
  | pointer slot txIdx certIdx =>
    have htail' : tail = 2 :: (u64Bytes slot ++ (u64Bytes txIdx ++ (u64Bytes certIdx ++ rest))) := by
      simp [← htail, encodeShelleyDelegation]
    have hslot : u64At bytes 32 = some slot :=
      u64At_of_drop ((hdrop 1).trans (by rw [htail']; rfl))
    have htx : u64At bytes 40 = some txIdx :=
      u64At_of_drop ((hdrop 9).trans (by
        rw [htail', List.drop_succ_cons, List.drop_left' (length_u64Bytes slot)]))
    have hcert : u64At bytes 48 = some certIdx :=
      u64At_of_drop ((hdrop 17).trans (by
        rw [htail', List.drop_succ_cons, show 16 = 8 + 8 by rfl, ← List.drop_drop,
          List.drop_left' (length_u64Bytes slot), List.drop_left' (length_u64Bytes txIdx)]))
    simp [encodeShelleyDelegation, hslot, htx, hcert]
  | null => simp [encodeShelleyDelegation]

theorem drop_utxoItemBytes (item : UtxosByAddressCursor) :
    (utxoItemBytes item).drop 40 = u64Bytes item.uIndex ++ [] := by
  rw [utxoItemBytes, show 40 = 8 + 32 by rfl, ← List.drop_drop,
    List.drop_left' (length_u64Bytes _), List.drop_left' (length_toList_hash _), List.append_nil]

theorem decodeUtxoItem_of_drop {bytes front : Bytes} {item : UtxosByAddressCursor}
    (hdrop : bytes.drop 4 = front ++ (breakByte :: utxoItemBytes item)) (address : DecodedAddress) :
    decodeUtxoItem bytes address front.length =
      some ⟨address, item.slot, item.uHash, item.uIndex⟩ := by
  have hitem : ∀ k, bytes.drop (4 + front.length + 1 + k) = (utxoItemBytes item).drop k := by
    intro k
    rw [Nat.add_assoc, Nat.add_assoc, ← List.drop_drop, hdrop, ← List.drop_drop, List.drop_left,
      Nat.add_comm, List.drop_succ_cons]
  have hslot : u64At bytes (4 + front.length + 1) = some item.slot := u64At_of_drop (hitem 0)
  have hhash : arrayAt 32 bytes (4 + front.length + 1 + 8) = some item.uHash :=
    arrayAt_of_drop ((hitem 8).trans (List.drop_left' (length_u64Bytes _))) (by decide)
  have hindex : u64At bytes (4 + front.length + 1 + 8 + 32) = some item.uIndex :=
    u64At_of_drop ((hitem 40).trans (drop_utxoItemBytes item))
  simp [decodeUtxoItem, hslot, hhash, hindex]

theorem decodeUtxosByAddressKey_encode (byronFromBytes : Bytes → Option ByronAddress)
    (enc : KeyEncoder) (address : ShelleyAddress) (item : UtxosByAddressCursor) :
    decodeUtxosByAddressKey byronFromBytes (enc.encodeUtxosByShelleyAddressKey address item) =
      some ⟨.address (.shelley ⟨Network.ofTag address.network.tag, address.payment,
        address.delegation⟩), item.slot, item.uHash, item.uIndex⟩ := by
  obtain ⟨bytes, hbytes⟩ : ∃ bytes, enc.encodeUtxosByShelleyAddressKey address item = bytes :=
    ⟨_, rfl⟩
  have hdrop : bytes.drop 4 =
      encodeShelleyAddress address ++ (breakByte :: utxoItemBytes item) := by
    rw [← hbytes]
    rfl
  have htag : bytes[3]? = some reducerUtxosByShelleyAddress := by
    rw [← hbytes]
    rfl
  rw [hbytes, decodeUtxosByAddressKey, htag, hdrop]
  simp [decodeShelleyAddress_encode, decodeUtxoItem_of_drop hdrop]

def ByronAddress.decoded (blake2b : Bytes → Hash) (address : ByronAddress) : DecodedAddress :=
  if address.toVec.length ≤ maxByronAddressLen then .address (.byron address)
  else .hash (blake2b address.toVec)

variable {byronFromBytes : Bytes → Option ByronAddress} {address : ByronAddress}

theorem decodeByronAddress_encode (blake2b : Bytes → Hash)
    (hbyron : byronFromBytes address.toVec = some address) (rest : Bytes) :
    decodeByronAddress byronFromBytes (encodeByronAddress blake2b address ++ rest) =
      some (address.decoded blake2b, (encodeByronAddress blake2b address).length) := by
  unfold encodeByronAddress ByronAddress.decoded
  split
  case isTrue hshort =>
    have hlt : address.toVec.length < 2 ^ 16 := by
      unfold maxByronAddressLen at hshort
      omega
    have hlength : u16At (0 :: (Bytes.toBE 2 address.toVec.length ++ (address.toVec ++ rest))) 1 =
        some (BitVec.ofNat 16 address.toVec.length) := by
      have harray : arrayAt 2 (0 :: (Bytes.toBE 2 address.toVec.length ++
          (address.toVec ++ rest))) 1 =
          some ⟨(Bytes.toBE 2 address.toVec.length).toArray, by simp⟩ :=
        arrayAt_of_drop rfl (by decide)
      rw [u16At, harray]
      simp only [Option.map_some, Vector.toList, Option.some.injEq]
      rw [Bytes.ofBE_toBE_of_lt (show address.toVec.length < 256 ^ 2 from hlt)]
    have hslice : slice (0 :: (Bytes.toBE 2 address.toVec.length ++ (address.toVec ++ rest))) 3
        (3 + address.toVec.length) = some address.toVec := by
      rw [slice, if_pos ⟨by omega, by simp; omega⟩]
      simp [List.drop_left' (Bytes.length_toBE 2 address.toVec.length)]
    have htoNat : (BitVec.ofNat 16 address.toVec.length).toNat = address.toVec.length :=
      Nat.mod_eq_of_lt hlt
    rw [decodeByronAddress, List.cons_append, List.append_assoc]
    simp only [List.getElem?_cons_zero, Option.bind_eq_bind, Option.bind_some, if_true, hlength,
      htoNat, hslice, hbyron, List.length_cons, List.length_append, Bytes.length_toBE]
    rw [show 1 + 2 + address.toVec.length = 2 + address.toVec.length + 1 by omega]
    rfl
  case isFalse hlong =>
    have hhash : arrayAt 32 (1 :: ((blake2b address.toVec).toList ++ rest)) 1 =
        some (blake2b address.toVec) := arrayAt_of_drop rfl (by decide)
    simp [decodeByronAddress, hhash]

theorem decodeUtxosByAddressKey_encode_byron (enc : KeyEncoder) (blake2b : Bytes → Hash)
    (hbyron : byronFromBytes address.toVec = some address) (item : UtxosByAddressCursor) :
    decodeUtxosByAddressKey byronFromBytes
        (enc.encodeUtxosByByronAddressKey blake2b address item) =
      some ⟨address.decoded blake2b, item.slot, item.uHash, item.uIndex⟩ := by
  obtain ⟨bytes, hbytes⟩ : ∃ bytes,
      enc.encodeUtxosByByronAddressKey blake2b address item = bytes := ⟨_, rfl⟩
  have hdrop : bytes.drop 4 =
      encodeByronAddress blake2b address ++ (breakByte :: utxoItemBytes item) := by
    rw [← hbytes]
    rfl
  have htag : bytes[3]? = some reducerUtxosByByronAddress := by
    rw [← hbytes]
    rfl
  have hne : reducerUtxosByByronAddress ≠ reducerUtxosByShelleyAddress := by decide
  rw [hbytes, decodeUtxosByAddressKey, htag, hdrop]
  simp [hne, decodeByronAddress_encode blake2b hbyron, decodeUtxoItem_of_drop hdrop]

/-! ## Cursors are read back -/

theorem u64At_slice {bytes : Bytes} {k : ℕ} (hk : k + 8 ≤ n) (hn : lo + n ≤ bytes.length) :
    u64At ((bytes.drop lo).take n) k = u64At bytes (lo + k) := by
  have harray : arrayAt 8 ((bytes.drop lo).take n) k = arrayAt 8 bytes (lo + k) := by
    have hbytes : (((bytes.drop lo).take n).drop k).take 8 = (bytes.drop (lo + k)).take 8 := by
      rw [List.drop_take, List.take_take, List.drop_drop, Nat.min_eq_left (by omega)]
    rw [arrayAt, arrayAt, dif_pos (by simp; omega), dif_pos (by omega)]
    simp only [hbytes]
  rw [u64At, u64At, harray]

theorem le_length_of_u64At {bytes : Bytes} {n : U64} (h : u64At bytes lo = some n) :
    lo + 8 ≤ bytes.length := by
  obtain ⟨array, harray, -⟩ := Option.map_eq_some_iff.mp h
  unfold arrayAt at harray
  split at harray
  case isTrue hle => exact hle
  case isFalse => cases harray

theorem tryDecodeShelleyAddress_of_decode {bytes : Bytes} {decoded : ShelleyAddress × ℕ}
    (h : decodeShelleyAddress bytes = some decoded) :
    tryDecodeShelleyAddress bytes = .ok decoded := by
  simp only [decodeShelleyAddress, Option.bind_eq_bind, Option.bind_eq_some_iff] at h
  obtain ⟨network, hnetwork, hash, hhash, kind, hkind, payment, hpayment, delegationKind,
    hdelegation, hrest⟩ := h
  have hlength : ¬ bytes.length < 32 := by
    have hlt := (List.getElem?_eq_some_iff.mp hdelegation).1
    omega
  simp only [tryDecodeShelleyAddress, if_neg hlength, hnetwork, hhash, hkind, hpayment,
    hdelegation, orPanic, orMalformed, Except.ok_bind]
  split_ifs at hrest with hzero hone htwo hthree
  · obtain ⟨stakeHash, hstake, heq⟩ := Option.bind_eq_some_iff.mp hrest
    cases heq
    simp [hzero, hstake]
  · obtain ⟨stakeHash, hstake, heq⟩ := Option.bind_eq_some_iff.mp hrest
    cases heq
    simp [hone, hstake]
  · simp only [Option.bind_eq_some_iff] at hrest
    obtain ⟨slot, hslot, txIdx, htx, certIdx, hcert, heq⟩ := hrest
    cases heq
    have hend := le_length_of_u64At hcert
    have hslice : slice bytes 32 56 = some ((bytes.drop 32).take 24) := if_pos ⟨by omega, hend⟩
    have hread : ∀ k, k + 8 ≤ 24 → u64At ((bytes.drop 32).take 24) k = u64At bytes (32 + k) :=
      fun k hk => u64At_slice hk hend
    simp [htwo, hslice, hread 0 (by omega), hread 8 (by omega), hread 16 (by omega), hslot, htx,
      hcert]
  · cases hrest
    simp [hthree]

theorem decodeCursorFields_encode (front : Bytes) (address : ShelleyAddress)
    (item : UtxosByAddressCursor) :
    decodeCursorFields front.length
        (front ++ (encodeShelleyAddress address ++ utxoItemBytes item)) =
      .ok ⟨⟨Network.ofTag address.network.tag, address.payment, address.delegation⟩, item.slot,
        item.uHash, item.uIndex⟩ := by
  obtain ⟨bytes, hbytes⟩ : ∃ bytes,
      front ++ (encodeShelleyAddress address ++ utxoItemBytes item) = bytes := ⟨_, rfl⟩
  have haddress : tryDecodeShelleyAddress (bytes.drop front.length) =
      .ok (⟨Network.ofTag address.network.tag, address.payment, address.delegation⟩,
        (encodeShelleyAddress address).length) := by
    rw [← hbytes, List.drop_left]
    exact tryDecodeShelleyAddress_of_decode (decodeShelleyAddress_encode ..)
  have hitem : ∀ k, bytes.drop (front.length + (encodeShelleyAddress address).length + k) =
      (utxoItemBytes item).drop k := by
    intro k
    rw [← hbytes, ← List.append_assoc, ← List.length_append, ← List.drop_drop, List.drop_left]
  have hslot : u64At bytes (front.length + (encodeShelleyAddress address).length) =
      some item.slot := u64At_of_drop (hitem 0)
  have hhash : arrayAt 32 bytes (front.length + (encodeShelleyAddress address).length + 8) =
      some item.uHash :=
    arrayAt_of_drop ((hitem 8).trans (List.drop_left' (length_u64Bytes _))) (by decide)
  have hindex : u64At bytes (front.length + (encodeShelleyAddress address).length + 8 + 32) =
      some item.uIndex := u64At_of_drop ((hitem 40).trans (drop_utxoItemBytes item))
  have hlength : front.length + (encodeShelleyAddress address).length + 8 + 32 + 8 =
      bytes.length := by
    rw [← hbytes]
    simp [utxoItemBytes]
    omega
  rw [hbytes, decodeCursorFields, haddress, Except.ok_bind]
  simp only [hlength, ne_eq, not_true_eq_false, if_false, hslot, hhash, hindex, orPanic,
    Except.ok_bind]
  rfl

theorem hasCursorLength_encode (front : Bytes) (address : ShelleyAddress)
    (item : UtxosByAddressCursor) :
    hasCursorLength front.length
      (front ++ (encodeShelleyAddress address ++ utxoItemBytes item)) = true := by
  obtain ⟨network, payment, delegation⟩ := address
  have hdelegation : (encodeShelleyDelegation delegation).length = 29 ∨
      (encodeShelleyDelegation delegation).length = 25 ∨
      (encodeShelleyDelegation delegation).length = 1 := by
    cases delegation <;> simp [encodeShelleyDelegation]
  simp only [hasCursorLength, encodeShelleyAddress, utxoItemBytes, List.length_append,
    List.length_cons, length_encodeShelleyPaymentCred, length_u64Bytes, length_toList_hash,
    decide_eq_true_eq]
  omega

section

variable {b64Decode : Bytes → Option Bytes} {b64Encode : Bytes → Bytes}
  (hb64 : ∀ bytes, b64Decode (b64Encode bytes) = some bytes)

include hb64

theorem decodeUtxosByPaymentCredCursor_encode {cursor : UtxosByPaymentCredCursor}
    (hnetwork : Network.ofTag cursor.address.network.tag = cursor.address.network) :
    decodeUtxosByPaymentCredCursor b64Decode (encodeUtxosByPaymentCredCursor b64Encode cursor) =
      .ok cursor := by
  have hfields := decodeCursorFields_encode [] cursor.address
    ⟨cursor.slot, cursor.uHash, cursor.uIndex⟩
  have hlength := hasCursorLength_encode [] cursor.address
    ⟨cursor.slot, cursor.uHash, cursor.uIndex⟩
  rw [List.nil_append, List.length_nil] at hfields hlength
  rw [decodeUtxosByPaymentCredCursor, encodeUtxosByPaymentCredCursor, hb64, orMalformed,
    Except.ok_bind, if_pos hlength, hfields, hnetwork]

theorem decodeUtxosByPaymentCredsCursor_encode {cursor : UtxosByPaymentCredsCursor}
    (hnetwork : Network.ofTag cursor.address.network.tag = cursor.address.network) :
    decodeUtxosByPaymentCredsCursor b64Decode
      (encodeUtxosByPaymentCredsCursor b64Encode cursor) = .ok cursor := by
  have hfields := decodeCursorFields_encode (u16Bytes cursor.credIdx) cursor.address
    ⟨cursor.slot, cursor.uHash, cursor.uIndex⟩
  have hlength := hasCursorLength_encode (u16Bytes cursor.credIdx) cursor.address
    ⟨cursor.slot, cursor.uHash, cursor.uIndex⟩
  rw [length_u16Bytes] at hfields hlength
  have hidx : u16At (u16Bytes cursor.credIdx ++ (encodeShelleyAddress cursor.address ++
      utxoItemBytes ⟨cursor.slot, cursor.uHash, cursor.uIndex⟩)) 0 = some cursor.credIdx :=
    u16At_of_drop rfl
  rw [decodeUtxosByPaymentCredsCursor, encodeUtxosByPaymentCredsCursor, hb64, orMalformed,
    Except.ok_bind, if_pos hlength, hidx, hfields, hnetwork]
  rfl

end

end CardanoIndexer.Timbre
