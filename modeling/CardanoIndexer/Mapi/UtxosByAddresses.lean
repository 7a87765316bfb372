import CardanoIndexer.Mapi.OwnerPages
import CardanoIndexer.Mapi.UtxosByPaymentCred

/-!
# UTxOs of several addresses, UTxOs of several payment credentials

Repetitions are dropped before the request is decoded: two spellings of one owner stay two owners.
-/

namespace CardanoIndexer.Mapi

open Timbre

variable {τ : Type} {creds : List ShelleyPaymentPart} {address : Address}
  {lastUpdated : LastUpdated} {ο β : Type} {i : ℕ}

/-! ## The handler for addresses -/

structure AddressTxout (τ : Type) extends UtxoWithSlot τ where
  addr : Address
  deriving DecidableEq

def requestedAddresses (env : AddressEnv τ) (payload : List Bytes) :
    Except Failure (List Address) :=
  (dedup (Sorting.byKey id payload)).mapM (decodePaymentAddress env)

def readAnyAddress : DecodedAddress → Except Failure Address
  | .address address => .ok address
  | .hash _ => .error .internalServerError

def readAddressesKv (env : Env τ) (kv : Entry) : Except Failure (AddressTxout τ) := do
  let key ← orPanic (decodeUtxosByAddressKey env.byronFromBytes kv.1)
  let addr ← readAnyAddress key.address
  let txo ← orInternal (env.decodeTxo kv.2)
  return ⟨⟨key.utxoHash, key.utxoIndex, key.slot, txo⟩, addr⟩

def addressesListing (env : Env τ) (blake2b : Bytes → Hash) (encoder : KeyEncoder) :
    OwnerListing Address UtxosByAddressCursor (AddressTxout τ) where
  noOwner := "You must specify at least one address"
  range address lower := encoder.encodeAddressUtxosRange blake2b address (lower.map .cursor) none
  read := readAddressesKv env
  cursorOf addresses txout := do
    let addrIdx ← orPanic (addresses.idxOf? txout.addr)
    return encodeAddressesUtxosCursor env.b64Encode (BitVec.ofNat 16 addrIdx)
      ⟨txout.slot, txout.txHash, txout.index⟩

structure AddressesResponse (τ : Type) extends PaginatedResponse (AddressTxout τ) where
  resolvedDatums : Option (List (Hash × Bytes))

def utxosByAddresses (env : AddressEnv τ) (config : ApiConfig) (blake2b : Bytes → Hash)
    (store : Store) (request : Request) : Except Failure (AddressesResponse τ) := do
  let encoder ← orInternal config.utxoCborByAddress
  let addresses ← requestedAddresses env request.payload
  let params ← parseCursorPageParams (decodeUtxosByAddressesCursor env.b64Decode) request.page
  let lastUpdated ← getLastUpdated env.toEnv store encoder
  let page ← (addressesListing env.toEnv blake2b encoder).page store addresses params.1 params.2
  -- the datums are read whether or not they are asked for
  let datumEncoder ← orInternal config.datumByHash
  let datums := fetchDatums store datumEncoder
    (page.1.filterMap fun txout => env.datumHash txout.txo)
  return ⟨⟨page.1, lastUpdated, page.2⟩,
    if request.resolveDatums.getD false then some datums else none⟩

/-! ## The handler for credentials as a listing -/

def credsPlace (cursor : UtxosByPaymentCredsCursor) : U16 × UtxosByPaymentCredCursor :=
  (cursor.credIdx, ⟨cursor.address, cursor.slot, cursor.uHash, cursor.uIndex⟩)

def credsListing (env : Env τ) (encoder : KeyEncoder) (network : Byte) :
    OwnerListing ShelleyPaymentPart UtxosByPaymentCredCursor (Txout τ) where
  noOwner := "You must specify at least one payment credential"
  range cred lower := encoder.encodeUtxosByPaymentCredRange network cred lower none
  read := readKv env
  cursorOf creds txout := do
    let credIdx ← orPanic (creds.idxOf? txout.addr.payment)
    return encodeUtxosByPaymentCredsCursor env.b64Encode
      ⟨BitVec.ofNat 16 credIdx, txout.addr, txout.slot, txout.txHash, txout.index⟩

section Creds

variable {env : Env τ} {api : Api} {store : Store} {encoder : KeyEncoder}

theorem planScans_eq (env : Env τ) (encoder : KeyEncoder) (network : Byte)
    (creds : List ShelleyPaymentPart) (cursor : Option UtxosByPaymentCredsCursor) :
    planScans creds cursor =
      (credsListing env encoder network).plan creds (cursor.map credsPlace) := by
  cases cursor with
  | none => cases creds <;> rfl
  | some c =>
    simp only [planScans, OwnerListing.plan, Option.map_some, credsPlace]
    cases creds.drop c.credIdx.toNat <;> rfl

theorem collectKvs_eq (env : Env τ) (network : Byte) (scans : List Scan) (required : ℕ) :
    collectKvs store encoder network scans required =
      collectRanges store
        (scans.map fun scan => (credsListing env encoder network).range scan.1 scan.2) required := by
  induction scans generalizing required with
  | nil => rfl
  | cons scan rest ih =>
    obtain ⟨cred, lower⟩ := scan
    simp only [collectKvs, List.map_cons, collectRanges, ih]
    rfl

theorem processKvs_eq (encoder : KeyEncoder) (network : Byte) (count : ℕ) (creds : List ShelleyPaymentPart) (i : ℕ)
    (kvs : List Entry) (page : Page τ) :
    processKvs env count creds i kvs page =
      (pageLoop (credsListing env encoder network).read
        ((credsListing env encoder network).cursorOf creds) count i kvs).map fun result =>
          ⟨page.datumHashes ++ result.1.flatMap fun txout => (env.datumHash txout.txo).toList,
            page.txouts ++ result.1, result.2.or page.nextCursor⟩ := by
  fun_induction processKvs env count creds i kvs page with
  | case1 i page => simp [pageLoop, Except.map]
  | case2 i kv page =>
    simp only [pageLoop, credsListing]
    cases readKv env kv with
    | error error => rfl
    | ok txout => simp [Page.push, Except.map]
  | case3 i kv next rest page ihlast ihnext =>
    rw [pageLoop]
    change (readKv env kv >>= _) = Except.map _ (readKv env kv >>= _)
    cases readKv env kv with
    | error error => rfl
    | ok txout =>
      simp only [Except.ok_bind]
      split
      case isTrue =>
        rw [show (credsListing env encoder network).cursorOf creds txout =
          Mapi.orPanic (creds.idxOf? txout.addr.payment) >>= fun credIdx =>
            .ok (encodeUtxosByPaymentCredsCursor env.b64Encode ⟨BitVec.ofNat 16 credIdx,
              txout.addr, txout.slot, txout.txHash, txout.index⟩) from rfl]
        cases Mapi.orPanic (creds.idxOf? txout.addr.payment) with
        | error error => rfl
        | ok credIdx =>
          refine (ihlast txout credIdx).trans ?_
          simp only [Except.ok_bind]
          cases pageLoop (credsListing env encoder network).read
              ((credsListing env encoder network).cursorOf creds) count (i + 2) rest with
          | error error => rfl
          | ok result => simp [Page.push, Except.map]
      case isFalse =>
        refine (ihnext txout).trans ?_
        cases pageLoop (credsListing env encoder network).read
            ((credsListing env encoder network).cursorOf creds) count (i + 1) (next :: rest) with
        | error error => rfl
        | ok result => simp [Page.push, Except.map]

theorem map_page_utxosByPaymentCreds {payload : List Bytes} {given : Option ℕ} {count : ℕ}
    {text : Option Bytes} {cursor : Option UtxosByPaymentCredsCursor} (resolveDatums : Option Bool)
    (hencoder : api.utxoCborByAddress = some encoder) (hdatums : api.datumByHash.isSome)
    (hcreds : requestedCreds env payload = .ok creds) (hcount : pageCount given = .ok count)
    (htext : pageCursor (decodeUtxosByPaymentCredsCursor env.b64Decode) text = .ok cursor)
    (hupdated : getLastUpdated env store encoder = .ok lastUpdated) :
    (utxosByPaymentCreds env api store ⟨payload, ⟨given, text⟩, resolveDatums⟩).map
        (fun response => (response.data, response.nextCursor)) =
      (credsListing env encoder api.networkId).page store creds count
        (cursor.map credsPlace) := by
  obtain ⟨datumEncoder, hdatums⟩ := Option.isSome_iff_exists.mp hdatums
  rw [utxosByPaymentCreds, OwnerListing.page, hencoder, Mapi.orInternal, Except.ok_bind, hcreds,
    Except.ok_bind, parseCursorPageParams_eq hcount htext, Except.ok_bind, hupdated,
    Except.ok_bind, planScans_eq env encoder api.networkId]
  cases (credsListing env encoder api.networkId).plan creds (cursor.map credsPlace) with
  | error error => rfl
  | ok scans =>
    simp only [Except.ok_bind, collectKvs_eq env, processKvs_eq encoder api.networkId]
    cases pageLoop (credsListing env encoder api.networkId).read
        ((credsListing env encoder api.networkId).cursorOf creds) count 0
        (collectRanges store (scans.map fun scan =>
          (credsListing env encoder api.networkId).range scan.1 scan.2) (count + 1)) with
    | error error => rfl
    | ok result => simp [Except.map, hdatums, Mapi.orInternal]

end Creds

variable {owners : List ο} {owner : ο}

theorem idxOf?_of_getElem? [DecidableEq ο] (hnodup : owners.Nodup)
    (howner : owners[i]? = some owner) : owners.idxOf? owner = some i := by
  obtain ⟨hlt, rfl⟩ := List.getElem?_eq_some_iff.mp howner
  rw [List.idxOf?, List.findIdx?_eq_some_iff_getElem]
  refine ⟨hlt, by simp, fun j hj => ?_⟩
  have hne : owners[j] ≠ owners[i] := fun heq => hj.ne (hnodup.getElem_inj_iff.mp heq)
  simpa using hne

theorem toNat_ofNat_of_getElem? (hlength : owners.length ≤ 2 ^ 16)
    (howner : owners[i]? = some owner) : (BitVec.ofNat 16 i).toNat = i := by
  have hlt := (List.getElem?_eq_some_iff.mp howner).1
  exact Nat.mod_eq_of_lt (by omega)

/-! ## Addresses -/

def IsParsed (env : Env τ) : Address → Prop
  | .shelley address => Network.ofTag address.network.tag = address.network
  | .byron address => env.byronFromBytes address.toVec = some address

def IsLong : Address → Prop
  | .shelley _ => False
  | .byron address => maxByronAddressLen < address.toVec.length

section Addresses

variable {env : Env τ} {blake2b : Bytes → Hash} {store : Store} {encoder : KeyEncoder} {kv : Entry}

theorem range_addressesListing (address : Address) (lower : Option UtxosByAddressCursor) :
    (addressesListing env blake2b encoder).range address lower =
      ownerRange utxoItemBytes ((addressOwner address).front encoder blake2b)
        (lower.map .cursor) none := by
  rw [← UtxoOwner.range_eq]
  cases address <;> rfl

theorem mem_entriesOf_address (hstore : IsStore env blake2b store) :
    kv ∈ (addressesListing env blake2b encoder).entriesOf store address ↔
      store.get kv.1 = some kv.2 ∧
        ∃ item, kv.1 = ((addressOwner address).key item).encode encoder blake2b := by
  rw [OwnerListing.entriesOf, range_addressesListing, Option.map_none, ← UtxoOwner.range_eq]
  exact mem_scan_ownerRange hstore encoder (addressOwner address)

theorem readAddressesKv_encode (hparsed : IsParsed env address) (hshort : ¬ IsLong address)
    {item : UtxosByAddressCursor} {v : Bytes} {txo : τ} (htxo : env.decodeTxo v = some txo) :
    readAddressesKv env (((addressOwner address).key item).encode encoder blake2b, v) =
      .ok ⟨⟨item.uHash, item.uIndex, item.slot, txo⟩, address⟩ := by
  have hkey : decodeUtxosByAddressKey env.byronFromBytes
      (((addressOwner address).key item).encode encoder blake2b) =
        some ⟨.address address, item.slot, item.uHash, item.uIndex⟩ := by
    cases address with
    | shelley a =>
      refine (decodeUtxosByAddressKey_encode _ encoder a item).trans ?_
      rw [show Network.ofTag a.network.tag = a.network from hparsed]
    | byron a =>
      refine (decodeUtxosByAddressKey_encode_byron encoder blake2b hparsed item).trans ?_
      rw [ByronAddress.decoded, if_pos (Nat.le_of_not_lt hshort)]
  simp [readAddressesKv, hkey, readAnyAddress, htxo, Mapi.orPanic, orInternal]

variable (hb64 : ∀ bytes, env.b64Decode (env.b64Encode bytes) = some bytes)
  (hstore : IsListedStore env blake2b store) {addresses : List Address}
  (hparsed : ∀ address ∈ addresses, IsParsed env address)
  (hlong : ∀ address ∈ addresses, IsLong address → ∀ item,
    store.get (((addressOwner address).key item).encode encoder blake2b) = none)

include hstore hparsed hlong

theorem exists_of_mem_entriesOf_address (haddress : address ∈ addresses)
    (hkv : kv ∈ (addressesListing env blake2b encoder).entriesOf store address) :
    ∃ item txo, kv.1 = ((addressOwner address).key item).encode encoder blake2b ∧
      store.get kv.1 = some kv.2 ∧ env.decodeTxo kv.2 = some txo ∧
      readAddressesKv env kv = .ok ⟨⟨item.uHash, item.uIndex, item.slot, txo⟩, address⟩ := by
  obtain ⟨k, v⟩ := kv
  obtain ⟨hget, item, rfl⟩ := (mem_entriesOf_address hstore.toIsStore).mp hkv
  have hshort : ¬ IsLong address := by
    intro h
    rw [hlong address haddress h item] at hget
    cases hget
  obtain ⟨txo, htxo⟩ := hstore.exists_txo hget
  exact ⟨item, txo, rfl, hget, htxo, readAddressesKv_encode (hparsed address haddress) hshort htxo⟩

include hb64

theorem law_addressesListing (hnodup : addresses.Nodup) (hlength : addresses.length ≤ 2 ^ 16) :
    (addressesListing env blake2b encoder).Law store
      (decodeUtxosByAddressesCursor env.b64Decode) addresses := by
  intro i address kv haddress hkv
  obtain ⟨item, txo, hkey, -, -, hread⟩ :=
    exists_of_mem_entriesOf_address hstore hparsed hlong (List.mem_of_getElem? haddress) hkv
  refine ⟨_, encodeAddressesUtxosCursor env.b64Encode (BitVec.ofNat 16 i) item, hread, ?_,
    BitVec.ofNat 16 i, item, decodeUtxosByAddressesCursor_encode hb64 _ item,
    toNat_ofNat_of_getElem? hlength haddress, ?_⟩
  · simp [addressesListing, idxOf?_of_getElem? hnodup haddress, Mapi.orPanic]
  · intro owner howner
    cases howner.symm.trans haddress
    rw [range_addressesListing, range_addressesListing, hkey, UtxoOwner.encode_key]
    simp [ownerRange]

end Addresses

theorem law_credsListing {env : AddressEnv τ} {blake2b : Bytes → Hash} {store : Store}
    (hb64 : ∀ bytes, env.b64Decode (env.b64Encode bytes) = some bytes)
    (hstore : IsListedStore env.toEnv blake2b store) (encoder : KeyEncoder) (network : Byte)
    (hnodup : creds.Nodup) (hlength : creds.length ≤ 2 ^ 16) :
    (credsListing env.toEnv encoder network).Law store
      (fun text => (decodeUtxosByPaymentCredsCursor env.b64Decode text).map credsPlace) creds := by
  intro i cred kv hcred hkv
  have hkv : kv ∈ credKvs env store encoder network cred none .asc := hkv
  obtain ⟨txout, hread, hkey, -, hof⟩ := exists_of_mem_credKvs hstore hkv
  refine ⟨txout, encodeUtxosByPaymentCredsCursor env.b64Encode ⟨BitVec.ofNat 16 i, txout.addr,
    txout.slot, txout.txHash, txout.index⟩, hread, ?_, BitVec.ofNat 16 i, cursorAt txout, ?_,
    toNat_ofNat_of_getElem? hlength hcred, ?_⟩
  · simp [credsListing, hof.payment_eq, idxOf?_of_getElem? hnodup hcred, Mapi.orPanic]
  · have hnetwork : Network.ofTag txout.addr.network.tag = txout.addr.network := by
      rw [hof.network_eq, Network.tag_ofTag]
    rw [decodeUtxosByPaymentCredsCursor_encode hb64 hnetwork]
    rfl
  · intro owner _
    rw [hkey]
    exact ⟨start_some_eq none (cursorAt txout), rfl⟩

/-! ## All UTxOs, page by page -/

theorem pageCursor_map {γ δ : Type} {decodeCursor : Bytes → Except DecodeFailure γ} {f : γ → δ}
    {text : Option Bytes} {cursor : Option δ}
    (h : pageCursor (fun text => (decodeCursor text).map f) text = .ok cursor) :
    ∃ c, pageCursor decodeCursor text = .ok c ∧ c.map f = cursor := by
  cases text with
  | none =>
    cases h
    exact ⟨none, rfl, rfl⟩
  | some text =>
    rw [pageCursor] at h ⊢
    cases hdecode : decodeCursor text with
    | error error =>
      rw [hdecode] at h
      cases error <;> cases h
    | ok c =>
      rw [hdecode] at h
      cases h
      exact ⟨some c, rfl, rfl⟩

theorem ne_nil_of_mem_iff {α : Type} {l : List α} {owners : List β} {P : α → β → Prop}
    (hne : l ≠ []) (hdecode : ∀ a ∈ l, ∃ b, P a b) (hmem : ∀ b, b ∈ owners ↔ ∃ a ∈ l, P a b) :
    owners ≠ [] := by
  obtain ⟨a, ha⟩ := List.exists_mem_of_ne_nil l hne
  obtain ⟨b, hb⟩ := hdecode a ha
  exact List.ne_nil_of_mem ((hmem b).mpr ⟨a, ha, hb⟩)

theorem addressFromStr_of_decode {env : AddressEnv τ} {text : Bytes}
    (h : decodePaymentAddress env text = .ok address) :
    env.addressFromStr text = some (.payment address) := by
  unfold decodePaymentAddress at h
  split at h
  · cases h
  · cases h
  case h_3 parsed hparse =>
    cases h
    exact hparse

theorem map_page_utxosByAddresses {env : AddressEnv τ} {config : ApiConfig} {blake2b : Bytes → Hash}
    {store : Store} {encoder : KeyEncoder} {payload : List Bytes} {addresses : List Address}
    {given : Option ℕ} {count : ℕ} {text : Option Bytes}
    {cursor : Option (U16 × UtxosByAddressCursor)} (resolveDatums : Option Bool)
    (hencoder : config.utxoCborByAddress = some encoder) (hdatums : config.datumByHash.isSome)
    (haddresses : requestedAddresses env payload = .ok addresses)
    (hcount : pageCount given = .ok count)
    (htext : pageCursor (decodeUtxosByAddressesCursor env.b64Decode) text = .ok cursor)
    (hupdated : getLastUpdated env.toEnv store encoder = .ok lastUpdated) :
    (utxosByAddresses env config blake2b store ⟨payload, ⟨given, text⟩, resolveDatums⟩).map
        (fun response => response.toPaginatedResponse.page) =
      (addressesListing env.toEnv blake2b encoder).page store addresses count cursor := by
  obtain ⟨datumEncoder, hdatums⟩ := Option.isSome_iff_exists.mp hdatums
  rw [utxosByAddresses, hencoder, Mapi.orInternal, Except.ok_bind, haddresses, Except.ok_bind,
    parseCursorPageParams_eq hcount htext, Except.ok_bind, hupdated, Except.ok_bind]
  cases (addressesListing env.toEnv blake2b encoder).page store addresses count cursor with
  | error error => rfl
  | ok page => simp [Except.map, hdatums, Mapi.orInternal, PaginatedResponse.page]

section Pages

variable {env : AddressEnv τ} {config : ApiConfig} {blake2b : Bytes → Hash} {store : Store}
  {encoder : KeyEncoder} {payload : List Bytes} {given : Option ℕ} {count : ℕ}
  (hb64 : ∀ bytes, env.b64Decode (env.b64Encode bytes) = some bytes)
  (hstore : IsListedStore env.toEnv blake2b store)
  (hencoder : config.utxoCborByAddress = some encoder) (hdatums : config.datumByHash.isSome)
  (hcursor : (store.get encoder.encodeCursorKey).isSome) (hpayload : payload ≠ [])
  (hcount : pageCount given = .ok count) (resolveDatums : Option Bool)

include hb64 hstore hencoder hdatums hcursor hpayload hcount

theorem listsOnce_utxosByAddresses
    (hparsed : ∀ text address, env.addressFromStr text = some (.payment address) →
      IsParsed env.toEnv address)
    (hdecode : ∀ text ∈ payload, ∃ address, decodePaymentAddress env text = .ok address)
    (hdifferent : NamesDifferent (decodePaymentAddress env) payload)
    (hlength : (dedup (Sorting.byKey id payload)).length ≤ 2 ^ 16)
    (hlong : ∀ text ∈ payload, ∀ address, decodePaymentAddress env text = .ok address →
      IsLong address → ∀ item,
        store.get (((addressOwner address).key item).encode encoder blake2b) = none) :
    ListsOnce
      (fun txout : AddressTxout τ =>
        (∃ text ∈ payload, decodePaymentAddress env text = .ok txout.addr) ∧
        IsAddressUtxo blake2b store encoder env txout.addr none
          ⟨txout.slot, txout.txHash, txout.index⟩ txout.toUtxoWithSlot)
      fun _ cursor => (utxosByAddresses env config blake2b store
        ⟨payload, ⟨given, cursor⟩, resolveDatums⟩).map fun response =>
          response.toPaginatedResponse.page := by
  obtain ⟨lastUpdated, hupdated⟩ := exists_getLastUpdated hstore.toIsStore hcursor
  obtain ⟨addresses, haddresses, hrequested⟩ := exists_owners hdecode
  have hnodup := nodup_owners hdifferent haddresses
  have hparsed : ∀ address ∈ addresses, IsParsed env.toEnv address := by
    intro address haddress
    obtain ⟨text, -, htext⟩ := (hrequested address).mp haddress
    exact hparsed text address (addressFromStr_of_decode htext)
  have hlong : ∀ address ∈ addresses, IsLong address → ∀ item,
      store.get (((addressOwner address).key item).encode encoder blake2b) = none := by
    intro address haddress
    obtain ⟨text, htext, hdecoded⟩ := (hrequested address).mp haddress
    exact hlong text htext address hdecoded
  have law := law_addressesListing hb64 hstore hparsed hlong hnodup
    (by rwa [Except.length_of_mapM_eq_ok haddresses])
  refine (law.listsOnce (ne_nil_of_mem_iff hpayload hdecode hrequested) hnodup
    (pos_of_pageCount hcount) (fun n text cursor htext => map_page_utxosByAddresses resolveDatums
      hencoder hdatums haddresses hcount htext hupdated) AddressTxout.addr
    (fun txout => ((addressOwner txout.addr).key
      ⟨txout.slot, txout.txHash, txout.index⟩).encode encoder blake2b) ?_).congr fun txout => ?_
  · intro address haddress kv hkv txout htxout
    obtain ⟨item, txo, hkey, -, -, hread⟩ :=
      exists_of_mem_entriesOf_address hstore hparsed hlong haddress hkv
    cases htxout.symm.trans hread
    exact ⟨rfl, hkey.symm⟩
  · constructor
    · rintro ⟨address, haddress, kv, hkv, htxout⟩
      obtain ⟨item, txo, hkey, hget, htxo, hread⟩ :=
        exists_of_mem_entriesOf_address hstore hparsed hlong haddress hkv
      cases htxout.symm.trans hread
      exact ⟨(hrequested address).mp haddress, kv.2, txo, hkey ▸ hget, htxo, by simp, rfl⟩
    · rintro ⟨hrequest, v, txo, hget, htxo, -, hshows⟩
      obtain ⟨⟨txHash, index, slot, txo'⟩, address⟩ := txout
      cases hshows
      have haddress := (hrequested address).mpr hrequest
      have hshort : ¬ IsLong address := by
        intro h
        rw [hlong address haddress h] at hget
        cases hget
      exact ⟨address, haddress,
        (((addressOwner address).key ⟨slot, txHash, index⟩).encode encoder blake2b, v),
        (mem_entriesOf_address hstore.toIsStore).mpr ⟨hget, _, rfl⟩,
        readAddressesKv_encode (hparsed address haddress) hshort htxo⟩

theorem listsOnce_utxosByPaymentCreds (hlength : payload.length ≤ 100)
    (hdecode : ∀ text ∈ payload, ∃ cred, decodePaymentCredential env.toEnv text = .ok cred)
    (hdifferent : NamesDifferent (decodePaymentCredential env.toEnv) payload) :
    ListsOnce
      (fun txout : Txout τ =>
        (∃ text ∈ payload, decodePaymentCredential env.toEnv text = .ok txout.addr.payment) ∧
        IsCredUtxo env store encoder config.networkId txout.addr.payment none txout)
      fun _ cursor => (utxosByPaymentCreds env.toEnv config.toApi store
        ⟨payload, ⟨given, cursor⟩, resolveDatums⟩).map fun response =>
          (response.data, response.nextCursor) := by
  obtain ⟨lastUpdated, hupdated⟩ := exists_getLastUpdated hstore.toIsStore hcursor
  obtain ⟨creds, hdecoded, hrequested⟩ := exists_owners hdecode
  have hcreds : requestedCreds env.toEnv payload = .ok creds := by
    rw [requestedCreds, if_neg (by omega), hdecoded]
  have hnodup := nodup_owners hdifferent hdecoded
  have hfew : creds.length ≤ 2 ^ 16 := by
    have hdedup := length_dedup_le (Sorting.byKey id payload)
    rw [Sorting.byKey, List.length_insertionSort] at hdedup
    rw [Except.length_of_mapM_eq_ok hdecoded]
    exact hdedup.trans (by omega)
  have law := law_credsListing hb64 hstore encoder config.networkId hnodup hfew
  refine (law.listsOnce (ne_nil_of_mem_iff hpayload hdecode hrequested) hnodup
    (pos_of_pageCount hcount) (fun n text cursor htext => ?_) (fun txout => txout.addr.payment)
    (Txout.key encoder) ?_).congr fun txout => ?_
  · obtain ⟨c, hc, rfl⟩ := pageCursor_map htext
    exact map_page_utxosByPaymentCreds resolveDatums hencoder hdatums hcreds hcount hc hupdated
  · intro cred hcred kv hkv txout htxout
    have hkv : kv ∈ credKvs env store encoder config.networkId cred none .asc := hkv
    obtain ⟨txout', hread, hkey, -, hof⟩ := exists_of_mem_credKvs hstore hkv
    cases htxout.symm.trans hread
    exact ⟨hof.payment_eq, hkey.symm⟩
  · constructor
    · rintro ⟨cred, hcred, kv, hkv, htxout⟩
      have hkv : kv ∈ credKvs env store encoder config.networkId cred none .asc := hkv
      obtain ⟨txout', hread, hkey, hget, hof⟩ := exists_of_mem_credKvs hstore hkv
      cases htxout.symm.trans hread
      obtain rfl := hof.payment_eq
      exact ⟨(hrequested _).mp hcred, kv.2, hkey ▸ hget, hof⟩
    · rintro ⟨hrequest, v, hget, hof⟩
      obtain ⟨hkv, hread⟩ : (txout.key encoder, v) ∈
          credKvs env store encoder config.networkId txout.addr.payment none .asc ∧
          readKv env.toEnv (txout.key encoder, v) = .ok txout := mem_credKvs hget hof
      exact ⟨_, (hrequested _).mpr hrequest, _, hkv, hread⟩

end Pages

theorem follow_eq_none_of_cycle {server : Option Bytes → Except Failure (List β × Option Bytes)}
    {a b : Bytes} (hfirst : (server none).toOption.any fun page => page.2 = some a)
    (ha : (server (some a)).toOption.any fun page => page.2 = some b)
    (hb : (server (some b)).toOption.any fun page => page.2 = some a) (fuel : ℕ) :
    Paging.follow (fun _ => server) fuel 0 none = none := by
  have hnext : ∀ {cursor next}, (server cursor).toOption.any (fun page => page.2 = some next) →
      ∃ items, server cursor = .ok (items, some next) := by
    intro cursor next h
    obtain ⟨⟨items, next'⟩, hpage, heq⟩ := Except.exists_ok_of_any h
    cases of_decide_eq_true heq
    exact ⟨items, hpage⟩
  cases fuel with
  | zero => rfl
  | succ fuel =>
    obtain ⟨items, hpage⟩ := hnext hfirst
    have hcycle : ∀ n cursor, cursor = a ∨ cursor = b → ∃ items next,
        (fun _ : ℕ => server) n (some cursor) = .ok (items, some next) ∧
          (next = a ∨ next = b) := by
      rintro n cursor (rfl | rfl)
      · obtain ⟨items, hpage⟩ := hnext ha
        exact ⟨items, _, hpage, Or.inr rfl⟩
      · obtain ⟨items, hpage⟩ := hnext hb
        exact ⟨items, _, hpage, Or.inl rfl⟩
    rw [Paging.follow, hpage]
    simp only [Paging.follow_eq_none hcycle fuel (0 + 1) (Or.inl rfl), Option.map_none]

theorem isListedStore_otherStore : IsListedStore plainEnv plainHash otherStore := by
  refine holdsRows_otherStore.isListedStore ?_ ?_
  all_goals
    intro row hrow hreducer
    simp only [List.mem_cons, List.not_mem_nil, or_false] at hrow
    rcases hrow with rfl | rfl <;> cases hreducer

end CardanoIndexer.Mapi
