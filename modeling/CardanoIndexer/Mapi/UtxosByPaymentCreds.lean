import CardanoIndexer.Mapi.Request

/-!
# UTxOs of several payment credentials

A cursor names the position of a credential and a UTxO; the decoder only checks its shape.
-/

namespace CardanoIndexer.Mapi

open Timbre

variable {τ : Type} {creds : List ShelleyPaymentPart} {kv : Bytes × Bytes} {network : Byte}

abbrev Scan := ShelleyPaymentPart × Option UtxosByPaymentCredCursor

def planScans (creds : List ShelleyPaymentPart) (cursor : Option UtxosByPaymentCredsCursor) :
    Except Failure (List Scan) :=
  match cursor with
  | some c => match creds.drop c.credIdx.toNat with
      | [] => .error (.badRequest "Malformed cursor")
      | cred :: rest =>
        .ok ((cred, some ⟨c.address, c.slot, c.uHash, c.uIndex⟩) :: rest.map (·, none))
  | none => match creds with
      | [] => .error (.badRequest "You must specify at least one payment credential")
      | cred :: rest => .ok ((cred, none) :: rest.map (·, none))

def collectKvs (store : Store) (encoder : KeyEncoder) (network : Byte) :
    List Scan → ℕ → List (Bytes × Bytes)
  | [], _ => []
  | (cred, lower) :: rest, required =>
    let range := encoder.encodeUtxosByPaymentCredRange network cred lower none
    let kvs := (store.scan range.start range.stop).take required
    if kvs.length = required then kvs
    else kvs ++ collectKvs store encoder network rest (required - kvs.length)

/-! ## The page -/

structure Txout (τ : Type) where
  txHash : Hash
  index : U64
  slot : U64
  txo : τ
  addr : ShelleyAddress
  deriving DecidableEq

structure Page (τ : Type) where
  datumHashes : List Hash
  txouts : List (Txout τ)
  nextCursor : Option Bytes

def Page.push (env : Env τ) (page : Page τ) (txout : Txout τ) : Page τ :=
  { page with
    datumHashes := page.datumHashes ++ (env.datumHash txout.txo).toList
    txouts := page.txouts ++ [txout] }

def readAddress : DecodedAddress → Except Failure ShelleyAddress
  | .address (.shelley a) => .ok a
  | .address (.byron _) => .error .internalServerError
  | .hash _ => .error .internalServerError

def readKv (env : Env τ) (kv : Bytes × Bytes) : Except Failure (Txout τ) := do
  let key ← orPanic (decodeUtxosByAddressKey env.byronFromBytes kv.1)
  let addr ← readAddress key.address
  let txo ← orInternal (env.decodeTxo kv.2)
  return ⟨key.utxoHash, key.utxoIndex, key.slot, txo, addr⟩

def processKvs (env : Env τ) (count : ℕ) (originalCreds : List ShelleyPaymentPart) :
    ℕ → List (Bytes × Bytes) → Page τ → Except Failure (Page τ)
  | _, [], page => .ok page
  | _, [kv], page => do
    let txout ← readKv env kv
    return page.push env txout
  | i, kv :: next :: rest, page => do
    let txout ← readKv env kv
    if i = count - 1 then do
      let credIdx ← orPanic (originalCreds.idxOf? txout.addr.payment)
      let cursor := encodeUtxosByPaymentCredsCursor env.b64Encode
        ⟨BitVec.ofNat 16 credIdx, txout.addr, txout.slot, txout.txHash, txout.index⟩
      processKvs env count originalCreds (i + 2) rest
        { page.push env txout with nextCursor := some cursor }
    else processKvs env count originalCreds (i + 1) (next :: rest) (page.push env txout)

def hashForEmptyBs : Bytes :=
  [0x0e, 0x57, 0x51, 0xc0, 0x26, 0xe5, 0x43, 0xb2, 0xe8, 0xab, 0x2e, 0xb0, 0x60, 0x99, 0xda,
    0xa1, 0xd1, 0xe5, 0xdf, 0x47, 0x77, 0x8f, 0x77, 0x87, 0xfa, 0xab, 0x45, 0xcd, 0xf1, 0x2f,
    0xe3, 0xa8]

/-- `fetch_datums`: the stored datums of the hashes.  An empty value stands for a datum that
was not seen, unless it is the datum. -/
def fetchDatums (store : Store) (encoder : KeyEncoder) (hashes : List Hash) :
    List (Hash × Bytes) :=
  (hashes.filterMap fun hash =>
    (store.get (encoder.encodeDatumByHashKey hash)).map fun bytes => (hash, bytes)).filter
      fun datum => if datum.2 = [] then datum.1.toList = hashForEmptyBs else true

structure Request where
  payload : List Bytes
  page : CursorPagination
  resolveDatums : Option Bool

structure Response (τ : Type) where
  data : List (Txout τ)
  resolvedDatums : Option (List (Hash × Bytes))
  lastUpdated : LastUpdated
  nextCursor : Option Bytes
  deriving DecidableEq

def utxosByPaymentCreds (env : Env τ) (api : Api) (store : Store) (request : Request) :
    Except Failure (Response τ) := do
  let encoder ← orInternal api.utxoCborByAddress
  let creds ← requestedCreds env request.payload
  let params ← parseCursorPageParams (decodeUtxosByPaymentCredsCursor env.b64Decode) request.page
  let lastUpdated ← getLastUpdated env store encoder
  let scans ← planScans creds params.2
  -- one extra, to know whether there is a next page
  let kvs := collectKvs store encoder api.networkId scans (params.1 + 1)
  let page ← processKvs env params.1 creds 0 kvs ⟨[], [], none⟩
  -- the datums are read whether or not they are asked for
  let datumEncoder ← orInternal api.datumByHash
  let datums := fetchDatums store datumEncoder page.datumHashes
  return ⟨page.txouts, if request.resolveDatums.getD false then some datums else none,
    lastUpdated, page.nextCursor⟩

def requestedScans (env : Env τ) (request : Request) : Except Failure (List Scan) := do
  let creds ← requestedCreds env request.payload
  let params ← parseCursorPageParams (decodeUtxosByPaymentCredsCursor env.b64Decode) request.page
  planScans creds params.2

variable {env : Env τ} {api : Api} {store : Store} {request : Request} {blake2b : Bytes → Hash}
  {scans : List Scan}

/-! ## Scans of a request -/

def CursorNotBefore (env : Env τ) (network : Byte) (request : Request) : Prop :=
  ∀ creds count cursor cred, requestedCreds env request.payload = .ok creds →
    parseCursorPageParams (decodeUtxosByPaymentCredsCursor env.b64Decode) request.page =
      .ok (count, some cursor) →
    creds[cursor.credIdx.toNat]? = some cred →
    NotBefore network cred ⟨cursor.address, cursor.slot, cursor.uHash, cursor.uIndex⟩

theorem planScans_spec {cursor : Option UtxosByPaymentCredsCursor}
    (h : planScans creds cursor = .ok scans) :
    ∀ scan ∈ scans, scan.1 ∈ creds ∧ ∀ lower, scan.2 = some lower →
      ∃ c, cursor = some c ∧ creds[c.credIdx.toNat]? = some scan.1 ∧
        lower = ⟨c.address, c.slot, c.uHash, c.uIndex⟩ := by
  intro scan hscan
  cases cursor with
  | none =>
    cases creds with
    | nil => cases h
    | cons cred rest =>
      cases h
      rw [show (cred, (none : Option UtxosByPaymentCredCursor)) :: rest.map (·, none) =
        (cred :: rest).map (·, none) by rfl, List.mem_map] at hscan
      obtain ⟨cred', hcred', rfl⟩ := hscan
      exact ⟨hcred', fun lower hlower => by cases hlower⟩
  | some c =>
    unfold planScans at h
    split at h
    case h_2 hnone => cases hnone
    case h_1 c' hc =>
      cases hc
      cases hdrop : creds.drop c.credIdx.toNat with
      | nil => simp [hdrop] at h
      | cons cred rest =>
        rw [hdrop] at h
        cases h
        have hmem : ∀ cred' ∈ cred :: rest, cred' ∈ creds := fun cred' hcred' =>
          List.mem_of_mem_drop (hdrop ▸ hcred')
        rcases List.mem_cons.mp hscan with rfl | hscan
        · refine ⟨hmem cred List.mem_cons_self, fun lower hlower => ?_⟩
          cases hlower
          refine ⟨c, rfl, ?_, rfl⟩
          rw [← List.head?_drop, hdrop]
          rfl
        · obtain ⟨cred', hcred', rfl⟩ := List.mem_map.mp hscan
          exact ⟨hmem cred' (List.mem_cons_of_mem _ hcred'), fun lower hlower => by cases hlower⟩

theorem keeps_planScans (creds : List ShelleyPaymentPart)
    (cursor : Option UtxosByPaymentCredsCursor) :
    Keeps (fun _ => True) (planScans creds cursor) := by
  unfold planScans
  split
  · split
    · exact .error (by simp)
    · exact .ok trivial
  · split
    · exact .error (by simp)
    · exact .ok trivial

theorem exists_scan_of_cursor {c : UtxosByPaymentCredsCursor} {cred : ShelleyPaymentPart}
    (hcred : creds[c.credIdx.toNat]? = some cred) :
    ∃ scans, planScans creds (some c) = .ok scans ∧
      (cred, some ⟨c.address, c.slot, c.uHash, c.uIndex⟩) ∈ scans := by
  rw [← List.head?_drop] at hcred
  obtain ⟨rest, hdrop⟩ := List.head?_eq_some_iff.mp hcred
  refine ⟨_, by rw [planScans, hdrop], List.mem_cons_self⟩

theorem keepsCredentials_iff {enc : KeyEncoder} :
    (∀ scans, requestedScans env request = .ok scans → ∀ scan ∈ scans,
      KeepsCredential blake2b enc network scan.1
        (enc.encodeUtxosByPaymentCredRange network scan.1 scan.2 none)) ↔
      CursorNotBefore env network request := by
  simp only [keepsCredential_iff]
  constructor
  · intro h creds count cursor cred hcreds hparams hcred
    obtain ⟨scans, hscans, hmem⟩ := exists_scan_of_cursor hcred
    refine h scans ?_ _ hmem _ rfl
    rw [requestedScans, hcreds, Except.ok_bind, hparams]
    exact hscans
  · intro h scans hscans scan hscan lower hlower
    obtain ⟨creds, hcreds, hscans⟩ := Except.bind_eq_ok.mp hscans
    obtain ⟨⟨count, cursor⟩, hparams, hscans⟩ := Except.bind_eq_ok.mp hscans
    obtain ⟨c, hc, hcred, rfl⟩ := (planScans_spec hscans scan hscan).2 lower hlower
    cases hc
    exact h creds count c scan.1 hcreds hparams hcred

theorem exists_scan_of_mem_collectKvs {encoder : KeyEncoder} {required : ℕ}
    (h : kv ∈ collectKvs store encoder network scans required) :
    ∃ scan ∈ scans, store.get kv.1 = some kv.2 ∧
      (encoder.encodeUtxosByPaymentCredRange network scan.1 scan.2 none).Contains kv.1 := by
  induction scans generalizing required with
  | nil => cases h
  | cons scan rest ih =>
    obtain ⟨cred, lower⟩ := scan
    have hfirst : ∀ n, kv ∈ (store.scan
        (encoder.encodeUtxosByPaymentCredRange network cred lower none).start
        (encoder.encodeUtxosByPaymentCredRange network cred lower none).stop).take n →
        ∃ scan ∈ (cred, lower) :: rest, store.get kv.1 = some kv.2 ∧
          (encoder.encodeUtxosByPaymentCredRange network scan.1 scan.2 none).Contains kv.1 := by
      intro n hmem
      obtain ⟨hget, hlow, hhigh⟩ := SortedMap.mem_scan.mp (List.mem_of_mem_take hmem)
      exact ⟨_, List.mem_cons_self, hget, hlow, Or.inr hhigh⟩
    rw [collectKvs] at h
    split at h
    · exact hfirst _ h
    · rcases List.mem_append.mp h with h | h
      · exact hfirst _ h
      · obtain ⟨scan, hscan, hkv⟩ := ih h
        exact ⟨scan, List.mem_cons_of_mem _ hscan, hkv⟩

theorem keeps_readKv {enc : KeyEncoder} {address : ShelleyAddress} {item : UtxosByAddressCursor}
    (hkey : kv.1 = enc.encodeUtxosByShelleyAddressKey address item) :
    Keeps (fun txout => txout.addr.network.tag = address.network.tag ∧
      txout.addr.payment = address.payment) (readKv env kv) := by
  have hdecode := decodeUtxosByAddressKey_encode env.byronFromBytes enc address item
  rw [← hkey] at hdecode
  refine (keeps_orPanic hdecode).bind fun key _ heq => ?_
  subst heq
  have haddr : readAddress (.address (.shelley ⟨Network.ofTag address.network.tag,
      address.payment, address.delegation⟩)) = .ok ⟨Network.ofTag address.network.tag,
      address.payment, address.delegation⟩ := rfl
  rw [haddr, Except.ok_bind]
  exact (keeps_orInternal _).bind fun txo _ _ => .ok ⟨Network.tag_ofTag _, rfl⟩

theorem keeps_processKvs {P : Txout τ → Prop} {count : ℕ}
    {originalCreds : List ShelleyPaymentPart} (i : ℕ) (kvs : List (Bytes × Bytes)) (page : Page τ)
    (hread : ∀ kv ∈ kvs, Keeps (fun txout => P txout ∧ txout.addr.payment ∈ originalCreds)
      (readKv env kv)) (hpage : ∀ txout ∈ page.txouts, P txout) :
    Keeps (fun page => ∀ txout ∈ page.txouts, P txout)
      (processKvs env count originalCreds i kvs page) := by
  have hpush : ∀ {page : Page τ} {txout}, (∀ txout ∈ page.txouts, P txout) → P txout →
      ∀ txout' ∈ (page.push env txout).txouts, P txout' := by
    intro page txout hpage htxout txout' hmem
    rcases List.mem_append.mp hmem with hmem | hmem
    · exact hpage txout' hmem
    · cases List.mem_singleton.mp hmem
      exact htxout
  -- the loop may take two results at once, so the induction is on how many there are
  obtain ⟨n, hn⟩ : ∃ n, kvs.length ≤ n := ⟨_, le_rfl⟩
  induction n generalizing i kvs page with
  | zero =>
    obtain rfl := List.length_eq_zero_iff.mp (Nat.le_zero.mp hn)
    exact .ok hpage
  | succ n ih =>
    match kvs with
    | [] => exact .ok hpage
    | [kv] =>
      exact (hread kv (by simp)).bind fun txout _ htxout => .ok (hpush hpage htxout.1)
    | kv :: next :: rest =>
      simp only [List.length_cons] at hn
      refine (hread kv (by simp)).bind fun txout _ htxout => ?_
      split
      · obtain ⟨credIdx, hcredIdx⟩ := Option.isSome_iff_exists.mp
          (List.isSome_idxOf?.mpr htxout.2)
        refine (keeps_orPanic hcredIdx).bind fun _ _ _ => ?_
        exact ih _ rest _ (fun kv' hkv' => hread kv' (by simp [hkv'])) (hpush hpage htxout.1)
          (by omega)
      · exact ih _ (next :: rest) _ (fun kv' hkv' => hread kv' (List.mem_cons_of_mem _ hkv'))
          (hpush hpage htxout.1) (by simp only [List.length_cons]; omega)

def IsRequested (env : Env τ) (api : Api) (request : Request) (txout : Txout τ) : Prop :=
  txout.addr.network.tag = api.networkId ∧
    ∃ text ∈ request.payload, decodePaymentCredential env text = .ok txout.addr.payment

def KeepsToRequest (env : Env τ) (blake2b : Bytes → Hash) (api : Api) (request : Request) :
    Prop :=
  (∀ enc scans, requestedScans env request = .ok scans → ∀ scan ∈ scans,
    KeepsCredential blake2b enc api.networkId scan.1
      (enc.encodeUtxosByPaymentCredRange api.networkId scan.1 scan.2 none)) ∧
  ∀ store, IsStore env blake2b store →
    Keeps (fun response => ∀ txout ∈ response.data, IsRequested env api request txout)
      (utxosByPaymentCreds env api store request)

theorem keeps_utxosByPaymentCreds (hstore : IsStore env blake2b store)
    (hranges : ∀ enc scans, requestedScans env request = .ok scans → ∀ scan ∈ scans,
      KeepsCredential blake2b enc api.networkId scan.1
        (enc.encodeUtxosByPaymentCredRange api.networkId scan.1 scan.2 none)) :
    Keeps (fun response => ∀ txout ∈ response.data, IsRequested env api request txout)
      (utxosByPaymentCreds env api store request) := by
  refine (keeps_orInternal _).bind fun encoder _ _ => ?_
  refine (keeps_requestedCreds env request.payload).bind fun creds hcreds hdecoded => ?_
  refine (keeps_parseCursorPageParams (noPanic_decodeUtxosByPaymentCredsCursor env.b64Decode)
    request.page).bind fun params hparams _ => ?_
  refine (keeps_getLastUpdated hstore encoder).bind fun lastUpdated _ _ => ?_
  refine (keeps_planScans creds params.2).bind fun scans hscans _ => ?_
  have hrequested : requestedScans env request = .ok scans := by
    rw [requestedScans, hcreds, Except.ok_bind, hparams]
    exact hscans
  have hread : ∀ kv ∈ collectKvs store encoder api.networkId scans (params.1 + 1),
      Keeps (fun txout => IsRequested env api request txout ∧ txout.addr.payment ∈ creds)
        (readKv env kv) := by
    intro kv hkv
    obtain ⟨scan, hscan, hget, hcontains⟩ := exists_scan_of_mem_collectKvs hkv
    obtain ⟨enc, key, hkey⟩ := hstore.exists_key hget
    rw [hkey] at hcontains
    obtain ⟨address, item, rfl, rfl, htag, hpayment⟩ :=
      hranges encoder scans hrequested scan hscan enc key hcontains
    have hcred : scan.1 ∈ creds := (planScans_spec hscans scan hscan).1
    refine (keeps_readKv hkey).mono fun txout htxout => ?_
    rw [IsRequested, htxout.1, htxout.2, hpayment]
    exact ⟨⟨htag, hdecoded scan.1 hcred⟩, hcred⟩
  refine (keeps_processKvs 0 _ ⟨[], [], none⟩ hread (by simp)).bind fun page _ hpage => ?_
  exact (keeps_orInternal _).bind fun datumEncoder _ _ => .ok hpage

/-- **A client cursor widens a credential query** unless it does not lie before the credential. -/
theorem keepsToRequest_iff (env : Env τ) (blake2b : Bytes → Hash) (api : Api) :
    (∀ enc text cursor payment, decodeUtxosByPaymentCredCursor env.b64Decode text = .ok cursor →
      (KeepsCredential blake2b enc api.networkId payment
        (enc.encodeUtxosByPaymentCredRange api.networkId payment (some cursor) none) ↔
        NotBefore api.networkId payment cursor)) ∧
    ∀ request, KeepsToRequest env blake2b api request ↔
      CursorNotBefore env api.networkId request := by
  constructor
  · intro enc text cursor payment _
    rw [keepsCredential_iff]
    simp
  · intro request
    constructor
    · intro h
      exact keepsCredentials_iff.mp (h.1 ⟨0, 0⟩)
    · intro h
      have hranges : ∀ enc scans, requestedScans env request = .ok scans → ∀ scan ∈ scans,
          KeepsCredential blake2b enc api.networkId scan.1
            (enc.encodeUtxosByPaymentCredRange api.networkId scan.1 scan.2 none) := fun enc =>
        keepsCredentials_iff.mpr h
      exact ⟨hranges, fun store hstore => keeps_utxosByPaymentCreds hstore hranges⟩

/-! ### A cursor of another credential -/

def plainEnv : Env Bytes where
  decodeBech32 text := some ("addr_vkh", text)
  b64Decode := some
  b64Encode := id
  byronFromBytes _ := none
  decodeTxo := some
  datumHash _ := none
  slotTimestamp _ := some "1970-01-01 00:00:00"

def plainApi : Api := ⟨some ⟨1, 2⟩, some ⟨1, 3⟩, 1⟩

def plainHash : Bytes → Hash := fun _ => Vector.replicate 32 0

def otherAddress : ShelleyAddress := ⟨.mainnet, .key (Vector.replicate 28 7), .null⟩

def otherKey (slot : U64) : Bytes :=
  KeyEncoder.encodeUtxosByShelleyAddressKey ⟨1, 2⟩ otherAddress ⟨slot, Vector.replicate 32 0, 0⟩

def otherStore : Store :=
  ((SortedMap.put ∅ (KeyEncoder.encodeCursorKey ⟨1, 2⟩) (encodeCursorValue .origin 0)).put
    (otherKey 5) [1]).put (otherKey 6) [2]

def otherRequest (count : Option ℕ) : Request where
  payload := [List.replicate 28 9]
  page := ⟨count, some (encodeUtxosByPaymentCredsCursor id
    ⟨0, otherAddress, 0, Vector.replicate 32 0, 0⟩)⟩
  resolveDatums := none

section Rows

variable {blake2b : Bytes → Hash} {enc : KeyEncoder} {rows : List (DataKey × Bytes)} {store : Store}
  {v : Bytes}

def HoldsRows (blake2b : Bytes → Hash) (enc : KeyEncoder) (rows : List (DataKey × Bytes))
    (store : Store) : Prop :=
  store.entries = (enc.encodeCursorKey, encodeCursorValue .origin 0) ::
    rows.map fun row => (row.1.encode enc blake2b, row.2)

theorem HoldsRows.get_iff (h : HoldsRows blake2b enc rows store) {k : Bytes} :
    store.get k = some v ↔ (k = enc.encodeCursorKey ∧ v = encodeCursorValue .origin 0) ∨
      ∃ row ∈ rows, k = row.1.encode enc blake2b ∧ v = row.2 := by
  rw [SortedMap.get_eq_some_iff, h, List.mem_cons, List.mem_map, Prod.mk.injEq]
  simp only [Prod.mk.injEq, eq_comm]

theorem HoldsRows.exists_row (h : HoldsRows blake2b enc rows store) {enc' : KeyEncoder}
    (data : DataKey) (hget : store.get (data.encode enc' blake2b) = some v) :
    ∃ row ∈ rows, data.encode enc' blake2b = row.1.encode enc blake2b ∧
      data.reducer = row.1.reducer ∧ v = row.2 := by
  rcases h.get_iff.mp hget with ⟨hkey, -⟩ | ⟨row, hrow, hkey, rfl⟩
  · exact absurd (hkey.symm.trans (DataKey.encode_eq enc' data)) (by
      simp [KeyEncoder.encodeCursorKey, KeyEncoder.encodeDataKey])
  · have hthird := congrArg (fun bytes : Bytes => bytes[3]?) hkey
    rw [DataKey.encode_eq, DataKey.encode_eq] at hthird
    exact ⟨row, hrow, hkey, Reducer.tag_injective (Option.some.inj hthird), rfl⟩

theorem HoldsRows.isStore (h : HoldsRows blake2b enc rows store)
    (hslot : ∃ timestamp, env.slotTimestamp 0 = some timestamp) : IsStore env blake2b store := by
  refine ⟨fun hget => ?_, fun {enc' v} hget => ?_⟩
  · rcases h.get_iff.mp hget with ⟨rfl, -⟩ | ⟨row, -, rfl, -⟩
    · exact ⟨enc, .cursor, rfl⟩
    · exact ⟨enc, .data row.1, rfl⟩
  · rcases h.get_iff.mp hget with ⟨-, rfl⟩ | ⟨row, -, hkey, -⟩
    · exact ⟨.origin, 0, rfl, hslot⟩
    · exact absurd (hkey.trans (DataKey.encode_eq enc row.1)) (by
        simp [KeyEncoder.encodeCursorKey, KeyEncoder.encodeDataKey])

end Rows

theorem holdsRows_otherStore : HoldsRows plainHash ⟨1, 2⟩
    [(.utxosByShelleyAddress otherAddress ⟨5, Vector.replicate 32 0, 0⟩, [1]),
      (.utxosByShelleyAddress otherAddress ⟨6, Vector.replicate 32 0, 0⟩, [2])] otherStore := by
  unfold HoldsRows
  decide +kernel

/-- The query returns the UTxOs of the other credential. -/
theorem cursor_widens_query :
    IsStore plainEnv plainHash otherStore ∧
    (∃ response, utxosByPaymentCreds plainEnv plainApi otherStore (otherRequest none) =
      .ok response ∧ response.data.map (·.addr) = [otherAddress, otherAddress]) ∧
    (∀ text ∈ (otherRequest none).payload,
      decodePaymentCredential plainEnv text ≠ .ok otherAddress.payment) ∧
    utxosByPaymentCreds plainEnv plainApi otherStore (otherRequest (some 1)) = .error .panic := by
  refine ⟨holdsRows_otherStore.isStore ⟨_, rfl⟩, ?_, by decide +kernel, by decide +kernel⟩
  obtain ⟨response, hresponse, hdata⟩ := Except.exists_ok_of_any
    (x := utxosByPaymentCreds plainEnv plainApi otherStore (otherRequest none))
    (p := fun response => response.data.map (·.addr) = [otherAddress, otherAddress])
    (by decide +kernel)
  exact ⟨response, hresponse, by simpa using hdata⟩

end CardanoIndexer.Mapi
