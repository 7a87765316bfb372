import CardanoIndexer.Mapi.SlotListings
import CardanoIndexer.Pipeline.RedisWire

/-!
# Outputs by their references

References are sorted and deduplicated as texts; a cursor is a position among them.
-/

namespace CardanoIndexer.Mapi

open Timbre
open Pipeline.RedisWire (parseU64)

structure ReadTx (τ : Type) where
  outputs : List τ
  collateralReturn : Option τ

def ReadTx.txoAt {τ : Type} (tx : ReadTx τ) (index : ℕ) : Option τ :=
  if index = tx.outputs.length then tx.collateralReturn else tx.outputs[index]?

structure TxEnv (τ : Type) extends Env τ where
  decodeTx : Bytes → Option (ReadTx τ)
  addressText : τ → Option Text

structure TxApi where
  txByHash : Option KeyEncoder
  datumByHash : Option KeyEncoder

structure TxoParams where
  resolveDatums : Option Bool
  allowMissing : Option Bool

def decodePosition (b64Decode : Bytes → Option Bytes) (b64Cursor : Bytes) :
    Except DecodeFailure ℕ :=
  match b64Decode b64Cursor with
  | none => .error .malformedCursor
  | some bytes =>
    if bytes.length = 8 then .ok (u64OfBytes bytes).toNat else .error .malformedCursor

def encodePosition (b64Encode : Bytes → Bytes) (item : ℕ) : Bytes :=
  b64Encode (u64Bytes (BitVec.ofNat 64 item))

def parseTxoRef (text : Text) : Except LookupFailure (Hash × ℕ) :=
  match text.splitOn '#' with
  | [hashText, indexText] =>
    match Bytes.unhex hashText with
    | none => .error (.badRequest "Transaction hash must be hex encoded")
    | some bytes => match hashOfBytes bytes with
        | none => .error (.badRequest "Malformed transaction hash")
        | some txHash => match parseU64 indexText with
            | none => .error (.badRequest "Malformed output reference index")
            | some index => .ok (txHash, index.toNat)
  | _ => .error (.badRequest "Output references must be of form '<tx_hash>#<index>'")

structure FoundTxo (τ : Type) where
  txHash : Hash
  index : ℕ
  txo : τ
  address : Text
  deriving DecidableEq

section

variable {τ : Type} (env : TxEnv τ) (store : Store) (encoder : KeyEncoder)

def fetchTxs (refs : List (Hash × ℕ)) : Except LookupFailure (List (Option (ReadTx τ))) :=
  refs.mapM fun ref => match store.get (encoder.encodeTxByHashKey ref.1) with
    | none => .ok none
    | some v => match env.decodeTx v with
        | none => .error (.request .internalServerError)
        | some tx => .ok (some tx)

def txOf (txHash : Hash) : Option (ReadTx τ) :=
  (store.get (encoder.encodeTxByHashKey txHash)).bind env.decodeTx

/-- The loop over the references of a page, from the `idx`-th on, with the outputs found so
far. -/
def collectTxos (allowMissing : Bool) (count asked pageStartIdx : ℕ) :
    ℕ → List (Hash × ℕ) → List (FoundTxo τ) →
      Except LookupFailure (List (FoundTxo τ) × Option Bytes)
  | _, [], txouts => .ok (txouts, none)
  | idx, (txHash, index) :: rest, txouts =>
    match txOf env store encoder txHash with
    | none =>
      if allowMissing then
        collectTxos allowMissing count asked pageStartIdx (idx + 1) rest txouts
      else .error .notFound
    | some tx => match tx.txoAt index with
        -- also if it is allowed to be missing
        | none => .error .notFound
        | some txo => match env.addressText txo with
            | none => .error (.request .internalServerError)
            | some address =>
              let txouts := txouts ++ [⟨txHash, index, txo, address⟩]
              if txouts.length = count then
                let lastItemIdx := pageStartIdx + idx + 1
                .ok (txouts, if lastItemIdx < asked then
                  some (encodePosition env.b64Encode lastItemIdx) else none)
              else collectTxos allowMissing count asked pageStartIdx (idx + 1) rest txouts

end

def pageStart (asked : ℕ) : Option ℕ → Except LookupFailure ℕ
  | some a => if asked < a then .error (.badRequest "Malformed cursor") else .ok a
  | none => .ok 0

structure TxosResponse (τ : Type) extends PaginatedResponse (FoundTxo τ) where
  resolvedDatums : Option (List (Hash × Bytes))

def txosByTxoRefs {τ : Type} (env : TxEnv τ) (api : TxApi) (store : Store) (payload : List Text)
    (params : TxoParams) (pageParams : CursorPagination) :
    Except LookupFailure (TxosResponse τ) := do
  let encoder ← asRequest (orInternal api.txByHash)
  let (count, cursor) ← asRequest (parseCursorPageParams (decodePosition env.b64Decode) pageParams)
  let outRefs := dedup (Sorting.byKey id payload)
  let asked := outRefs.length
  let pageStartIdx ← pageStart asked cursor
  let parsedRefs ← (outRefs.drop pageStartIdx).mapM parseTxoRef
  let lastUpdated ← asRequest (getLastUpdated env.toEnv store encoder)
  let _ ← fetchTxs env store encoder parsedRefs
  let page ← collectTxos env store encoder (params.allowMissing.getD false) count asked
    pageStartIdx 0 parsedRefs []
  -- the datums are read whether or not they are asked for
  let datumEncoder ← asRequest (orInternal api.datumByHash)
  let datums := fetchDatums store datumEncoder
    (page.1.filterMap fun txout => env.datumHash txout.txo)
  return ⟨⟨page.1, lastUpdated, page.2⟩,
    if params.resolveDatums.getD false then some datums else none⟩

abbrev TxoRef := Hash × U64

def TxoRef.text (ref : TxoRef) : Text :=
  Bytes.hex ref.1.toList ++ '#' :: Pipeline.RedisWire.decimal ref.2.toNat

theorem parseTxoRef_text (ref : TxoRef) : parseTxoRef (TxoRef.text ref) = .ok (ref.1, ref.2.toNat) := by
  have hparts : (TxoRef.text ref).splitOn '#' =
      [Bytes.hex ref.1.toList, Pipeline.RedisWire.decimal ref.2.toNat] := by
    have htext : TxoRef.text ref =
        ['#'].intercalate [Bytes.hex ref.1.toList, Pipeline.RedisWire.decimal ref.2.toNat] := by
      simp [TxoRef.text, List.intercalate]
    rw [htext, List.splitOn_intercalate '#' _ (by simp)]
    intro part hpart
    simp only [List.mem_cons, List.not_mem_nil, or_false] at hpart
    rcases hpart with rfl | rfl
    · exact Pipeline.RedisWire.not_mem_hex (by decide) _
    · exact Pipeline.RedisWire.not_mem_decimal (by decide) _
  rw [parseTxoRef, hparts]
  simp [Pipeline.RedisWire.parseU64_decimal]

theorem decodePosition_encode {b64Decode : Bytes → Option Bytes} {b64Encode : Bytes → Bytes}
    (hb64 : ∀ bytes, b64Decode (b64Encode bytes) = some bytes) {item : ℕ} (hitem : item < 2 ^ 64) :
    decodePosition b64Decode (encodePosition b64Encode item) = .ok item := by
  rw [decodePosition, encodePosition, hb64]
  simp only [length_u64Bytes, if_true, u64OfBytes_u64Bytes, BitVec.toNat_ofNat]
  rw [Nat.mod_eq_of_lt hitem]

/-! ## Pages -/

section

variable {τ : Type} (env : TxEnv τ) (store : Store) (encoder : KeyEncoder)

def findTxo (ref : Hash × ℕ) : Option (FoundTxo τ) := do
  let tx ← txOf env store encoder ref.1
  let txo ← tx.txoAt ref.2
  let address ← env.addressText txo
  return ⟨ref.1, ref.2, txo, address⟩

structure IsTxStore : Prop where
  exists_tx : ∀ {txHash v}, store.get (encoder.encodeTxByHashKey txHash) = some v →
    ∃ tx, env.decodeTx v = some tx
  exists_address : ∀ {txHash tx index txo}, txOf env store encoder txHash = some tx →
    tx.txoAt index = some txo → ∃ address, env.addressText txo = some address
  exists_lastUpdated : ∃ lastUpdated, getLastUpdated env.toEnv store encoder = .ok lastUpdated

def HasIndex (ref : Hash × ℕ) : Prop :=
  ∀ tx, txOf env store encoder ref.1 = some tx → ∃ txo, tx.txoAt ref.2 = some txo

variable {env store encoder}

theorem exists_fetchTxs (hstore : IsTxStore env store encoder) (refs : List (Hash × ℕ)) :
    ∃ txs, fetchTxs env store encoder refs = .ok txs := by
  refine Except.exists_mapM_eq_ok fun ref _ => ?_
  cases hget : store.get (encoder.encodeTxByHashKey ref.1) with
  | none => exact ⟨none, rfl⟩
  | some v =>
    obtain ⟨tx, htx⟩ := hstore.exists_tx hget
    exact ⟨some tx, by simp [htx]⟩

def LeavesOff (env : TxEnv τ) (start length seen : ℕ) (next : Option Bytes) : Prop :=
  next = none ∧ seen = length ∨
    0 < seen ∧ next = some (encodePosition env.b64Encode (start + seen))

theorem LeavesOff.succ {start length seen : ℕ} {next : Option Bytes}
    (h : LeavesOff env (start + 1) length seen next) :
    LeavesOff env start (length + 1) (seen + 1) next := by
  rcases h with ⟨rfl, rfl⟩ | ⟨-, rfl⟩
  · exact Or.inl ⟨rfl, rfl⟩
  · refine Or.inr ⟨Nat.succ_pos _, ?_⟩
    rw [Nat.add_right_comm, Nat.add_assoc]

theorem collectTxos_spec (hstore : IsTxStore env store encoder) (count pageStartIdx : ℕ)
    {refs : List (Hash × ℕ)} (hindex : ∀ ref ∈ refs, HasIndex env store encoder ref) (idx : ℕ)
    (txouts : List (FoundTxo τ)) :
    ∃ seen ≤ refs.length, ∃ next,
      collectTxos env store encoder true count (pageStartIdx + idx + refs.length) pageStartIdx idx
          refs txouts =
        .ok (txouts ++ (refs.take seen).filterMap (findTxo env store encoder), next) ∧
      LeavesOff env (pageStartIdx + idx) refs.length seen next := by
  induction refs generalizing idx txouts with
  | nil => exact ⟨0, le_rfl, none, by simp [collectTxos], Or.inl ⟨rfl, rfl⟩⟩
  | cons ref rest ih =>
    obtain ⟨txHash, index⟩ := ref
    obtain ⟨hhead, hrest⟩ := List.forall_mem_cons.mp hindex
    have hasked : pageStartIdx + idx + ((txHash, index) :: rest).length =
        pageStartIdx + (idx + 1) + rest.length := by
      rw [List.length_cons]
      omega
    rw [hasked]
    cases htx : txOf env store encoder txHash with
    | none =>
      have hfind : findTxo env store encoder (txHash, index) = none := by simp [findTxo, htx]
      obtain ⟨seen, hseen, next, hloop, hnext⟩ := ih hrest (idx + 1) txouts
      refine ⟨seen + 1, Nat.succ_le_succ hseen, next, ?_, hnext.succ⟩
      rw [collectTxos, htx, List.take_succ_cons, List.filterMap_cons_none hfind]
      exact hloop
    | some tx =>
      obtain ⟨txo, htxo⟩ := hhead tx htx
      obtain ⟨address, haddress⟩ := hstore.exists_address htx htxo
      have hfind : findTxo env store encoder (txHash, index) =
          some ⟨txHash, index, txo, address⟩ := by simp [findTxo, htx, htxo, haddress]
      by_cases hfull : (txouts ++ [(⟨txHash, index, txo, address⟩ : FoundTxo τ)]).length = count
      · -- the page is full, and there is a cursor if there is a reference behind it
        refine ⟨1, Nat.succ_le_succ (Nat.zero_le _), if rest = [] then none else
          some (encodePosition env.b64Encode (pageStartIdx + idx + 1)), ?_, ?_⟩
        · have hlast : pageStartIdx + idx + 1 < pageStartIdx + (idx + 1) + rest.length ↔
              rest ≠ [] := by
            rw [← List.length_pos_iff]
            omega
          simp [collectTxos, htx, htxo, haddress, hfull, hfind, hlast]
        · by_cases hnil : rest = []
          · exact Or.inl ⟨if_pos hnil, by rw [hnil]; rfl⟩
          · exact Or.inr ⟨Nat.one_pos, if_neg hnil⟩
      · obtain ⟨seen, hseen, next, hloop, hnext⟩ := ih hrest (idx + 1)
          (txouts ++ [⟨txHash, index, txo, address⟩])
        refine ⟨seen + 1, Nat.succ_le_succ hseen, next, ?_, hnext.succ⟩
        rw [collectTxos, htx]
        simp only [htxo, haddress, if_neg hfull]
        rw [hloop, List.take_succ_cons, List.filterMap_cons_some hfind, List.append_assoc]
        rfl

def refOf (text : Text) : Hash × ℕ :=
  (parseTxoRef text).toOption.getD (Vector.replicate 32 0, 0)

theorem refOf_text (ref : TxoRef) : refOf (TxoRef.text ref) = (ref.1, ref.2.toNat) := by
  rw [refOf, parseTxoRef_text]
  rfl

theorem isSearched_txosByTxoRefs {api : TxApi} (hstore : IsTxStore env store encoder)
    (hencoder : api.txByHash = some encoder) (hdatums : api.datumByHash.isSome)
    {given : Option ℕ} {count : ℕ} (hcount : pageCount given = .ok count) {params : TxoParams}
    (hmissing : params.allowMissing = some true) {refs : List TxoRef}
    (hindex : ∀ ref ∈ refs, HasIndex env store encoder (ref.1, ref.2.toNat)) {text : Option Bytes}
    {cursor : Option ℕ} (htext : pageCursor (decodePosition env.b64Decode) text = .ok cursor)
    (hcursor : cursor.getD 0 ≤ (dedup (Sorting.byKey id (refs.map TxoRef.text))).length) :
    Paging.IsSearched (fun _ => False) (fun text => findTxo env store encoder (refOf text))
      (encodePosition env.b64Encode) (dedup (Sorting.byKey id (refs.map TxoRef.text)))
      (cursor.getD 0)
      ((txosByTxoRefs env api store (refs.map TxoRef.text) params ⟨given, text⟩).map
        fun response => response.toPaginatedResponse.page) := by
  obtain ⟨items, hitems⟩ : ∃ items, dedup (Sorting.byKey id (refs.map TxoRef.text)) = items :=
    ⟨_, rfl⟩
  have hmem : ∀ item ∈ items, ∃ ref ∈ refs, TxoRef.text ref = item := by
    intro item hitem
    rw [← hitems, mem_dedup, Sorting.mem_byKey, List.mem_map] at hitem
    exact hitem
  obtain ⟨start, hstart⟩ : ∃ start, cursor.getD 0 = start := ⟨_, rfl⟩
  obtain ⟨lastUpdated, hupdated⟩ := hstore.exists_lastUpdated
  obtain ⟨datumEncoder, hdatums⟩ := Option.isSome_iff_exists.mp hdatums
  have hparsed : (items.drop start).mapM parseTxoRef = .ok ((items.drop start).map refOf) := by
    refine Except.mapM_eq_ok_map fun item hitem => ?_
    obtain ⟨ref, -, rfl⟩ := hmem item (List.mem_of_mem_drop hitem)
    rw [parseTxoRef_text, refOf_text]
  have hhas : ∀ ref ∈ (items.drop start).map refOf, HasIndex env store encoder ref := by
    intro ref href
    obtain ⟨item, hitem, rfl⟩ := List.mem_map.mp href
    obtain ⟨asked, hasked, rfl⟩ := hmem item (List.mem_of_mem_drop hitem)
    rw [refOf_text]
    exact hindex asked hasked
  obtain ⟨txs, htxs⟩ := exists_fetchTxs hstore ((items.drop start).map refOf)
  obtain ⟨seen, hseen, next, hloop, hnext⟩ := collectTxos_spec hstore count start hhas 0 []
  rw [hitems, hstart] at hcursor
  rw [hitems, hstart]
  have hasked : start + 0 + ((items.drop start).map refOf).length = items.length := by
    rw [List.length_map, List.length_drop]
    omega
  have hpageStart : pageStart items.length cursor = .ok start := by
    cases cursor with
    | none => exact congrArg Except.ok hstart
    | some a =>
      obtain rfl : a = start := hstart
      exact if_neg (by omega)
  rw [hasked] at hloop
  have hresponse : txosByTxoRefs env api store (refs.map TxoRef.text) params ⟨given, text⟩ = .ok
      ⟨⟨((items.drop start).map refOf |>.take seen).filterMap (findTxo env store encoder),
        lastUpdated, next⟩, if params.resolveDatums.getD false then some (fetchDatums store
          datumEncoder ((((items.drop start).map refOf |>.take seen).filterMap
            (findTxo env store encoder)).filterMap fun txout => env.datumHash txout.txo))
          else none⟩ := by
    rw [List.nil_append] at hloop
    simp only [txosByTxoRefs, hencoder, orInternal, asRequest, Except.ok_bind,
      parseCursorPageParams_eq hcount htext, hitems, hpageStart, hparsed, hupdated, htxs, hmissing,
      Option.getD_some, hloop, hdatums]
    rfl
  rw [hresponse]
  refine ⟨seen, by rwa [List.length_map] at hseen, ?_, ?_⟩
  · rw [← List.map_take, List.filterMap_map]
    rfl
  · rw [List.length_map] at hnext
    exact hnext

def FoundTxo.text (found : FoundTxo τ) : Text :=
  TxoRef.text (found.txHash, BitVec.ofNat 64 found.index)

theorem text_of_findTxo {ref : TxoRef} {found : FoundTxo τ}
    (h : findTxo env store encoder (ref.1, ref.2.toNat) = some found) :
    found.text = TxoRef.text ref := by
  simp only [findTxo, Option.bind_eq_bind, Option.bind_eq_some_iff] at h
  obtain ⟨tx, -, txo, -, address, -, heq⟩ := h
  cases heq
  simp [FoundTxo.text]

end

def plainTxEnv : TxEnv Bytes where
  toEnv := plainEnv
  decodeTx v := some ⟨[v], none⟩
  addressText _ := some []

def plainTxApi : TxApi := ⟨some ⟨1, 2⟩, some ⟨1, 3⟩⟩

def plainTxStore : Store :=
  (SortedMap.put ∅ (KeyEncoder.encodeCursorKey ⟨1, 2⟩) (encodeCursorValue .origin 0)).put
    (KeyEncoder.encodeTxByHashKey ⟨1, 2⟩ (Vector.replicate 32 170)) [1]

theorem isTxStore_plainTxStore : IsTxStore plainTxEnv plainTxStore ⟨1, 2⟩ where
  exists_tx _ := ⟨_, rfl⟩
  exists_address _ _ := ⟨_, rfl⟩
  exists_lastUpdated := by
    have hget : plainTxStore.get (KeyEncoder.encodeCursorKey ⟨1, 2⟩) =
        some (encodeCursorValue .origin 0) := by decide +kernel
    refine ⟨⟨"1970-01-01 00:00:00", (shownBlock .origin).2, (shownBlock .origin).1⟩, ?_⟩
    rw [getLastUpdated, hget]
    rfl

theorem hasIndex_zero (txHash : Hash) : HasIndex plainTxEnv plainTxStore ⟨1, 2⟩ (txHash, 0) := by
  intro tx htx
  obtain ⟨v, -, heq⟩ := Option.bind_eq_some_iff.mp htx
  cases heq
  exact ⟨v, rfl⟩

end CardanoIndexer.Mapi
