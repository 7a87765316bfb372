import CardanoIndexer.Mapi.SlotListings

/-!
# Transactions of several payment credentials

Every credential's list is scanned for one entry more than a page shows; the page is cut from the
sorted union.
-/

namespace CardanoIndexer.Mapi

open Timbre

variable {τ : Type} {txs : ShelleyPaymentPart → List TxsByAddressCursor}
  {creds : List ShelleyPaymentPart} {tx : TxsByAddressCursor} {attempts : ℕ → Attempts}
  {payload : List Bytes}

/-! ## The handler -/

structure PaymentCredentialsTransaction where
  slot : U64
  txHash : List Char
  deriving DecidableEq

def readCredTx (kv : Entry) : Except Failure TxsByAddressCursor := do
  let key ← orPanic (decodeTxsByPaymentCredKey kv.1)
  return ⟨key.slot, key.blockIndex, key.txHash⟩

def scanCred (store : Store) (encoder : KeyEncoder)
    (params : ParsedSlotPageParams TxsByAddressCursor) (cred : ShelleyPaymentPart)
    (attempts : Attempts) : Except Failure (List TxsByAddressCursor) := do
  let kvs ← scanExtended store
    (encoder.encodeTxsByPaymentCredRange cred params.lower params.upper) params.order none
    (some (params.count + 1)) none attempts
  kvs.mapM readCredTx

def scanCreds (store : Store) (encoder : KeyEncoder)
    (params : ParsedSlotPageParams TxsByAddressCursor) (attempts : ℕ → Attempts) :
    List ShelleyPaymentPart → ℕ → Except Failure (List TxsByAddressCursor)
  | [], _ => .ok []
  | cred :: rest, n => do
    let txs ← scanCred store encoder params cred (attempts n)
    let later ← scanCreds store encoder params attempts rest (n + 1)
    return txs ++ later

def position (tx : TxsByAddressCursor) : ℕ ×ₗ ℕ :=
  toLex (tx.slot.toNat, tx.blockIndex.toNat)

def arranged (order : OrderParam) (combined : List TxsByAddressCursor) :
    List TxsByAddressCursor :=
  let sorted := dedup (Sorting.byKey position combined)
  match order with
  | .asc => sorted
  | .desc => sorted.reverse

def shownCredTx (tx : TxsByAddressCursor) : PaymentCredentialsTransaction :=
  ⟨tx.slot, Bytes.hex tx.txHash.toList⟩

def txsByPaymentCreds (env : Env τ) (config : ApiConfig) (store : Store) (payload : List Bytes)
    (params : SlotPagination) (attempts : ℕ → Attempts) :
    Except Failure (PaginatedResponse PaymentCredentialsTransaction) := do
  let encoder ← orInternal config.txsByPayCred
  let creds ← requestedCreds env payload
  let parsed ← parseSlotPageParams TxsByAddressCursor.slot
    (decodeTxsByPaymentCredCursor env.b64Decode) params
  let lastUpdated ← getLastUpdated env store encoder
  let combined ← scanCreds store encoder parsed attempts creds 0
  let txs := arranged parsed.order combined
  let nextCursor := if parsed.count < txs.length then
    txs[parsed.count - 1]?.map (encodeTxsByPaymentCredCursor env.b64Encode) else none
  return ⟨(txs.take parsed.count).map shownCredTx, lastUpdated, nextCursor⟩

/-! ## One credential -/

def IsCredTx (store : Store) (encoder : KeyEncoder) (cred : ShelleyPaymentPart)
    (tx : TxsByAddressCursor) : Prop :=
  (store.get (encoder.encodeTxsByPaymentCredKey cred tx)).isSome

def credListing (env : Env τ) (encoder : KeyEncoder) (cred : ShelleyPaymentPart) :
    SlotListing TxsByAddressCursor Unit where
  slotOf := TxsByAddressCursor.slot
  decodeCursor := decodeTxsByPaymentCredCursor env.b64Decode
  encodeCursor := encodeTxsByPaymentCredCursor env.b64Encode
  range := encoder.encodeTxsByPaymentCredRange cred
  filter := none
  timeout := none
  read kv := (readCredTx kv).map fun tx => (tx, ())

section OneCredential

variable {env : Env τ} {blake2b : Bytes → Hash} {store : Store} {encoder : KeyEncoder}
  {cred : ShelleyPaymentPart} {params : SlotPagination} {count : ℕ}

theorem readCredTx_encode (v : Bytes) (tx : TxsByAddressCursor) :
    readCredTx (encoder.encodeTxsByPaymentCredKey cred tx, v) = .ok tx := by
  rw [readCredTx, decodeTxsByPaymentCredKey_encode]
  rfl

theorem law_credListing (hb64 : ∀ bytes, env.b64Decode (env.b64Encode bytes) = some bytes)
    (hstore : IsStore env blake2b store) (encoder : KeyEncoder) (cred : ShelleyPaymentPart) :
    (credListing env encoder cred).Law store (encoder.encodeTxsByPaymentCredKey cred)
      fun _ _ _ => True := by
  refine SlotListing.Law.of_keys
    (fun lower upper => (TxOwner.paymentCred cred).range_eq encoder blake2b lower upper)
    (fun tx => rfl) (fun tx => (TxOwner.paymentCred cred).encode_key encoder blake2b tx)
    (fun hget => let ⟨_, _, heq⟩ := hstore.exists_key hget
      TxOwner.exists_item_of_encode_eq heq.symm)
    (decodeTxsByPaymentCredCursor_encode hb64) fun {tx v} _ _ => ⟨(), ?_, by simp⟩
  simp [credListing, readCredTx_encode, Except.map]

theorem key_lt_key_iff (encoder : KeyEncoder) (cred : ShelleyPaymentPart)
    (a b : TxsByAddressCursor) :
    encoder.encodeTxsByPaymentCredKey cred a < encoder.encodeTxsByPaymentCredKey cred b ↔
      a.rank < b.rank := by
  have hkey : ∀ tx, encoder.encodeTxsByPaymentCredKey cred tx =
      (TxOwner.paymentCred cred).front encoder (fun _ => Vector.replicate 32 0) ++
        (breakByte :: txItemBytes tx) := (TxOwner.paymentCred cred).encode_key encoder _
  rw [hkey, hkey, Bytes.append_lt_append_left_iff, Bytes.cons_lt_cons_iff, txItemBytes_lt_iff]
  simp

theorem exists_credTxs (hb64 : ∀ bytes, env.b64Decode (env.b64Encode bytes) = some bytes)
    (hstore : IsStore env blake2b store)
    (hto : ∀ u, params.toSlot = some u → u.toNat < 2 ^ 64 - 1) (order : OrderParam)
    (encoder : KeyEncoder) (cred : ShelleyPaymentPart) :
    ∃ txs : List TxsByAddressCursor,
      (txs.Pairwise fun a b => order.before a.rank b.rank) ∧
      (∀ tx, tx ∈ txs ↔ params.Allows tx.slot ∧ IsCredTx store encoder cred tx) ∧
      ∀ cursor : Option TxsByAddressCursor, (∀ c, cursor = some c → params.Allows c.slot) →
        ∀ count (attempts : Attempts), attempts.responses.OneFits → attempts.Gives none
          ((Paging.remaining order.before TxsByAddressCursor.rank
            (cursor.map TxsByAddressCursor.rank) txs).take (count + 1))
          (scanCred store encoder ⟨count, order, (cursorBounds order params cursor).1,
            (cursorBounds order params cursor).2⟩ cred attempts) := by
  obtain ⟨items, hsorted, hmem, hkept⟩ :=
    SlotListing.exists_items (law_credListing hb64 hstore encoder cred) hto order
  refine ⟨items.map SlotListing.Listed.place, ?_, fun tx => ?_, ?_⟩
  · rw [List.pairwise_map]
    exact hsorted.imp (OrderParam.before_iff (key_lt_key_iff ..) (key_lt_key_iff ..)).mp
  · rw [List.mem_map, IsCredTx, Option.isSome_iff_exists]
    constructor
    · rintro ⟨item, hitem, rfl⟩
      have hlists := (hmem item).mp hitem
      exact ⟨hlists.allowed, item.value, hlists.stored⟩
    · rintro ⟨hallows, v, hget⟩
      exact ⟨⟨tx, v, ()⟩, (hmem _).mpr ⟨hget, hallows, by simp [SlotListing.Passes, credListing],
        trivial⟩, rfl⟩
  · intro cursor hcursor count attempts hone
    have hscan : attempts.Gives none
        (((SlotListing.itemsBehind order (encoder.encodeTxsByPaymentCredKey cred) items
          cursor).take (count + 1)).map
            (SlotListing.entryAt (encoder.encodeTxsByPaymentCredKey cred)))
        (scanExtended store (encoder.encodeTxsByPaymentCredRange cred
          (cursorBounds order params cursor).1 (cursorBounds order params cursor).2) order none
          (some (count + 1)) none attempts) := by
      rw [List.map_take, ← hkept cursor hcursor]
      exact scanExtended_spec hone
    rw [← SlotListing.map_place_itemsBehind (key_lt_key_iff encoder cred), ← List.map_take, scanCred]
    cases hresult : scanExtended store (encoder.encodeTxsByPaymentCredRange cred
        (cursorBounds order params cursor).1 (cursorBounds order params cursor).2) order none
        (some (count + 1)) none attempts with
    | error error =>
      rw [hresult] at hscan
      exact hscan
    | ok kvs =>
      rw [hresult] at hscan
      subst hscan
      rw [Except.ok_bind, List.mapM_map, Except.mapM_eq_ok_map fun item _ =>
        readCredTx_encode item.value item.place]
      rfl

end OneCredential

/-! ## All credentials -/

theorem rank_lt_of_position {a b : TxsByAddressCursor} (h : position a < position b) :
    a.rank < b.rank := by
  rw [position, position, Prod.Lex.toLex_lt_toLex] at h
  rw [TxsByAddressCursor.rank, TxsByAddressCursor.rank, Prod.Lex.toLex_lt_toLex,
    Prod.Lex.toLex_lt_toLex]
  rcases h with h | ⟨heq, h⟩
  · exact Or.inl h
  · exact Or.inr ⟨heq, Or.inl h⟩

section Arranged

variable {order : OrderParam} {combined : List TxsByAddressCursor}

theorem mem_arranged : tx ∈ arranged order combined ↔ tx ∈ combined := by
  cases order with
  | asc => rw [arranged, mem_dedup, Sorting.mem_byKey]
  | desc => rw [arranged, List.mem_reverse, mem_dedup, Sorting.mem_byKey]

theorem pairwise_arranged
    (hinj : ∀ a ∈ combined, ∀ b ∈ combined, position a = position b → a = b) :
    (arranged order combined).Pairwise fun a b => order.before a.rank b.rank := by
  have hsorted : (dedup (Sorting.byKey position combined)).Pairwise fun a b =>
      position a < position b :=
    pairwise_dedup (Sorting.pairwise_byKey position combined) fun a ha b hb =>
      hinj a ((Sorting.mem_byKey position).mp ha) b ((Sorting.mem_byKey position).mp hb)
  cases order with
  | asc => exact hsorted.imp rank_lt_of_position
  | desc => exact List.pairwise_reverse.mpr (hsorted.imp rank_lt_of_position)

end Arranged

def GivesInTurn {α : Type} (attempts : ℕ → Attempts) (value : α) : Except Failure α → Prop
  | .ok found => found = value
  | .error error => ∃ n, (attempts n).FailsWith none error

variable {encoder : KeyEncoder} {env : Env τ}

theorem givesInTurn_scanCreds {store : Store} {params : ParsedSlotPageParams TxsByAddressCursor}
    (hscan : ∀ cred n, (attempts n).Gives none (txs cred)
      (scanCred store encoder params cred (attempts n))) (creds : List ShelleyPaymentPart) (n : ℕ) :
    GivesInTurn attempts (creds.flatMap txs)
      (scanCreds store encoder params attempts creds n) := by
  induction creds generalizing n with
  | nil => rfl
  | cons cred rest ih =>
    have hcred := hscan cred n
    have hrest := ih (n + 1)
    rw [scanCreds]
    match hfound : scanCred store encoder params cred (attempts n) with
    | .error error =>
      rw [hfound] at hcred
      exact ⟨n, hcred⟩
    | .ok found =>
      rw [hfound] at hcred
      subst hcred
      match hlater : scanCreds store encoder params attempts rest (n + 1) with
      | .error error =>
        rw [hlater] at hrest
        exact hrest
      | .ok later =>
        rw [hlater] at hrest
        subst hrest
        rfl

variable {order : OrderParam}

theorem take_arranged (hsorted : ∀ cred, (txs cred).Pairwise fun a b => order.before a.rank b.rank)
    (hinj : ∀ a ∈ creds.flatMap txs, ∀ b ∈ creds.flatMap txs, position a = position b → a = b)
    (n : ℕ) :
    (arranged order (creds.flatMap fun cred => (txs cred).take n)).take n =
      (arranged order (creds.flatMap txs)).take n := by
  have hsub : ∀ tx ∈ creds.flatMap fun cred => (txs cred).take n, tx ∈ creds.flatMap txs := by
    intro tx htx
    obtain ⟨cred, hcred, htx⟩ := List.mem_flatMap.mp htx
    exact List.mem_flatMap.mpr ⟨cred, hcred, List.mem_of_mem_take htx⟩
  have hall : (arranged order (creds.flatMap txs)).Pairwise fun a b =>
      order.before a.rank b.rank := pairwise_arranged hinj
  refine Paging.take_eq_take_of_subset hall
    (pairwise_arranged fun a ha b hb => hinj a (hsub a ha) b (hsub b hb)) (fun tx htx => ?_)
    fun tx htx => ?_
  · exact mem_arranged.mpr (hsub tx (mem_arranged.mp htx))
  · obtain ⟨cred, hcred, hmem⟩ :=
      List.mem_flatMap.mp (mem_arranged.mp (List.mem_of_mem_take htx))
    refine mem_arranged.mpr (List.mem_flatMap.mpr ⟨cred, hcred, ?_⟩)
    refine Paging.mem_take_of_subset hall (hsorted cred) (fun x hx => ?_) htx hmem
    exact mem_arranged.mpr (List.mem_flatMap.mpr ⟨cred, hcred, hx⟩)

theorem remaining_arranged {bound : Option (ℕ ×ₗ ℕ ×ₗ Bytes)}
    (hinj : ∀ a ∈ creds.flatMap txs, ∀ b ∈ creds.flatMap txs, position a = position b → a = b) :
    Paging.remaining order.before TxsByAddressCursor.rank bound
        (arranged order (creds.flatMap txs)) =
      arranged order (creds.flatMap fun cred =>
        Paging.remaining order.before TxsByAddressCursor.rank bound (txs cred)) := by
  have hmem : ∀ tx, tx ∈ (creds.flatMap fun cred =>
      Paging.remaining order.before TxsByAddressCursor.rank bound (txs cred)) ↔
        tx ∈ creds.flatMap txs ∧ ∀ b, bound = some b → order.before b tx.rank := by
    intro tx
    simp only [List.mem_flatMap, Paging.mem_remaining]
    constructor
    · rintro ⟨cred, hcred, htx, hbound⟩
      exact ⟨⟨cred, hcred, htx⟩, hbound⟩
    · rintro ⟨⟨cred, hcred, htx⟩, hbound⟩
      exact ⟨cred, hcred, htx, hbound⟩
  refine Paging.eq_of_pairwise (Paging.pairwise_remaining (pairwise_arranged hinj))
    (pairwise_arranged fun a ha b hb => hinj a ((hmem a).mp ha).1 b ((hmem b).mp hb).1)
    fun tx => ?_
  rw [Paging.mem_remaining, mem_arranged, mem_arranged, hmem]

def IsRequestedTx (env : Env τ) (store : Store) (encoder : KeyEncoder) (payload : List Bytes)
    (tx : TxsByAddressCursor) : Prop :=
  ∃ text ∈ payload, ∃ cred, decodePaymentCredential env text = .ok cred ∧
    IsCredTx store encoder cred tx

theorem exists_requestedCreds (hlength : payload.length ≤ 100)
    (hdecode : ∀ text ∈ payload, ∃ cred, decodePaymentCredential env text = .ok cred) :
    ∃ creds, requestedCreds env payload = .ok creds ∧
      ∀ cred, cred ∈ creds ↔ ∃ text ∈ payload, decodePaymentCredential env text = .ok cred := by
  obtain ⟨creds, hcreds, hmem⟩ := exists_owners hdecode
  refine ⟨creds, ?_, hmem⟩
  rw [requestedCreds, if_neg (by omega), hcreds]

theorem isPage_txsByPaymentCreds {config : ApiConfig} {store : Store} {params : SlotPagination}
    {count : ℕ} {lastUpdated : LastUpdated} (hencoder : config.txsByPayCred = some encoder)
    (hcreds : requestedCreds env payload = .ok creds)
    (hupdated : getLastUpdated env store encoder = .ok lastUpdated)
    (hparams : params.Accepted count) (horder : params.order.getD .asc = order)
    {text : Option Bytes} {cursor : Option TxsByAddressCursor}
    (htext : pageCursor (decodeTxsByPaymentCredCursor env.b64Decode) text = .ok cursor)
    (hallows : ∀ c, cursor = some c → params.Allows c.slot)
    (hsorted : ∀ cred, (txs cred).Pairwise fun a b => order.before a.rank b.rank)
    (hinj : ∀ a ∈ creds.flatMap txs, ∀ b ∈ creds.flatMap txs, position a = position b → a = b)
    (hscan : ∀ cred n, (attempts n).Gives none
      ((Paging.remaining order.before TxsByAddressCursor.rank
        (cursor.map TxsByAddressCursor.rank) (txs cred)).take (count + 1))
      (scanCred store encoder ⟨count, order, (cursorBounds order params cursor).1,
        (cursorBounds order params cursor).2⟩ cred (attempts n))) :
    Paging.IsPage (fun error => ∃ i, (attempts i).FailsWith none error) count shownCredTx
      (encodeTxsByPaymentCredCursor env.b64Encode)
      (Paging.remaining order.before TxsByAddressCursor.rank (cursor.map TxsByAddressCursor.rank)
        (arranged order (creds.flatMap txs)))
      ((txsByPaymentCreds env config store payload { params with cursor := text } attempts).map
        PaginatedResponse.page) := by
  have hall := givesInTurn_scanCreds hscan creds 0
  rw [txsByPaymentCreds, hencoder, orInternal, Except.ok_bind, hcreds, Except.ok_bind,
    parseSlotPageParams_eq hparams htext hallows, Except.ok_bind, hupdated, Except.ok_bind, horder,
    remaining_arranged hinj]
  cases hfound : scanCreds store encoder ⟨count, order, (cursorBounds order params cursor).1,
      (cursorBounds order params cursor).2⟩ attempts creds 0 with
  | error error =>
    rw [hfound] at hall
    exact hall
  | ok found =>
    rw [hfound] at hall
    subst hall
    refine Paging.isPage_of_take_eq (pos_of_pageCount hparams.count_eq)
      (take_arranged (fun cred => Paging.pairwise_remaining (hsorted cred)) ?_ (count + 1))
    intro a ha b hb
    obtain ⟨cred, hcred, ha⟩ := List.mem_flatMap.mp ha
    obtain ⟨cred', hcred', hb⟩ := List.mem_flatMap.mp hb
    exact hinj a (List.mem_flatMap.mpr ⟨cred, hcred, (Paging.mem_remaining.mp ha).1⟩)
      b (List.mem_flatMap.mpr ⟨cred', hcred', (Paging.mem_remaining.mp hb).1⟩)

/-- **Merged pages are pages of the union** of the credentials' transactions. -/
theorem merged_pages_list_union {env : Env τ} (config : ApiConfig) {blake2b : Bytes → Hash}
    {store : Store} {encoder : KeyEncoder}
    (hb64 : ∀ bytes, env.b64Decode (env.b64Encode bytes) = some bytes)
    (hstore : IsStore env blake2b store) (hencoder : config.txsByPayCred = some encoder)
    (hcursor : (store.get encoder.encodeCursorKey).isSome)
    (hchain : ∀ cred cred' tx tx', IsCredTx store encoder cred tx →
      IsCredTx store encoder cred' tx' → position tx = position tx' → tx = tx')
    {payload : List Bytes} (hlength : payload.length ≤ 100)
    (hdecode : ∀ text ∈ payload, ∃ cred, decodePaymentCredential env text = .ok cred)
    {params : SlotPagination} {count : ℕ} (hparams : params.Accepted count)
    (hto : ∀ u, params.toSlot = some u → u.toNat < 2 ^ 64 - 1)
    (attempts : ℕ → ℕ → Attempts) (hone : ∀ n i, (attempts n i).responses.OneFits) :
    ∃ txs : List TxsByAddressCursor,
      (txs.Pairwise fun a b => (params.order.getD .asc).before a.rank b.rank) ∧
      (∀ tx, tx ∈ txs ↔ params.Allows tx.slot ∧ IsRequestedTx env store encoder payload tx) ∧
      (∀ n text cursor,
        pageCursor (decodeTxsByPaymentCredCursor env.b64Decode) text = .ok cursor →
        (∀ c, cursor = some c → params.Allows c.slot) →
        Paging.IsPage (fun error => ∃ n i, (attempts n i).FailsWith none error) count shownCredTx
          (encodeTxsByPaymentCredCursor env.b64Encode)
          (Paging.remaining (params.order.getD .asc).before TxsByAddressCursor.rank
            (cursor.map TxsByAddressCursor.rank) txs)
          ((txsByPaymentCreds env config store payload { params with cursor := text }
            (attempts n)).map PaginatedResponse.page)) ∧
      ∀ fuel, txs.length < fuel →
        Paging.Yields (fun error => ∃ n i, (attempts n i).FailsWith none error)
          (txs.map shownCredTx)
          (Paging.follow (fun n text => (txsByPaymentCreds env config store payload
            { params with cursor := text } (attempts n)).map PaginatedResponse.page) fuel 0
              none) := by
  obtain ⟨lastUpdated, hupdated⟩ := exists_getLastUpdated hstore hcursor
  obtain ⟨creds, hcreds, hrequested⟩ := exists_requestedCreds hlength hdecode
  obtain ⟨order, horder⟩ : ∃ order, params.order.getD .asc = order := ⟨_, rfl⟩
  choose txs hsorted hmem hscan using fun cred =>
    exists_credTxs hb64 hstore hto order encoder cred
  have hinj : ∀ a ∈ creds.flatMap txs, ∀ b ∈ creds.flatMap txs, position a = position b → a = b := by
    intro a ha b hb
    obtain ⟨cred, -, ha⟩ := List.mem_flatMap.mp ha
    obtain ⟨cred', -, hb⟩ := List.mem_flatMap.mp hb
    exact hchain cred cred' a b ((hmem cred a).mp ha).2 ((hmem cred' b).mp hb).2
  have hpage : ∀ n text cursor,
      pageCursor (decodeTxsByPaymentCredCursor env.b64Decode) text = .ok cursor →
      (∀ c, cursor = some c → params.Allows c.slot) →
      Paging.IsPage (fun error => ∃ n i, (attempts n i).FailsWith none error) count shownCredTx
        (encodeTxsByPaymentCredCursor env.b64Encode)
        (Paging.remaining order.before TxsByAddressCursor.rank
          (cursor.map TxsByAddressCursor.rank) (arranged order (creds.flatMap txs)))
        ((txsByPaymentCreds env config store payload { params with cursor := text }
          (attempts n)).map PaginatedResponse.page) := by
    intro n text cursor htext hallows
    exact (isPage_txsByPaymentCreds hencoder hcreds hupdated hparams horder htext hallows hsorted
      hinj fun cred i => hscan cred cursor hallows count _ (hone n i)).mono fun error h => ⟨n, h⟩
  rw [horder]
  refine ⟨arranged order (creds.flatMap txs), pairwise_arranged hinj, fun tx => ?_, hpage,
    fun fuel hfuel => ?_⟩
  · rw [mem_arranged, List.mem_flatMap]
    simp only [hmem, hrequested]
    constructor
    · rintro ⟨cred, ⟨text, htext, hcred⟩, hallows, htx⟩
      exact ⟨hallows, text, htext, cred, hcred, htx⟩
    · rintro ⟨hallows, text, htext, cred, hcred, htx⟩
      exact ⟨cred, ⟨text, htext, hcred⟩, hallows, htx⟩
  · refine Paging.yields_follow (pairwise_arranged hinj) (pos_of_pageCount hparams.count_eq)
      (fun n => hpage n none none rfl (by simp)) (fun n tx htx => ?_) hfuel 0
    refine hpage n _ (some tx) ?_ ?_
    · rw [pageCursor, decodeTxsByPaymentCredCursor_encode hb64]
    · intro c hc
      cases hc
      obtain ⟨cred, -, htx⟩ := List.mem_flatMap.mp (mem_arranged.mp htx)
      exact ((hmem cred tx).mp htx).1

/-! ### A transaction of two credentials -/

def sharedTx : TxsByAddressCursor := ⟨5, 0, Vector.replicate 32 0⟩

def sharedKey (byte : Byte) : Bytes :=
  KeyEncoder.encodeTxsByPaymentCredKey ⟨1, 2⟩ (.key (Vector.replicate 28 byte)) sharedTx

def sharedStore : Store :=
  ((SortedMap.put ∅ (KeyEncoder.encodeCursorKey ⟨1, 2⟩) (encodeCursorValue .origin 0)).put
    (sharedKey 7) []).put (sharedKey 9) []

theorem holdsRows_sharedStore : HoldsRows plainHash ⟨1, 2⟩
    [(.txsByPaymentCred (.key (Vector.replicate 28 7)) sharedTx, []),
      (.txsByPaymentCred (.key (Vector.replicate 28 9)) sharedTx, [])] sharedStore := by
  unfold HoldsRows
  decide +kernel

theorem eq_sharedTx {cred : ShelleyPaymentPart} (h : IsCredTx sharedStore ⟨1, 2⟩ cred tx) :
    tx = sharedTx := by
  obtain ⟨v, hget⟩ := Option.isSome_iff_exists.mp h
  obtain ⟨row, hrow, hkey, -, -⟩ :=
    holdsRows_sharedStore.exists_row (.txsByPaymentCred cred tx) hget
  simp only [List.mem_cons, List.not_mem_nil, or_false] at hrow
  rcases hrow with rfl | rfl
  all_goals
    exact txItemBytes_injective
      (owner_item_of_eq isPrefixCode_paymentCred (List.append_cancel_left hkey)).2

theorem merged_pages_list_sharedStore :
    ∃ txs : List TxsByAddressCursor, sharedTx ∈ txs ∧ ∀ fuel, txs.length < fuel →
      Paging.Yields (fun error => ∃ _ _ : ℕ, promptAttempts.FailsWith none error)
        (txs.map shownCredTx)
        (Paging.follow (fun _ text => (txsByPaymentCreds plainEnv plainConfig sharedStore
          [List.replicate 28 7, List.replicate 28 9] ⟨some 1, some .desc, text, none, some 5⟩
            fun _ => promptAttempts).map PaginatedResponse.page) fuel 0 none) := by
  have hparams : (⟨some 1, some .desc, none, none, some 5⟩ : SlotPagination).Accepted 1 :=
    ⟨rfl, by simp⟩
  have hdecode : ∀ text ∈ [List.replicate 28 7, List.replicate 28 9],
      ∃ cred, decodePaymentCredential plainEnv text = .ok cred := by
    intro text htext
    simp only [List.mem_cons, List.not_mem_nil, or_false] at htext
    rcases htext with rfl | rfl
    · exact ⟨_, rfl⟩
    · exact ⟨_, rfl⟩
  obtain ⟨txs, -, hmem, -, hyields⟩ := merged_pages_list_union plainConfig
    (fun _ => rfl) (holdsRows_sharedStore.isStore ⟨_, rfl⟩) rfl (by decide +kernel)
    (fun cred cred' tx tx' htx htx' _ => (eq_sharedTx htx).trans (eq_sharedTx htx').symm)
    (by decide) hdecode hparams (by intro u hu; cases hu; decide) (fun _ _ => promptAttempts)
    (fun _ _ _ _ h => by cases h)
  refine ⟨txs, (hmem sharedTx).mpr ⟨⟨by simp, by intro u hu; cases hu; decide⟩, List.replicate 28 7,
    by simp, .key (Vector.replicate 28 7), rfl, ?_⟩, hyields⟩
  unfold IsCredTx
  decide +kernel

end CardanoIndexer.Mapi
