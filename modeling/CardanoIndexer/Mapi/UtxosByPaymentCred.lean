import CardanoIndexer.Mapi.SlotListings

/-!
# UTxOs of a payment credential

All UTxOs of the credential are read, sorted by slot, and paged in memory.
-/

namespace CardanoIndexer.Mapi

open Timbre

variable {τ : Type} {cursor : Option UtxosByPaymentCredCursor}
  {bound : RangeBound UtxosByPaymentCredCursor} {x a b : Txout τ}

/-! ## The handler -/

def compareTxouts (a b : Txout τ) : Ordering :=
  if a.slot = b.slot then
    if a.txHash = b.txHash then cmp a.index.toNat b.index.toNat
    else cmp a.txHash.toList b.txHash.toList
  else cmp a.slot.toNat b.slot.toNat

def sortTxouts (txouts : List (Txout τ)) : List (Txout τ) :=
  txouts.insertionSort fun a b => compareTxouts a b ≠ .gt

def keepsLower (bound : RangeBound UtxosByPaymentCredCursor) (x : Txout τ) : Bool :=
  match bound with
  | .slot s => s.toNat ≤ x.slot.toNat
  | .cursor c => match cmp x.slot.toNat c.slot.toNat with
      | .lt => false
      | .eq =>
        if x.txHash.toList < c.uHash.toList then false
        else if x.txHash = c.uHash then c.uIndex.toNat < x.index.toNat
        else true
      | .gt => true

def keepsUpper (bound : RangeBound UtxosByPaymentCredCursor) (x : Txout τ) : Bool :=
  match bound with
  | .slot s => x.slot.toNat ≤ s.toNat
  | .cursor c => match cmp x.slot.toNat c.slot.toNat with
      | .gt => false
      | .eq =>
        if c.uHash.toList < x.txHash.toList then false
        else if x.txHash = c.uHash then x.index.toNat < c.uIndex.toNat
        else true
      | .lt => true

def retained (keeps : RangeBound UtxosByPaymentCredCursor → Txout τ → Bool)
    (bound : Option (RangeBound UtxosByPaymentCredCursor)) (txouts : List (Txout τ)) :
    List (Txout τ) :=
  match bound with
  | none => txouts
  | some bound => txouts.filter (keeps bound)

def orderedTxouts (params : ParsedSlotPageParams UtxosByPaymentCredCursor)
    (txouts : List (Txout τ)) : List (Txout τ) :=
  let between := retained keepsUpper params.upper (retained keepsLower params.lower
    (sortTxouts txouts))
  match params.order with
  | .asc => between
  | .desc => between.reverse

def cursorAt (txout : Txout τ) : UtxosByPaymentCredCursor :=
  ⟨txout.addr, txout.slot, txout.txHash, txout.index⟩

structure CredUtxoResponse (τ : Type) extends PaginatedResponse (Txout τ) where
  resolvedDatums : Option (List (Hash × Bytes))

def utxosByPaymentCred (env : AddressEnv τ) (config : ApiConfig) (store : Store)
    (credential : Bytes) (params : UtxoParams) (pageParams : SlotPagination)
    (attempts : Attempts) : Except Failure (CredUtxoResponse τ) := do
  let encoder ← orInternal config.utxoCborByAddress
  let paymentCred ← decodePaymentCredential env.toEnv credential
  let filterAsset ← decodeFilterAsset params.asset
  let parsed ← parseSlotPageParams UtxosByPaymentCredCursor.slot
    (decodeUtxosByPaymentCredCursor env.b64Decode) pageParams
  let lastUpdated ← getLastUpdated env.toEnv store encoder
  let kvs ← scanExtended store
    (encoder.encodeUtxosByPaymentCredRange config.networkId paymentCred none none) parsed.order
    (filterAsset.map fun asset => addressUtxoContainsAsset env asset.1 asset.2) none
    (filterAsset.map fun _ => config.timeoutDuration) attempts
  let txouts ← kvs.mapM (readKv env.toEnv)
  let results := orderedTxouts parsed txouts
  let nextCursor := if parsed.count < results.length then
    results[parsed.count - 1]?.map fun txout =>
      encodeUtxosByPaymentCredCursor env.b64Encode (cursorAt txout)
    else none
  -- the datums of all results are read, whether or not they are asked for
  let datumEncoder ← orInternal config.datumByHash
  let datums := fetchDatums store datumEncoder
    (txouts.filterMap fun txout => env.datumHash txout.txo)
  return ⟨⟨results.take parsed.count, lastUpdated, nextCursor⟩,
    if params.resolveDatums.getD false then some datums else none⟩

/-! ## The comparisons -/

def Txout.rank (txout : Txout τ) : ℕ ×ₗ Bytes ×ₗ ℕ := (cursorAt txout).item.rank

theorem rank_lt_iff {a b : UtxosByAddressCursor} :
    a.rank < b.rank ↔ a.slot.toNat < b.slot.toNat ∨ a.slot = b.slot ∧
      (a.uHash.toList < b.uHash.toList ∨ a.uHash = b.uHash ∧ a.uIndex.toNat < b.uIndex.toNat) := by
  simp only [UtxosByAddressCursor.rank, Prod.Lex.toLex_lt_toLex, BitVec.toNat_inj,
    toList_injective.eq_iff]

theorem cmp_bytes_eq_gt_iff {a b : Bytes} : cmp a b = .gt ↔ b < a := by
  unfold cmp cmpUsing
  split_ifs with hlt hgt
  · simpa using hlt.le
  · simpa using hgt
  · simpa using hgt

theorem compareTxouts_iff : compareTxouts a b = .gt ↔ b.rank < a.rank := by
  rw [Txout.rank, Txout.rank, rank_lt_iff, compareTxouts]
  dsimp only [cursorAt, UtxosByPaymentCredCursor.item]
  by_cases hslot : a.slot = b.slot
  · rw [if_pos hslot]
    by_cases hhash : a.txHash = b.txHash
    · rw [if_pos hhash, cmp_eq_gt_iff, hslot, hhash]
      simp
    · rw [if_neg hhash, cmp_bytes_eq_gt_iff, hslot]
      simp [Ne.symm hhash]
  · rw [if_neg hslot, cmp_eq_gt_iff]
    simp [Ne.symm hslot]

theorem sortTxouts_eq (txouts : List (Txout τ)) :
    sortTxouts txouts = Sorting.byKey Txout.rank txouts := by
  have hle : (fun a b : Txout τ => compareTxouts a b ≠ .gt) = fun a b => a.rank ≤ b.rank := by
    funext a b
    rw [ne_eq, compareTxouts_iff, not_lt]
  rw [sortTxouts, Sorting.byKey]
  simp only [hle]

theorem keepsHash_iff {a b : Hash} {p : Prop} [Decidable p] :
    (if a.toList < b.toList then false else if a = b then decide p else true) = true ↔
      b.toList < a.toList ∨ a = b ∧ p := by
  rcases lt_trichotomy a.toList b.toList with hlt | heq | hgt
  · have hne : a ≠ b := by
      rintro rfl
      exact lt_irrefl _ hlt
    rw [if_pos hlt]
    refine iff_of_false (by simp) ?_
    rintro (h | ⟨h, -⟩)
    · exact lt_asymm h hlt
    · exact hne h
  · obtain rfl := toList_injective heq
    simp
  · have hne : a ≠ b := by
      rintro rfl
      exact lt_irrefl _ hgt
    rw [if_neg (lt_asymm hgt), if_neg hne]
    exact iff_of_true rfl (Or.inl hgt)

theorem keepsLower_iff :
    keepsLower bound x = true ↔
      IsAbove UtxosByPaymentCredCursor.slot (fun c => c.item.rank) (some bound) (cursorAt x) := by
  cases bound with
  | slot s => simp [keepsLower, IsAbove, cursorAt]
  | cursor c =>
    rw [IsAbove, rank_lt_iff]
    dsimp only [keepsLower, cursorAt, UtxosByPaymentCredCursor.item]
    rcases lt_trichotomy x.slot.toNat c.slot.toNat with hlt | heq | hgt
    · have hne : c.slot ≠ x.slot := fun h => by simp [h] at hlt
      rw [(cmp_eq_lt_iff ..).mpr hlt]
      simp [hlt.le, hne]
    · rw [(cmp_eq_eq_iff ..).mpr heq, keepsHash_iff, BitVec.eq_of_toNat_eq heq,
        eq_comm (a := x.txHash)]
      simp
    · rw [(cmp_eq_gt_iff ..).mpr hgt]
      simp [hgt]

theorem keepsUpper_iff :
    keepsUpper bound x = true ↔
      IsBelow UtxosByPaymentCredCursor.slot (fun c => c.item.rank) (some bound) (cursorAt x) := by
  cases bound with
  | slot s => simp [keepsUpper, IsBelow, cursorAt]
  | cursor c =>
    rw [IsBelow, rank_lt_iff]
    dsimp only [keepsUpper, cursorAt, UtxosByPaymentCredCursor.item]
    rcases lt_trichotomy x.slot.toNat c.slot.toNat with hlt | heq | hgt
    · rw [(cmp_eq_lt_iff ..).mpr hlt]
      simp [hlt]
    · rw [(cmp_eq_eq_iff ..).mpr heq, BitVec.eq_of_toNat_eq heq]
      simp only [eq_comm (a := x.txHash)]
      rw [keepsHash_iff]
      simp
    · have hne : x.slot ≠ c.slot := fun h => by simp [h] at hgt
      rw [(cmp_eq_gt_iff ..).mpr hgt]
      simp [hgt.le, hne]

section Ordered

variable (params : ParsedSlotPageParams UtxosByPaymentCredCursor) {txouts : List (Txout τ)}

theorem mem_orderedTxouts :
    x ∈ orderedTxouts params txouts ↔ x ∈ txouts ∧
      IsAbove UtxosByPaymentCredCursor.slot (fun c => c.item.rank) params.lower (cursorAt x) ∧
      IsBelow UtxosByPaymentCredCursor.slot (fun c => c.item.rank) params.upper (cursorAt x) := by
  have hlower : ∀ l : List (Txout τ), x ∈ retained keepsLower params.lower l ↔ x ∈ l ∧
      IsAbove UtxosByPaymentCredCursor.slot (fun c => c.item.rank) params.lower (cursorAt x) := by
    intro l
    cases params.lower with
    | none => simp [retained, IsAbove]
    | some bound => rw [retained, List.mem_filter, keepsLower_iff]
  have hupper : ∀ l : List (Txout τ), x ∈ retained keepsUpper params.upper l ↔ x ∈ l ∧
      IsBelow UtxosByPaymentCredCursor.slot (fun c => c.item.rank) params.upper (cursorAt x) := by
    intro l
    cases params.upper with
    | none => simp [retained, IsBelow]
    | some bound => rw [retained, List.mem_filter, keepsUpper_iff]
  have hbetween : x ∈ retained keepsUpper params.upper (retained keepsLower params.lower
      (sortTxouts txouts)) ↔ x ∈ txouts ∧
      IsAbove UtxosByPaymentCredCursor.slot (fun c => c.item.rank) params.lower (cursorAt x) ∧
      IsBelow UtxosByPaymentCredCursor.slot (fun c => c.item.rank) params.upper (cursorAt x) := by
    rw [hupper, hlower, sortTxouts_eq, Sorting.mem_byKey, and_assoc]
  unfold orderedTxouts
  cases params.order with
  | asc => exact hbetween
  | desc => rw [List.mem_reverse, hbetween]

theorem pairwise_orderedTxouts (hnodup : txouts.Nodup)
    (hinj : ∀ a ∈ txouts, ∀ b ∈ txouts, a.rank = b.rank → a = b) :
    (orderedTxouts params txouts).Pairwise fun a b => params.order.before a.rank b.rank := by
  have hsorted : (sortTxouts txouts).Pairwise fun a b => a.rank < b.rank := by
    rw [sortTxouts_eq]
    exact Sorting.pairwise_lt_byKey hnodup hinj
  have hretained : ∀ keeps bound {l : List (Txout τ)}, (l.Pairwise fun a b => a.rank < b.rank) →
      (retained keeps bound l).Pairwise fun a b => a.rank < b.rank := by
    intro keeps bound l h
    cases bound with
    | none => exact h
    | some bound => exact h.filter _
  have hbetween := hretained keepsUpper params.upper (hretained keepsLower params.lower hsorted)
  unfold orderedTxouts
  cases params.order with
  | asc => exact hbetween
  | desc => exact List.pairwise_reverse.mpr hbetween

end Ordered

/-! ## All results -/

def Txout.key (encoder : KeyEncoder) (txout : Txout τ) : Bytes :=
  encoder.encodeUtxosByShelleyAddressKey txout.addr (cursorAt txout).item

structure IsCredUtxoOf (env : AddressEnv τ) (network : Byte)
    (cred : ShelleyPaymentPart) (filterAsset : Option (Hash28 × Bytes)) (v : Bytes)
    (txout : Txout τ) : Prop where
  network_eq : txout.addr.network = Network.ofTag network
  payment_eq : txout.addr.payment = cred
  decode_eq : env.decodeTxo v = some txout.txo
  passes : ∀ asset, filterAsset = some asset →
    env.containsAsset txout.txo asset.1 asset.2 = true

def IsCredUtxo (env : AddressEnv τ) (store : Store) (encoder : KeyEncoder) (network : Byte)
    (cred : ShelleyPaymentPart) (filterAsset : Option (Hash28 × Bytes)) (txout : Txout τ) : Prop :=
  ∃ v, store.get (txout.key encoder) = some v ∧
    IsCredUtxoOf env network cred filterAsset v txout

def credKvs (env : AddressEnv τ) (store : Store) (encoder : KeyEncoder) (network : Byte)
    (cred : ShelleyPaymentPart) (filterAsset : Option (Hash28 × Bytes)) (order : OrderParam) :
    List Entry :=
  filtered (filterAsset.map fun asset => addressUtxoContainsAsset env asset.1 asset.2)
    (scanned store order (encoder.encodeUtxosByPaymentCredRange network cred none none))

section Results

variable {env : AddressEnv τ} {blake2b : Bytes → Hash} {store : Store} {encoder : KeyEncoder}
  {network : Byte} {cred : ShelleyPaymentPart} {filterAsset : Option (Hash28 × Bytes)}
  {order : OrderParam} {address : ShelleyAddress} {v : Bytes} {txo : τ}

theorem mem_range_iff {item : UtxosByAddressCursor} :
    (encoder.encodeUtxosByPaymentCredRange network cred none none).start ≤
          encoder.encodeUtxosByShelleyAddressKey address item ∧
        encoder.encodeUtxosByShelleyAddressKey address item <
          (encoder.encodeUtxosByPaymentCredRange network cred none none).stop ↔
      address.network.tag = network ∧ address.payment = cred := by
  rw [start_none_le_key_iff, key_lt_stop_iff, ← credBytes_inj]
  constructor
  · rintro ⟨hge, hle⟩
    exact le_antisymm hle hge
  · intro heq
    exact ⟨heq.ge, heq.le⟩

theorem passes_iff {k : Bytes} (htxo : env.decodeTxo v = some txo) {kvs : List Entry} :
    (k, v) ∈ filtered (filterAsset.map fun asset =>
        addressUtxoContainsAsset env asset.1 asset.2) kvs ↔
      (k, v) ∈ kvs ∧
        ∀ asset, filterAsset = some asset → env.containsAsset txo asset.1 asset.2 = true := by
  cases filterAsset with
  | none => simp [filtered]
  | some asset => simp [filtered, addressUtxoContainsAsset, htxo]

theorem readKv_encode {item : UtxosByAddressCursor} (htxo : env.decodeTxo v = some txo) :
    readKv env.toEnv (encoder.encodeUtxosByShelleyAddressKey address item, v) =
      .ok ⟨item.uHash, item.uIndex, item.slot, txo,
        ⟨Network.ofTag address.network.tag, address.payment, address.delegation⟩⟩ := by
  simp [readKv, decodeUtxosByAddressKey_encode, readAddress, htxo, orPanic, orInternal]

theorem exists_of_mem_credKvs (hstore : IsListedStore env.toEnv blake2b store) {kv : Entry}
    (hkv : kv ∈ credKvs env store encoder network cred filterAsset order) :
    ∃ txout, readKv env.toEnv kv = .ok txout ∧ kv.1 = txout.key encoder ∧
      store.get kv.1 = some kv.2 ∧ IsCredUtxoOf env network cred filterAsset kv.2 txout := by
  obtain ⟨k, v⟩ := kv
  have hscanned : (k, v) ∈ scanned store order
      (encoder.encodeUtxosByPaymentCredRange network cred none none) := by
    cases filterAsset with
    | none => exact hkv
    | some asset => exact (List.mem_filter.mp hkv).1
  obtain ⟨hget, hstart, hstop⟩ := mem_scanned.mp hscanned
  obtain ⟨enc, key, rfl⟩ := hstore.exists_key hget
  obtain ⟨address, item, rfl, rfl⟩ := exists_shelley_of_contains ⟨hstart, Or.inr hstop⟩
  obtain ⟨htag, hpayment⟩ := mem_range_iff.mp ⟨hstart, hstop⟩
  obtain ⟨txo, htxo⟩ : ∃ txo, env.decodeTxo v = some txo :=
    @IsListedStore.exists_txo _ _ _ _ hstore (.shelley address) _ item _ hget
  refine ⟨_, readKv_encode htxo, ?_, hget, ?_, hpayment, htxo, ((passes_iff htxo).mp hkv).2⟩
  · simp [Txout.key, cursorAt, UtxosByPaymentCredCursor.item, InstanceKey.encode, DataKey.encode,
      KeyEncoder.encodeUtxosByShelleyAddressKey, encodeShelleyAddress]
  · rw [← htag]

theorem mem_credKvs {txout : Txout τ} (hget : store.get (txout.key encoder) = some v)
    (h : IsCredUtxoOf env network cred filterAsset v txout) :
    (txout.key encoder, v) ∈ credKvs env store encoder network cred filterAsset order ∧
      readKv env.toEnv (txout.key encoder, v) = .ok txout := by
  constructor
  · refine (passes_iff h.decode_eq).mpr ⟨mem_scanned.mpr ⟨hget, mem_range_iff.mpr ⟨?_, ?_⟩⟩, h.passes⟩
    · rw [h.network_eq, Network.tag_ofTag]
    · exact h.payment_eq
  · rw [Txout.key, readKv_encode h.decode_eq, h.network_eq, Network.tag_ofTag, ← h.network_eq]
    rfl

theorem exists_txouts (hstore : IsListedStore env.toEnv blake2b store) (encoder : KeyEncoder)
    (network : Byte) (cred : ShelleyPaymentPart) (filterAsset : Option (Hash28 × Bytes))
    (order : OrderParam) :
    ∃ txouts, (credKvs env store encoder network cred filterAsset order).mapM (readKv env.toEnv) =
        .ok txouts ∧ txouts.Nodup ∧
      ∀ txout, txout ∈ txouts ↔ IsCredUtxo env store encoder network cred filterAsset txout := by
  obtain ⟨txouts, htxouts⟩ := Except.exists_mapM_eq_ok fun kv hkv => by
    obtain ⟨txout, hread, -⟩ := exists_of_mem_credKvs hstore hkv
    exact ⟨txout, hread⟩
  refine ⟨txouts, htxouts, Except.nodup_of_mapM_eq_ok htxouts ?_ ?_, fun txout => ?_⟩
  · refine List.Pairwise.imp ?_ (pairwise_filtered (scanned_pairwise store order _))
    rintro kv _ hbefore rfl
    exact irrefl (r := order.before) _ hbefore
  · intro kv hkv kv' hkv' txout hread hread'
    obtain ⟨_, hread₁, hkey, hget, -⟩ := exists_of_mem_credKvs hstore hkv
    obtain ⟨_, hread₂, hkey', hget', -⟩ := exists_of_mem_credKvs hstore hkv'
    cases hread.symm.trans hread₁
    cases hread'.symm.trans hread₂
    have heq : kv.1 = kv'.1 := hkey.trans hkey'.symm
    rw [heq, hget'] at hget
    exact Prod.ext heq (Option.some.inj hget).symm
  · rw [Except.mem_of_mapM_eq_ok htxouts]
    constructor
    · rintro ⟨kv, hkv, hread⟩
      obtain ⟨_, hread', hkey, hget, hof⟩ := exists_of_mem_credKvs hstore hkv
      cases hread.symm.trans hread'
      exact ⟨kv.2, hkey ▸ hget, hof⟩
    · rintro ⟨v, hget, hof⟩
      obtain ⟨hkv, hread⟩ := mem_credKvs hget hof
      exact ⟨_, hkv, hread⟩

theorem utxoRank_injective : Function.Injective UtxosByAddressCursor.rank := by
  rintro ⟨slot, uHash, uIndex⟩ ⟨slot', uHash', uIndex'⟩ heq
  simp only [UtxosByAddressCursor.rank, EmbeddingLike.apply_eq_iff_eq, Prod.mk.injEq,
    BitVec.toNat_inj, toList_injective.eq_iff] at heq
  obtain ⟨rfl, rfl, rfl⟩ := heq
  rfl

def OneAddressEach (store : Store) (encoder : KeyEncoder) : Prop :=
  ∀ address address' item,
    (store.get (encoder.encodeUtxosByShelleyAddressKey address item)).isSome →
    (store.get (encoder.encodeUtxosByShelleyAddressKey address' item)).isSome →
      encodeShelleyAddress address = encodeShelleyAddress address'

theorem isCanonical_ofTag (tag : Byte) : (Network.ofTag tag).IsCanonical := by
  unfold Network.ofTag
  split_ifs with hzero hone
  · trivial
  · trivial
  · exact ⟨hzero, hone⟩

theorem eq_of_rank_eq (hunique : OneAddressEach store encoder)
    (ha : IsCredUtxo env store encoder network cred filterAsset a)
    (hb : IsCredUtxo env store encoder network cred filterAsset b) (heq : a.rank = b.rank) :
    a = b := by
  obtain ⟨v, hget, hofA⟩ := ha
  obtain ⟨w, hget', hofB⟩ := hb
  have hitem : (cursorAt a).item = (cursorAt b).item := utxoRank_injective heq
  have haddr : a.addr = b.addr := by
    have hbytes := hunique a.addr b.addr (cursorAt a).item
      (Option.isSome_iff_exists.mpr ⟨v, hget⟩)
      (Option.isSome_iff_exists.mpr ⟨w, hitem ▸ hget'⟩)
    refine encodeShelleyAddress_injective ?_ ?_ hbytes
    · rw [hofA.network_eq]
      exact isCanonical_ofTag network
    · rw [hofB.network_eq]
      exact isCanonical_ofTag network
  have hkey : a.key encoder = b.key encoder := by rw [Txout.key, Txout.key, haddr, hitem]
  rw [hkey, hget'] at hget
  have htxo := hofA.decode_eq
  rw [← Option.some.inj hget, hofB.decode_eq] at htxo
  cases a
  cases b
  cases hitem
  cases haddr
  cases htxo
  rfl

end Results

/-! ## Pages -/

theorem slot_le_of_rank_lt {a b : UtxosByPaymentCredCursor} (h : a.item.rank < b.item.rank) :
    a.slot.toNat ≤ b.slot.toNat := by
  rcases rank_lt_iff.mp h with hlt | ⟨heq, -⟩
  · exact hlt.le
  · exact (congrArg BitVec.toNat heq).le

theorem between_iff (order : OrderParam) {params : SlotPagination}
    (hcursor : ∀ c, cursor = some c → params.Allows c.slot) :
    IsAbove UtxosByPaymentCredCursor.slot (fun c => c.item.rank)
          (cursorBounds order params cursor).1 (cursorAt x) ∧
        IsBelow UtxosByPaymentCredCursor.slot (fun c => c.item.rank)
          (cursorBounds order params cursor).2 (cursorAt x) ↔
      params.Allows x.slot ∧ ∀ c, cursor = some c → order.before c.item.rank x.rank :=
  isAbove_and_isBelow_cursorBounds order slot_le_of_rank_lt hcursor (cursorAt x)

variable {txouts : List (Txout τ)}

theorem orderedTxouts_cursorBounds {params : SlotPagination} {order : OrderParam} {count : ℕ}
    (hnodup : txouts.Nodup) (hinj : ∀ a ∈ txouts, ∀ b ∈ txouts, a.rank = b.rank → a = b)
    (hcursor : ∀ c, cursor = some c → params.Allows c.slot) :
    orderedTxouts ⟨count, order, (cursorBounds order params cursor).1,
        (cursorBounds order params cursor).2⟩ txouts =
      Paging.remaining order.before Txout.rank (cursor.map fun c => c.item.rank)
        (orderedTxouts ⟨count, order, (cursorBounds (κ := UtxosByPaymentCredCursor) order params
          none).1, (cursorBounds order params none).2⟩ txouts) := by
  have hsorted : ∀ lower upper, (orderedTxouts ⟨count, order, lower, upper⟩ txouts).Pairwise
      fun a b => order.before a.rank b.rank := fun lower upper =>
    pairwise_orderedTxouts ⟨count, order, lower, upper⟩ hnodup hinj
  refine Paging.eq_of_pairwise (hsorted ..) (Paging.pairwise_remaining (hsorted ..)) fun x => ?_
  rw [Paging.mem_remaining, mem_orderedTxouts, mem_orderedTxouts, between_iff order hcursor,
    between_iff order (by simp)]
  simp [and_assoc]

section Pages

variable {env : AddressEnv τ} {config : ApiConfig} {store : Store} {encoder : KeyEncoder}
  {credential : Bytes} {cred : ShelleyPaymentPart} {utxoParams : UtxoParams}
  {filterAsset : Option (Hash28 × Bytes)} {params : SlotPagination} {count : ℕ}
  {order : OrderParam}

theorem isPage_utxosByPaymentCred {lastUpdated : LastUpdated}
    (hencoder : config.utxoCborByAddress = some encoder) (hdatums : config.datumByHash.isSome)
    (hcred : decodePaymentCredential env.toEnv credential = .ok cred)
    (hfilter : decodeFilterAsset utxoParams.asset = .ok filterAsset)
    (hparams : params.Accepted count) (horder : params.order.getD .asc = order)
    (hupdated : getLastUpdated env.toEnv store encoder = .ok lastUpdated)
    (htxouts : (credKvs env store encoder config.networkId cred filterAsset order).mapM
      (readKv env.toEnv) = .ok txouts) {text : Option Bytes}
    (htext : pageCursor (decodeUtxosByPaymentCredCursor env.b64Decode) text = .ok cursor)
    (hallows : ∀ c, cursor = some c → params.Allows c.slot) {attempts : Attempts}
    (hone : attempts.responses.OneFits) :
    Paging.IsPage (attempts.FailsWith (filterAsset.map fun _ => config.timeoutDuration)) count id
      (fun txout => encodeUtxosByPaymentCredCursor env.b64Encode (cursorAt txout))
      (orderedTxouts ⟨count, order, (cursorBounds order params cursor).1,
        (cursorBounds order params cursor).2⟩ txouts)
      ((utxosByPaymentCred env config store credential utxoParams { params with cursor := text }
        attempts).map fun response => response.toPaginatedResponse.page) := by
  obtain ⟨datumEncoder, hdatums⟩ := Option.isSome_iff_exists.mp hdatums
  have hscan : attempts.Gives (filterAsset.map fun _ => config.timeoutDuration)
      (credKvs env store encoder config.networkId cred filterAsset order)
      (scanExtended store
        (encoder.encodeUtxosByPaymentCredRange config.networkId cred none none) order
        (filterAsset.map fun asset => addressUtxoContainsAsset env asset.1 asset.2) none
        (filterAsset.map fun _ => config.timeoutDuration) attempts) := scanExtended_spec hone
  rw [utxosByPaymentCred, hencoder, orInternal, Except.ok_bind, hcred, Except.ok_bind, hfilter,
    Except.ok_bind, parseSlotPageParams_eq hparams htext hallows, Except.ok_bind, hupdated,
    Except.ok_bind, horder]
  generalize scanExtended store
      (encoder.encodeUtxosByPaymentCredRange config.networkId cred none none) order
      (filterAsset.map fun asset => addressUtxoContainsAsset env asset.1 asset.2) none
      (filterAsset.map fun _ => config.timeoutDuration) attempts = result at hscan
  cases result with
  | error error => exact hscan
  | ok kvs =>
    cases hscan
    rw [Except.ok_bind, htxouts, Except.ok_bind, hdatums]
    exact ⟨(List.map_id _).symm, rfl⟩

end Pages

theorem oneAddressEach_plainStore : OneAddressEach plainStore ⟨1, 2⟩ := by
  have haddress : ∀ address item, (plainStore.get
      (KeyEncoder.encodeUtxosByShelleyAddressKey ⟨1, 2⟩ address item)).isSome →
      encodeShelleyAddress address = encodeShelleyAddress otherAddress := by
    intro address item hsome
    obtain ⟨v, hget⟩ := Option.isSome_iff_exists.mp hsome
    obtain ⟨row, hrow, hkey, hreducer, -⟩ :=
      holdsRows_plainStore.exists_row (.utxosByShelleyAddress address item) hget
    simp only [List.mem_cons, List.not_mem_nil, or_false] at hrow
    rcases hrow with rfl | rfl | rfl
    · cases hreducer
    · cases hreducer
    · exact (owner_item_of_eq isPrefixCode_shelleyAddress (List.append_cancel_left hkey)).1
  intro address address' item h h'
  exact (haddress address item h).trans (haddress address' item h').symm

end CardanoIndexer.Mapi
