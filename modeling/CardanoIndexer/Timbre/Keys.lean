import CardanoIndexer.Lib.Bytes

/-!
# Keys and values of the indexer's own planes

The keys that every instance writes besides its reducers' data.
-/

namespace CardanoIndexer

abbrev U64 := BitVec 64

abbrev U128 := BitVec 128

abbrev Hash := Vector Byte 32

inductive Point where
  | origin
  | specific (slot : U64) (hash : Hash)
  deriving DecidableEq

def Point.slotOrDefault : Point → U64
  | .origin => 0
  | .specific slot _ => slot

namespace Timbre

/-! ## Tags -/

def prefixCursor : Byte := 67
def prefixData : Byte := 68
def prefixInfo : Byte := 73
def prefixRollback : Byte := 82
def breakByte : Byte := 96
def rollbackEnrichUtxo : Byte := 69
def rollbackInverseOperation : Byte := 79

def u64Bytes (n : U64) : Bytes := Bytes.toBE 8 n.toNat

@[simp] theorem length_u64Bytes (n : U64) : (u64Bytes n).length = 8 := Bytes.length_toBE ..

theorem toNat_lt_pow (n : U64) : n.toNat < 256 ^ 8 := n.isLt

theorem u64Bytes_lt_iff {n m : U64} : u64Bytes n < u64Bytes m ↔ n.toNat < m.toNat :=
  Bytes.toBE_lt_toBE_iff (toNat_lt_pow n) (toNat_lt_pow m)

theorem u64Bytes_injective : Function.Injective u64Bytes := fun n m heq =>
  BitVec.eq_of_toNat_eq (Bytes.toBE_injective (toNat_lt_pow n) (toNat_lt_pow m) heq)

def u64OfBytes (bytes : Bytes) : U64 := BitVec.ofNat 64 (Bytes.ofBE bytes)

@[simp] theorem u64OfBytes_u64Bytes (n : U64) : u64OfBytes (u64Bytes n) = n := by
  rw [u64OfBytes, u64Bytes, Bytes.ofBE_toBE_of_lt (toNat_lt_pow n), BitVec.ofNat_toNat,
    BitVec.setWidth_eq]

def slice (bytes : Bytes) (lo hi : ℕ) : Option Bytes :=
  if lo ≤ hi ∧ hi ≤ bytes.length then some ((bytes.drop lo).take (hi - lo)) else none

def hashOfBytes (bytes : Bytes) : Option Hash :=
  if h : bytes.length = 32 then some ⟨bytes.toArray, by simpa using h⟩ else none

@[simp] theorem hashOfBytes_toList (hash : Hash) : hashOfBytes hash.toList = some hash := by
  simp [hashOfBytes, Vector.toList]

/-! ## Encoders -/

structure KeyEncoder where
  dataplaneId : Byte
  instanceId : Byte
  deriving DecidableEq

structure KeyRange where
  start : Bytes
  stop : Bytes

namespace KeyEncoder

variable (enc : KeyEncoder)

def encodeCursorKey : Bytes := [enc.dataplaneId, enc.instanceId, prefixCursor]

def encodeInfoKey : Bytes := [prefixInfo, breakByte, enc.dataplaneId, enc.instanceId]

def encodeDataKey (tag : Byte) (body : Bytes) : Bytes :=
  [enc.dataplaneId, enc.instanceId, prefixData, tag] ++ body

def verificationKey : Bytes := [enc.dataplaneId, enc.instanceId, 80]

def rollbackPrefix : Bytes := [enc.dataplaneId, enc.instanceId, prefixRollback, breakByte]

def encodeStorageRollbackMetadataKey (bSlot : U64) (bHash : Hash) (operationIdx : U64)
    (modifiedKey : Bytes) : Bytes :=
  enc.rollbackPrefix ++ (u64Bytes bSlot ++ (bHash.toList ++
    (rollbackInverseOperation :: (u64Bytes operationIdx ++ modifiedKey))))

/-- The rollback keys from slot `lower` (included) to slot `upper` (excluded);
an absent bound is infinite. -/
def encodeRollbackMetadataRange (lower upper : Option U64) : KeyRange where
  start := match lower with
    | none => enc.rollbackPrefix
    | some startSlot => enc.rollbackPrefix ++ u64Bytes startSlot
  stop := match upper with
    | some endSlot => enc.rollbackPrefix ++ u64Bytes endSlot
    | none => [enc.dataplaneId, enc.instanceId, prefixRollback, breakByte + 1]

end KeyEncoder

def encodeCursorValue (point : Point) (height : U64) : Bytes :=
  match point with
  | .origin => [79]
  | .specific slot hash => 83 :: (u64Bytes slot ++ (hash.toList ++ u64Bytes height))

def encodeInfoValue (point : Point) (height timestamp : U64) : Bytes :=
  match point with
  | .origin => []
  | .specific _ hash => u64Bytes height ++ (hash.toList ++ (0 :: u64Bytes timestamp))

/-! ## Decoders -/

def decodeCursorValue (bytes : Bytes) : Option (Point × U64) :=
  match bytes with
  | [] => none
  | tag :: _ =>
    if tag = 79 then some (.origin, 0)
    else if tag = 83 then do
      let bSlot ← slice bytes 1 9
      let bHash ← (slice bytes 9 41).bind hashOfBytes
      let bHeight ← slice bytes 41 49
      return (.specific (u64OfBytes bSlot) bHash, u64OfBytes bHeight)
    else none

@[simp] theorem slice_append_mid (a b c : Bytes) :
    slice (a ++ (b ++ c)) a.length (a.length + b.length) = some b := by
  rw [slice, if_pos ⟨by omega, by simp⟩]
  simp

theorem decodeCursorValue_encodeCursorValue (point : Point) (height : U64) :
    (decodeCursorValue (encodeCursorValue point height)).map Prod.fst = some point := by
  cases point with
  | origin => rfl
  | specific slot hash =>
    have hhash : hash.toList.length = 32 := by simp
    have hslot := slice_append_mid [83] (u64Bytes slot) (hash.toList ++ u64Bytes height)
    have hmid := slice_append_mid (83 :: u64Bytes slot) hash.toList (u64Bytes height)
    have hlast := slice_append_mid (83 :: (u64Bytes slot ++ hash.toList)) (u64Bytes height) []
    simp only [List.length_cons, List.length_nil, length_u64Bytes, hhash, List.length_append,
      List.cons_append, List.append_assoc, List.append_nil, List.nil_append] at hslot hmid hlast
    simp [decodeCursorValue, encodeCursorValue, hslot, hmid, hlast]

inductive RollbackKey where
  | enrich (point : Point) (itemIdx : U64) (utxoHash : Hash) (utxoIndex : U64)
  | storage (point : Point) (itemIdx : U64) (key : Bytes)

def RollbackKey.point : RollbackKey → Point
  | .enrich point _ _ _ => point
  | .storage point _ _ => point

def decodeRollbackMetadataKey (bytes : Bytes) : Option RollbackKey := do
  let bSlot ← slice bytes 4 12
  let bHash ← (slice bytes 12 44).bind hashOfBytes
  let point := Point.specific (u64OfBytes bSlot) bHash
  let tag ← bytes[44]?
  if tag = rollbackEnrichUtxo then
    let itemIdx ← slice bytes 45 53
    let uHash ← (slice bytes 53 85).bind hashOfBytes
    let uIndex ← slice bytes 85 93
    return .enrich point (u64OfBytes itemIdx) uHash (u64OfBytes uIndex)
  else if tag = rollbackInverseOperation then
    let itemIdx ← slice bytes 45 53
    let modifiedKey ← slice bytes 53 bytes.length
    return .storage point (u64OfBytes itemIdx) modifiedKey
  else none

/-! ## Planes -/

namespace KeyEncoder

variable (enc : KeyEncoder) {lower upper : Option U64} {idx bSlot slot idx' : U64}
  {bHash hash : Hash} {key' k : Bytes}

def IndexKey (k : Bytes) : Prop :=
  k = enc.encodeCursorKey ∨ k = enc.encodeInfoKey ∨
    [enc.dataplaneId, enc.instanceId, prefixData] <+: k

instance : DecidablePred enc.IndexKey := fun k =>
  inferInstanceAs (Decidable (k = enc.encodeCursorKey ∨ k = enc.encodeInfoKey ∨
    [enc.dataplaneId, enc.instanceId, prefixData] <+: k))

variable {enc}

theorem indexKey_cursor : enc.IndexKey enc.encodeCursorKey := Or.inl rfl

theorem indexKey_info : enc.IndexKey enc.encodeInfoKey := Or.inr (Or.inl rfl)

theorem indexKey_data (tag : Byte) (body : Bytes) : enc.IndexKey (enc.encodeDataKey tag body) :=
  Or.inr (Or.inr ⟨tag :: body, rfl⟩)

theorem cursorKey_ne_infoKey : enc.encodeCursorKey ≠ enc.encodeInfoKey := by
  simp [encodeCursorKey, encodeInfoKey]

theorem dataKey_ne_cursorKey (tag : Byte) (body : Bytes) :
    enc.encodeDataKey tag body ≠ enc.encodeCursorKey := by
  simp [encodeDataKey, encodeCursorKey]

theorem not_indexKey_of_rollbackPrefix (hk : enc.rollbackPrefix <+: k) : ¬ enc.IndexKey k := by
  obtain ⟨rest, rfl⟩ := hk
  rintro (heq | heq | ⟨rest', heq⟩)
  · simp [rollbackPrefix, encodeCursorKey] at heq
  · simp only [rollbackPrefix, encodeInfoKey, List.cons_append, List.cons.injEq] at heq
    obtain ⟨hdp, -, htag, -⟩ := heq
    rw [hdp] at htag
    exact absurd htag (by decide)
  · simp only [rollbackPrefix, List.cons_append, List.cons.injEq, true_and] at heq
    exact absurd heq.1 (by decide)

theorem not_indexKey_verificationKey : ¬ enc.IndexKey enc.verificationKey := by
  rintro (heq | heq | ⟨rest, heq⟩)
  · simp only [verificationKey, encodeCursorKey, List.cons.injEq, true_and] at heq
    exact absurd heq.1 (by decide)
  · simp [verificationKey, encodeInfoKey] at heq
  · simp only [verificationKey, List.cons_append, List.cons.injEq, true_and] at heq
    exact absurd heq.1 (by decide)

theorem not_rollbackPrefix_verificationKey : ¬ enc.rollbackPrefix <+: enc.verificationKey := by
  intro h
  have hlength := h.length_le
  simp [rollbackPrefix, verificationKey] at hlength

theorem rollbackPrefix_isPrefix_metadataKey (bSlot : U64) (bHash : Hash) (idx : U64)
    (key : Bytes) :
    enc.rollbackPrefix <+: enc.encodeStorageRollbackMetadataKey bSlot bHash idx key :=
  List.prefix_append ..

theorem metadataKey_lt_stop_iff {endSlot : U64} {key : Bytes} :
    enc.encodeStorageRollbackMetadataKey bSlot bHash idx key <
        (enc.encodeRollbackMetadataRange lower (some endSlot)).stop ↔
      bSlot.toNat < endSlot.toNat := by
  have hrest : ∀ rest : Bytes, ¬ rest < [] := Bytes.not_lt_nil
  simp only [encodeStorageRollbackMetadataKey, encodeRollbackMetadataRange]
  rw [Bytes.append_lt_append_left_iff, ← List.append_nil (u64Bytes endSlot),
    Bytes.append_lt_append_iff (by simp), u64Bytes_lt_iff]
  exact or_iff_left fun h => hrest _ h.2

theorem start_le_metadataKey_iff {startSlot : U64} {key : Bytes} :
    (enc.encodeRollbackMetadataRange (some startSlot) upper).start ≤
        enc.encodeStorageRollbackMetadataKey bSlot bHash idx key ↔
      startSlot.toNat ≤ bSlot.toNat := by
  rw [← not_lt, ← not_lt]
  exact not_congr (metadataKey_lt_stop_iff :
    _ < (enc.encodeRollbackMetadataRange none (some startSlot)).stop ↔ _)

theorem metadataKey_lt_of_slot_lt {slot' : U64} {hash' : Hash} {key : Bytes}
    (h : slot.toNat < slot'.toNat) :
    enc.encodeStorageRollbackMetadataKey slot hash idx key <
      enc.encodeStorageRollbackMetadataKey slot' hash' idx' key' := by
  rw [encodeStorageRollbackMetadataKey, encodeStorageRollbackMetadataKey,
    Bytes.append_lt_append_left_iff, Bytes.append_lt_append_iff (by simp), u64Bytes_lt_iff]
  exact Or.inl h

theorem metadataKey_lt_of_idx_lt {key : Bytes} (h : idx.toNat < idx'.toNat) :
    enc.encodeStorageRollbackMetadataKey slot hash idx key <
      enc.encodeStorageRollbackMetadataKey slot hash idx' key' := by
  simp only [encodeStorageRollbackMetadataKey, Bytes.append_lt_append_left_iff,
    Bytes.cons_lt_cons_iff, lt_irrefl, true_and, false_or]
  rw [Bytes.append_lt_append_iff (by simp), u64Bytes_lt_iff]
  exact Or.inl h

theorem start_none_le_metadataKey (upper : Option U64) (bSlot idx : U64) (bHash : Hash)
    (key : Bytes) :
    (enc.encodeRollbackMetadataRange none upper).start ≤
      enc.encodeStorageRollbackMetadataKey bSlot bHash idx key :=
  Bytes.le_append _ _

theorem metadataKey_lt_stop_none (lower : Option U64) (bSlot idx : U64) (bHash : Hash)
    (key : Bytes) :
    enc.encodeStorageRollbackMetadataKey bSlot bHash idx key <
      (enc.encodeRollbackMetadataRange lower none).stop := by
  have hbreak : breakByte < breakByte + 1 := by decide
  simp [encodeStorageRollbackMetadataKey, encodeRollbackMetadataRange, rollbackPrefix,
    Bytes.cons_lt_cons_iff, hbreak]

theorem decodeRollbackMetadataKey_metadataKey (bSlot idx : U64) (bHash : Hash) (key : Bytes) :
    decodeRollbackMetadataKey (enc.encodeStorageRollbackMetadataKey bSlot bHash idx key) =
      some (.storage (.specific bSlot bHash) idx key) := by
  have hhash : bHash.toList.length = 32 := by simp
  have hfront : enc.rollbackPrefix.length = 4 := rfl
  have hslot := slice_append_mid enc.rollbackPrefix (u64Bytes bSlot) (bHash.toList ++
    (rollbackInverseOperation :: (u64Bytes idx ++ key)))
  have hmid := slice_append_mid (enc.rollbackPrefix ++ u64Bytes bSlot) bHash.toList
    (rollbackInverseOperation :: (u64Bytes idx ++ key))
  have hidx := slice_append_mid (enc.rollbackPrefix ++ (u64Bytes bSlot ++ (bHash.toList ++
    [rollbackInverseOperation]))) (u64Bytes idx) key
  have hkey := slice_append_mid (enc.rollbackPrefix ++ (u64Bytes bSlot ++ (bHash.toList ++
    (rollbackInverseOperation :: u64Bytes idx)))) key []
  have htag : (enc.rollbackPrefix ++ (u64Bytes bSlot ++ (bHash.toList ++
      (rollbackInverseOperation :: (u64Bytes idx ++ key)))))[44]? =
        some rollbackInverseOperation := by
    rw [List.getElem?_append_right (by simp [hfront]), List.getElem?_append_right
      (by simp [hfront]), List.getElem?_append_right (by simp [hfront])]
    simp [hfront]
  have hlength : (enc.rollbackPrefix ++ (u64Bytes bSlot ++ (bHash.toList ++
      (rollbackInverseOperation :: (u64Bytes idx ++ key))))).length = 53 + key.length := by
    simp only [List.length_append, List.length_cons, hfront, length_u64Bytes, hhash]
    omega
  simp only [List.length_append, List.length_cons, List.length_nil, hfront, length_u64Bytes,
    hhash, List.append_assoc, List.cons_append, List.nil_append, List.append_nil]
    at hslot hmid hidx hkey
  simp only [decodeRollbackMetadataKey, encodeStorageRollbackMetadataKey, hslot, hmid, htag,
    hlength, hidx, hkey, hashOfBytes_toList, u64OfBytes_u64Bytes, Option.bind_some,
    Option.bind_eq_bind, Option.pure_def]
  rfl

theorem rollbackPrefix_isPrefix_of_mem_range
    (hlow : (enc.encodeRollbackMetadataRange lower upper).start ≤ k)
    (hhigh : k < (enc.encodeRollbackMetadataRange lower upper).stop) :
    enc.rollbackPrefix <+: k := by
  obtain ⟨x, hx⟩ : ∃ x, (enc.encodeRollbackMetadataRange lower upper).start =
      enc.rollbackPrefix ++ x := by
    cases lower with
    | none => exact ⟨[], (List.append_nil _).symm⟩
    | some startSlot => exact ⟨_, rfl⟩
  rw [hx] at hlow
  cases upper with
  | some endSlot => exact Bytes.isPrefix_of_between hlow hhigh
  | none =>
    -- the upper bound is the shorter prefix with its last byte incremented
    let p : Bytes := [enc.dataplaneId, enc.instanceId, prefixRollback]
    have hstop : k < p ++ [breakByte + 1] := hhigh
    have hstart : p ++ (breakByte :: x) ≤ k := hlow
    obtain ⟨rest, rfl⟩ := Bytes.isPrefix_of_between hstart hstop
    rw [Bytes.append_le_append_left_iff] at hstart
    rw [Bytes.append_lt_append_left_iff] at hstop
    cases rest with
    | nil => exact absurd hstart (not_le.mpr (Bytes.nil_lt_cons _ _))
    | cons b rest =>
      rw [← not_lt, Bytes.cons_lt_cons_iff] at hstart
      rw [Bytes.cons_lt_cons_iff] at hstop
      have hge : breakByte ≤ b := not_lt.mp fun h => hstart (Or.inl h)
      have hlt : b < breakByte + 1 :=
        hstop.resolve_right fun h => Bytes.not_lt_nil _ h.2
      have hb : b = breakByte := by
        rw [Fin.le_def, show breakByte.val = 96 from rfl] at hge
        rw [Fin.lt_def, show (breakByte + 1 : Byte).val = 97 from rfl] at hlt
        exact Fin.ext (by rw [show breakByte.val = 96 from rfl]; omega)
      subst hb
      exact ⟨rest, rfl⟩

end KeyEncoder

end Timbre

end CardanoIndexer
