import CardanoIndexer.Timbre.Encode

/-!
# The namespace of an instance

The keys of an instance start with its ids, except for the info key, which starts with a tag.
-/

namespace CardanoIndexer.Timbre

/-! ## Ranges of a prefix -/

def KeyRange.Contains (range : KeyRange) (key : Bytes) : Prop :=
  range.start ≤ key ∧ (range.stop = [] ∨ key < range.stop)

instance (range : KeyRange) (key : Bytes) : Decidable (range.Contains key) :=
  inferInstanceAs (Decidable (_ ∧ (_ ∨ _)))

/-- The last byte that is not `0xFF` is incremented and the bytes behind it are dropped; the
result is empty if there is none. -/
def prefixEnd : Bytes → Bytes
  | [] => []
  | byte :: rest =>
    match prefixEnd rest with
    | [] => if byte ≠ 255 then [byte + 1] else []
    | bumped => byte :: bumped

def prefixKeyRange (front : Bytes) : KeyRange := ⟨front, prefixEnd front⟩

def bumpBelow (front : Bytes) : ℕ → Bytes
  | 0 => []
  | i + 1 => match front[i]? with
      | some byte => if byte ≠ 255 then front.take i ++ [byte + 1] else bumpBelow front i
      | none => bumpBelow front i

theorem bumpBelow_cons {byte : Byte} {rest : Bytes} {i : ℕ} (hi : i ≤ rest.length) :
    bumpBelow (byte :: rest) (i + 1) =
      match bumpBelow rest i with
      | [] => if byte ≠ 255 then [byte + 1] else []
      | bumped => byte :: bumped := by
  induction i with
  | zero => rfl
  | succ i ih =>
    have hget : rest[i]? = some rest[i] := List.getElem?_eq_getElem hi
    have hrest : bumpBelow rest (i + 1) =
        if rest[i] ≠ 255 then rest.take i ++ [rest[i] + 1] else bumpBelow rest i := by
      rw [bumpBelow, hget]
    have hcons : bumpBelow (byte :: rest) (i + 1 + 1) =
        if rest[i] ≠ 255 then byte :: (rest.take i ++ [rest[i] + 1])
        else bumpBelow (byte :: rest) (i + 1) := by
      rw [bumpBelow, List.getElem?_cons_succ, hget]
      rfl
    rw [hcons, hrest]
    by_cases hbyte : rest[i] ≠ 255
    · rw [if_pos hbyte, if_pos hbyte]
      cases hbumped : rest.take i ++ [rest[i] + 1] with
      | nil => simp at hbumped
      | cons head tail => rfl
    · rw [if_neg hbyte, if_neg hbyte]
      exact ih (by omega)

theorem bumpBelow_length (front : Bytes) : bumpBelow front front.length = prefixEnd front := by
  induction front with
  | nil => rfl
  | cons byte rest ih => rw [List.length_cons, bumpBelow_cons (le_refl _), ih, prefixEnd]

variable {a b : Byte}

theorem lt_add_one_iff (hb : b ≠ 255) : a < b + 1 ↔ a ≤ b := by
  have hlt : b.val < 255 := by
    have h := b.isLt
    have hne : b.val ≠ 255 := fun h => hb (Fin.ext h)
    omega
  rw [Fin.lt_def, Fin.le_def, Fin.val_add]
  change a.val < (b.val + 1) % 256 ↔ _
  rw [Nat.mod_eq_of_lt (by omega)]
  omega

theorem cons_le_cons_iff {as bs : Bytes} : a :: as ≤ b :: bs ↔ a < b ∨ a = b ∧ as ≤ bs := by
  rw [← not_lt, Bytes.cons_lt_cons_iff, ← not_lt (a := bs)]
  rcases lt_trichotomy a b with h | rfl | h
  · simp [h, h.not_gt, h.ne']
  · simp
  · simp [h, h.not_gt, h.ne']

theorem contains_prefixKeyRange {front key : Bytes} :
    (prefixKeyRange front).Contains key ↔ front <+: key := by
  simp only [KeyRange.Contains, prefixKeyRange]
  induction front generalizing key with
  | nil => simp [prefixEnd, ← not_lt]
  | cons byte rest ih =>
    cases key with
    | nil => simp [← not_lt]
    | cons first key =>
      have hrest := @ih key
      rw [List.cons_prefix_cons, cons_le_cons_iff, ← hrest, prefixEnd]
      cases hend : prefixEnd rest with
      | cons head tail =>
        simp only [reduceCtorEq, false_or, Bytes.cons_lt_cons_iff]
        rcases lt_trichotomy byte first with h | rfl | h
        · simp [h.ne, h.not_gt, h.ne']
        · simp
        · simp [h.ne', h.not_gt]
      | nil =>
        by_cases hbyte : byte = 255
        · subst hbyte
          have hmax : ¬ (255 : Byte) < first := by
            rw [Fin.lt_def]
            have h := first.isLt
            change ¬ 255 < first.val
            omega
          simp [hmax]
        · have hlt : first :: key < [byte + 1] ↔ first ≤ byte := by
            rw [Bytes.cons_lt_cons_iff, lt_add_one_iff hbyte]
            simp
          simp only [if_pos hbyte, reduceCtorEq, false_or, hlt, true_or, and_true]
          rcases lt_trichotomy byte first with h | rfl | h
          · simp [h.ne, h.not_ge]
          · simp
          · simp [h.ne', h.not_gt]

/-! ## The keys of an instance -/

def KeyEncoder.instanceKeyRange (enc : KeyEncoder) : KeyRange :=
  prefixKeyRange [enc.dataplaneId, enc.instanceId]

def dataplaneKeyRange (dataplaneId : Byte) : KeyRange := prefixKeyRange [dataplaneId]

/-- **Prefix ranges are exact**: they hold the keys that start with the prefix. -/
theorem prefix_ranges_exact :
    (∀ front key : Bytes,
      (⟨front, bumpBelow front front.length⟩ : KeyRange).Contains key ↔ front <+: key) ∧
    (∀ (dataplaneId : Byte) (key : Bytes), (dataplaneKeyRange dataplaneId).Contains key ↔
      key = [dataplaneId] ∨
        ∃ instanceId, (⟨dataplaneId, instanceId⟩ : KeyEncoder).instanceKeyRange.Contains key) ∧
    (∀ (dataplaneId instanceId instanceId' : Byte) (key : Bytes),
      ((⟨dataplaneId, instanceId⟩ : KeyEncoder).instanceKeyRange.Contains key ∧
        (⟨dataplaneId, instanceId'⟩ : KeyEncoder).instanceKeyRange.Contains key) ↔
      (⟨dataplaneId, instanceId⟩ : KeyEncoder).instanceKeyRange.Contains key ∧
        instanceId = instanceId') ∧
    ∀ dataplaneId instanceId : Byte,
      ¬ (⟨dataplaneId, instanceId⟩ : KeyEncoder).instanceKeyRange.Contains [dataplaneId] := by
  refine ⟨fun front key => ?_, fun dataplaneId key => ?_, fun dataplaneId i j key => ?_,
    fun dataplaneId i => ?_⟩
  · rw [bumpBelow_length]
    exact contains_prefixKeyRange
  · simp only [dataplaneKeyRange, KeyEncoder.instanceKeyRange, contains_prefixKeyRange]
    constructor
    · rintro ⟨rest, rfl⟩
      cases rest with
      | nil => exact Or.inl rfl
      | cons instanceId rest => exact Or.inr ⟨instanceId, rest, rfl⟩
    · rintro (rfl | ⟨instanceId, rest, rfl⟩)
      · exact List.prefix_refl _
      · exact ⟨instanceId :: rest, rfl⟩
  · simp only [KeyEncoder.instanceKeyRange, contains_prefixKeyRange]
    refine and_congr_right ?_
    rintro ⟨rest, rfl⟩
    simp [List.cons_prefix_cons, eq_comm]
  · simp [KeyEncoder.instanceKeyRange, contains_prefixKeyRange]

theorem dataplane_id_in_no_instance :
    (dataplaneKeyRange 1).Contains [1] ∧
      ∀ instanceId, ¬ (⟨1, instanceId⟩ : KeyEncoder).instanceKeyRange.Contains [1] := by
  constructor
  · decide
  · intro instanceId
    simp [KeyEncoder.instanceKeyRange, contains_prefixKeyRange]

inductive InstanceKey where
  | cursor
  | info
  | data (key : DataKey)
  | tokenRegistry (policy : Hash28) (name : Bytes)
  | storageRollback (bSlot : U64) (bHash : Hash) (operationIdx : U64) (modifiedKey : Bytes)
  | enrichRollback (bSlot : U64) (bHash : Hash) (itemIdx : U64) (uHash : Hash) (uIndex : U64)
  | verification

def InstanceKey.encode (enc : KeyEncoder) (blake2b : Bytes → Hash) : InstanceKey → Bytes
  | cursor => enc.encodeCursorKey
  | info => enc.encodeInfoKey
  | data key => key.encode enc blake2b
  | tokenRegistry policy name => enc.encodeTokenRegistryByAssetKey policy name
  | storageRollback bSlot bHash operationIdx modifiedKey =>
    enc.encodeStorageRollbackMetadataKey bSlot bHash operationIdx modifiedKey
  | enrichRollback bSlot bHash itemIdx uHash uIndex =>
    enc.encodeEnrichRollbackMetadataKey bSlot bHash itemIdx uHash uIndex
  | verification => enc.verificationKey

theorem isPrefix_encode (enc : KeyEncoder) (blake2b : Bytes → Hash) {key : InstanceKey}
    (h : key ≠ .info) : [enc.dataplaneId, enc.instanceId] <+: key.encode enc blake2b := by
  cases key with
  | cursor => exact ⟨[prefixCursor], rfl⟩
  | info => exact absurd rfl h
  | data key =>
    rw [InstanceKey.encode, DataKey.encode_eq]
    exact ⟨_, rfl⟩
  | tokenRegistry policy name => exact ⟨_, rfl⟩
  | storageRollback bSlot bHash operationIdx modifiedKey => exact ⟨_, rfl⟩
  | enrichRollback bSlot bHash itemIdx uHash uIndex => exact ⟨_, rfl⟩
  | verification => exact ⟨[80], rfl⟩

theorem contains_instanceKeyRange {enc other : KeyEncoder} {key : Bytes}
    (h : [enc.dataplaneId, enc.instanceId] <+: key) :
    other.instanceKeyRange.Contains key ↔ other = enc := by
  rw [KeyEncoder.instanceKeyRange, contains_prefixKeyRange]
  obtain ⟨rest, rfl⟩ := h
  cases enc
  cases other
  simp [List.cons_prefix_cons]

/-- **The namespaces of instances** hold every key of the instance but its info key. -/
theorem instance_keys_isolated_iff (blake2b : Bytes → Hash) {enc other : KeyEncoder}
    (hne : enc ≠ other) :
    ((∀ key : InstanceKey, enc.instanceKeyRange.Contains (key.encode enc blake2b) ∧
        ¬ other.instanceKeyRange.Contains (key.encode enc blake2b)) ↔
      enc = ⟨prefixInfo, breakByte⟩) ∧
    ∀ key : InstanceKey, key ≠ .info →
      enc.instanceKeyRange.Contains (key.encode enc blake2b) ∧
        ¬ other.instanceKeyRange.Contains (key.encode enc blake2b) := by
  have hfront : ∀ key : InstanceKey, key ≠ .info →
      enc.instanceKeyRange.Contains (key.encode enc blake2b) ∧
        ¬ other.instanceKeyRange.Contains (key.encode enc blake2b) := by
    intro key hkey
    have hids := isPrefix_encode enc blake2b hkey
    rw [contains_instanceKeyRange hids, contains_instanceKeyRange hids]
    exact ⟨rfl, hne.symm⟩
  -- the info key starts as the keys of this instance do
  have hinfo : [(⟨prefixInfo, breakByte⟩ : KeyEncoder).dataplaneId, breakByte] <+:
      InstanceKey.info.encode enc blake2b := ⟨[enc.dataplaneId, enc.instanceId], rfl⟩
  refine ⟨⟨fun h => ?_, fun h key => ?_⟩, hfront⟩
  · exact (contains_instanceKeyRange hinfo).mp (h .info).1
  · by_cases hkey : key = .info
    · subst hkey
      rw [contains_instanceKeyRange hinfo, contains_instanceKeyRange hinfo]
      exact ⟨h, fun hother => hne (h.trans hother.symm)⟩
    · exact hfront key hkey

theorem instance_keys_isolated_iff_info :
    (⟨prefixInfo, breakByte⟩ : KeyEncoder) ≠ ⟨1, 2⟩ ∧
      ∀ key : InstanceKey,
        (⟨prefixInfo, breakByte⟩ : KeyEncoder).instanceKeyRange.Contains
          (key.encode ⟨prefixInfo, breakByte⟩ fun _ => Vector.replicate 32 0) ∧
        ¬ (⟨1, 2⟩ : KeyEncoder).instanceKeyRange.Contains
          (key.encode ⟨prefixInfo, breakByte⟩ fun _ => Vector.replicate 32 0) := by
  have hne : (⟨prefixInfo, breakByte⟩ : KeyEncoder) ≠ ⟨1, 2⟩ := by decide
  exact ⟨hne, (instance_keys_isolated_iff _ hne).1.mpr rfl⟩

/-- The info key of an instance lies outside its range and inside another's. -/
theorem info_key_is_foreign :
    ¬ (⟨1, 2⟩ : KeyEncoder).instanceKeyRange.Contains (⟨1, 2⟩ : KeyEncoder).encodeInfoKey ∧
      (⟨73, 96⟩ : KeyEncoder).instanceKeyRange.Contains
        (⟨1, 2⟩ : KeyEncoder).encodeInfoKey := by
  constructor <;> decide

end CardanoIndexer.Timbre
