import CardanoIndexer.Timbre.DecodeKey

/-!
# The record of a block

The encoders of the two keys write the characters `'0'` and `'1'`, the decoders expect the numbers.
-/

namespace CardanoIndexer.Timbre

/-! ## Numbers -/

abbrev U32 := BitVec 32

def uintBytes {w : ℕ} (n : ℕ) (number : BitVec w) : Bytes := Bytes.toBE n number.toNat

def uintAt (w n : ℕ) (bytes : Bytes) (lo : ℕ) : Option (BitVec w) :=
  (arrayAt n bytes lo).map fun array => BitVec.ofNat w (Bytes.ofBE array.toList)

variable {w : ℕ}

@[simp] theorem length_uintBytes (n : ℕ) (number : BitVec w) : (uintBytes n number).length = n :=
  Bytes.length_toBE ..

variable {rest : Bytes} {c : ℕ}

theorem uintAt_of_drop {n lo : ℕ} {bytes : Bytes} {number : BitVec w}
    (h : bytes.drop lo = uintBytes n number ++ rest) (hn : 0 < n) (hw : 2 ^ w ≤ 256 ^ n) :
    uintAt w n bytes lo = some number := by
  have harray : arrayAt n bytes lo = some ⟨(uintBytes n number).toArray, by simp⟩ :=
    arrayAt_of_drop h hn
  have hlt : number.toNat < 256 ^ n := lt_of_lt_of_le number.isLt hw
  rw [uintAt, harray]
  simp only [Option.map_some, Vector.toList, Option.some.injEq]
  rw [uintBytes, Bytes.ofBE_toBE_of_lt hlt, BitVec.ofNat_toNat, BitVec.setWidth_eq]

/-! ## The record -/

structure BlockByHeightValue where
  hash : Hash
  headerBytes : Bytes
  txHashes : List Hash
  size : U32
  output : U128
  fees : U64
  invocations : U32
  mem : U64
  steps : U64
  deriving DecidableEq

def encodeBlockTotals (record : BlockByHeightValue) : Bytes :=
  uintBytes 4 record.size ++ (uintBytes 16 record.output ++ (u64Bytes record.fees ++
    (uintBytes 4 record.invocations ++ (u64Bytes record.mem ++ (u64Bytes record.steps ++
      record.headerBytes)))))

def encodeBlockByHeightValue (record : BlockByHeightValue) : Bytes :=
  record.hash.toList ++ (u16Bytes (BitVec.ofNat 16 record.txHashes.length) ++
    ((record.txHashes.map Vector.toList).flatten ++ encodeBlockTotals record))

def decodeTxHashes (bytes : Bytes) : ℕ → ℕ → Option (List Hash × ℕ)
  | 0, c => some ([], c)
  | count + 1, c => do
    let txHash ← arrayAt 32 bytes c
    let (txHashes, c') ← decodeTxHashes bytes count (c + 32)
    return (txHash :: txHashes, c')

def decodeBlockByHeightValue (bytes : Bytes) : Option BlockByHeightValue := do
  let hash ← arrayAt 32 bytes 0
  let txCount ← u16At bytes 32
  let (txHashes, c) ← decodeTxHashes bytes txCount.toNat (32 + 2)
  let size ← uintAt 32 4 bytes c
  let output ← uintAt 128 16 bytes (c + 4)
  let fees ← u64At bytes (c + 4 + 16)
  let invocations ← uintAt 32 4 bytes (c + 4 + 16 + 8)
  let mem ← u64At bytes (c + 4 + 16 + 8 + 4)
  let steps ← u64At bytes (c + 4 + 16 + 8 + 4 + 8)
  return ⟨hash, bytes.drop (c + 4 + 16 + 8 + 4 + 8 + 8), txHashes, size, output, fees, invocations,
    mem, steps⟩

theorem decodeTxHashes_of_drop {bytes : Bytes} (txHashes : List Hash)
    (h : bytes.drop c = (txHashes.map Vector.toList).flatten ++ rest) :
    decodeTxHashes bytes txHashes.length c = some (txHashes, c + 32 * txHashes.length) := by
  induction txHashes generalizing c with
  | nil => rfl
  | cons txHash txHashes ih =>
    rw [List.map_cons, List.flatten_cons, List.append_assoc] at h
    have hread := ih (drop_of_drop h (length_toList_hash _))
    rw [List.length_cons, decodeTxHashes, arrayAt_of_drop h (by decide), hread]
    simp
    omega

theorem length_of_decodeTxHashes {bytes : Bytes} {count c' : ℕ} {txHashes : List Hash}
    (h : decodeTxHashes bytes count c = some (txHashes, c')) : txHashes.length = count := by
  induction count generalizing c txHashes with
  | zero =>
    cases h
    rfl
  | succ count ih =>
    simp only [decodeTxHashes, Option.bind_eq_bind, Option.bind_eq_some_iff] at h
    obtain ⟨txHash, -, ⟨rest, c''⟩, hrest, heq⟩ := h
    cases heq
    rw [List.length_cons, ih hrest]

theorem blockTotals_of_drop {bytes : Bytes} {record : BlockByHeightValue}
    (h : bytes.drop c = encodeBlockTotals record) :
    uintAt 32 4 bytes c = some record.size ∧ uintAt 128 16 bytes (c + 4) = some record.output ∧
      u64At bytes (c + 4 + 16) = some record.fees ∧
      uintAt 32 4 bytes (c + 4 + 16 + 8) = some record.invocations ∧
      u64At bytes (c + 4 + 16 + 8 + 4) = some record.mem ∧
      u64At bytes (c + 4 + 16 + 8 + 4 + 8) = some record.steps ∧
      bytes.drop (c + 4 + 16 + 8 + 4 + 8 + 8) = record.headerBytes := by
  have houtput := drop_of_drop h (length_uintBytes _ _)
  have hfees := drop_of_drop houtput (length_uintBytes _ _)
  have hinvocations := drop_of_drop hfees (length_u64Bytes _)
  have hmem := drop_of_drop hinvocations (length_uintBytes _ _)
  have hsteps := drop_of_drop hmem (length_u64Bytes _)
  have hheader := drop_of_drop hsteps (length_u64Bytes _)
  exact ⟨uintAt_of_drop h (by decide) (by decide), uintAt_of_drop houtput (by decide) (by decide),
    u64At_of_drop hfees, uintAt_of_drop hinvocations (by decide) (by decide), u64At_of_drop hmem,
    u64At_of_drop hsteps, hheader⟩

theorem u16At_encodeBlockByHeightValue (record : BlockByHeightValue) :
    u16At (encodeBlockByHeightValue record) 32 =
      some (BitVec.ofNat 16 record.txHashes.length) := by
  apply u16At_of_drop
  rw [encodeBlockByHeightValue, List.drop_left' (length_toList_hash _)]

theorem decodeBlockByHeightValue_encode {record : BlockByHeightValue}
    (hcount : record.txHashes.length < 2 ^ 16) :
    decodeBlockByHeightValue (encodeBlockByHeightValue record) = some record := by
  have htxCount := u16At_encodeBlockByHeightValue record
  obtain ⟨bytes, hbytes⟩ : ∃ bytes, encodeBlockByHeightValue record = bytes := ⟨_, rfl⟩
  have hhash : bytes.drop 0 = record.hash.toList ++ (u16Bytes (BitVec.ofNat 16
      record.txHashes.length) ++ ((record.txHashes.map Vector.toList).flatten ++
        encodeBlockTotals record)) := hbytes.symm
  have htxs : bytes.drop (32 + 2) =
      (record.txHashes.map Vector.toList).flatten ++ encodeBlockTotals record :=
    drop_of_drop (drop_of_drop (n := 32) hhash (length_toList_hash _)) (length_u16Bytes _)
  have hflatten : (record.txHashes.map Vector.toList).flatten.length =
      32 * record.txHashes.length := by
    simp [List.length_flatten, Function.comp_def, Nat.mul_comm]
  obtain ⟨hsize, houtput, hfees, hinvocations, hmem, hsteps, hheader⟩ :=
    blockTotals_of_drop (drop_of_drop htxs hflatten)
  have htoNat : (BitVec.ofNat 16 record.txHashes.length).toNat = record.txHashes.length :=
    Nat.mod_eq_of_lt hcount
  rw [hbytes] at htxCount ⊢
  rw [decodeBlockByHeightValue, arrayAt_of_drop hhash (by decide), htxCount]
  simp only [Option.bind_eq_bind, Option.bind_some, htoNat, decodeTxHashes_of_drop _ htxs, hsize,
    houtput, hfees, hinvocations, hmem, hsteps, hheader]
  rfl

theorem length_lt_of_decode_encode {record : BlockByHeightValue}
    (h : decodeBlockByHeightValue (encodeBlockByHeightValue record) = some record) :
    record.txHashes.length < 2 ^ 16 := by
  simp only [decodeBlockByHeightValue, u16At_encodeBlockByHeightValue, Option.bind_eq_bind,
    Option.bind_eq_some_iff] at h
  obtain ⟨_, _, txCount, hcount, ⟨txHashes, c⟩, hread, _, _, _, _, _, _, _, _, _, _, _, _, heq⟩ := h
  have hlength := length_of_decodeTxHashes hread
  have htxHashes : txHashes = record.txHashes :=
    congrArg BlockByHeightValue.txHashes (Option.some.inj heq)
  rw [htxHashes, ← Option.some.inj hcount] at hlength
  rw [hlength]
  exact BitVec.isLt _

/-! ## Keys -/

def decodeBlockByHeightKey (bytes : Bytes) : Option U64 := do
  let tag ← bytes[3]?
  let kind ← bytes[4]?
  if tag = reducerBlockByHeight ∧ kind = 0 then u64At bytes 5 else none

def decodeHeightByBlockHashKey (bytes : Bytes) : Option Hash := do
  let tag ← bytes[3]?
  let kind ← bytes[4]?
  if tag = reducerBlockByHeight ∧ kind = 1 then arrayAt 32 bytes 5 else none

structure BlockByHeightOutput where
  height : U64
  record : BlockByHeightValue

def BlockByHeightOutput.entries (enc : KeyEncoder) (output : BlockByHeightOutput) :
    List (Bytes × Bytes) :=
  [(enc.encodeHeightByBlockHashKey output.record.hash, u64Bytes output.height),
    (enc.encodeBlockByHeightKey output.height, encodeBlockByHeightValue output.record)]

theorem decodeBlockKeys_of_number (enc : KeyEncoder) (height : U64) (hash : Hash) :
    decodeBlockByHeightKey (enc.encodeDataKey reducerBlockByHeight (0 :: u64Bytes height)) =
        some height ∧
      decodeHeightByBlockHashKey (enc.encodeDataKey reducerBlockByHeight (1 :: hash.toList)) =
        some hash := by
  have hheight : u64At (enc.encodeDataKey reducerBlockByHeight (0 :: u64Bytes height)) 5 =
      some height := u64At_of_drop (List.append_nil _).symm
  have hhash : arrayAt 32 (enc.encodeDataKey reducerBlockByHeight (1 :: hash.toList)) 5 =
      some hash := arrayAt_of_drop (List.append_nil _).symm (by decide)
  exact ⟨hheight, hhash⟩

/-- **The record of a block is read back if it has fewer than 65536 transactions; its keys never
are.** -/
theorem block_record_decodes (enc : KeyEncoder) (output : BlockByHeightOutput) :
    (decodeBlockByHeightValue (encodeBlockByHeightValue output.record) = some output.record ↔
      output.record.txHashes.length < 2 ^ 16) ∧
    u64At (u64Bytes output.height) 0 = some output.height ∧
    (∀ entry ∈ output.entries enc,
      decodeBlockByHeightKey entry.1 = none ∧ decodeHeightByBlockHashKey entry.1 = none) ∧
    decodeBlockByHeightKey
        (enc.encodeDataKey reducerBlockByHeight (0 :: u64Bytes output.height)) =
      some output.height ∧
    decodeHeightByBlockHashKey
        (enc.encodeDataKey reducerBlockByHeight (1 :: output.record.hash.toList)) =
      some output.record.hash := by
  refine ⟨⟨length_lt_of_decode_encode, decodeBlockByHeightValue_encode⟩,
    u64At_of_drop (List.append_nil _).symm, ?_, decodeBlockKeys_of_number enc _ _⟩
  intro entry hentry
  simp only [BlockByHeightOutput.entries, List.mem_cons, List.not_mem_nil, or_false] at hentry
  rcases hentry with rfl | rfl <;> exact ⟨rfl, rfl⟩

def crowdedRecord : BlockByHeightValue :=
  ⟨Vector.replicate 32 9, [130], List.replicate 65536 (Vector.replicate 32 7), 4, 0, 0, 0, 0, 0⟩

/-- The keys of a block are not read, and neither is a record of 65536 transactions. -/
theorem block_record_lost :
    decodeBlockByHeightKey ((⟨1, 2⟩ : KeyEncoder).encodeBlockByHeightKey 5) = none ∧
      decodeHeightByBlockHashKey
        ((⟨1, 2⟩ : KeyEncoder).encodeHeightByBlockHashKey (Vector.replicate 32 9)) = none ∧
      decodeBlockByHeightValue (encodeBlockByHeightValue crowdedRecord) ≠ some crowdedRecord := by
  refine ⟨rfl, rfl, fun h => ?_⟩
  have hlength : (List.replicate 65536 (Vector.replicate 32 (7 : Byte))).length < 2 ^ 16 :=
    length_lt_of_decode_encode h
  rw [List.length_replicate] at hlength
  exact absurd hlength (by decide)

end CardanoIndexer.Timbre
