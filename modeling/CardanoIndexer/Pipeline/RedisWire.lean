import CardanoIndexer.TikvGc.Model

/-!
# Cursor entries on the wire

polyphony writes the entries as text, and tikv-gc reads them by a format of its own.
-/

namespace CardanoIndexer.Pipeline.RedisWire

open TikvGc (Timestamp RedisEntry Panic)
open Timbre

/-! ## The writer -/

structure Lowercase where
  toLowercase : String → String
  idempotent : ∀ s, toLowercase (toLowercase s) = toLowercase s
  no_comma : ∀ s : String, ',' ∉ s.toList → ',' ∉ (toLowercase s).toList

structure CommitTs extends Timestamp where
  nonneg : 0 ≤ physical
  physical_lt : physical < 2 ^ 45

structure PublishedEntry where
  slot : U64
  blockHash : Hash
  commitTs : Timestamp
  network : String

def decimal (n : ℕ) : List Char := Nat.toDigits 10 n

def PublishedEntry.toText (lower : Lowercase) (self : PublishedEntry) : Except Panic String := do
  let version ← self.commitTs.version
  return String.ofList (decimal self.slot.toNat ++ ',' :: (Bytes.hex self.blockHash.toList ++
    ",false,".toList ++ decimal version ++ ',' :: ((lower.toLowercase self.network).toList ++
      ',' :: (decimal self.slot.toNat ++ ',' :: (Bytes.hex self.blockHash.toList ++
        ",0".toList)))))

/-! ## The reader -/

structure FullEntry extends RedisEntry where
  chainTipHeight : ℕ
  chainTipHash : Hash
  mempoolViewTs : ℕ
  deriving DecidableEq

def FullEntry.toText (lower : Lowercase) (self : FullEntry) : Except Panic String := do
  let version ← self.commitTs.version
  return String.ofList ([','].intercalate
    [decimal self.height, Bytes.hex self.blockHash.toList,
      if self.wasMempool then "true".toList else "false".toList, decimal version,
      (lower.toLowercase self.network).toList, decimal self.chainTipHeight,
      Bytes.hex self.chainTipHash.toList, decimal self.mempoolViewTs])

def parseU64 (text : List Char) : Option U64 :=
  let digits := if text.head? = some '+' then text.tail else text
  if digits ≠ [] ∧ digits.all Char.isDigit ∧ Nat.ofDigitChars 10 digits 0 < 2 ^ 64 then
    some (BitVec.ofNat 64 (Nat.ofDigitChars 10 digits 0))
  else none

def parseBool (text : List Char) : Option Bool :=
  if text = "true".toList then some true
  else if text = "false".toList then some false
  else none

def parseHash (text : List Char) : Option Hash := do
  let bytes ← Bytes.unhex text
  if h : bytes.length = 32 then some ⟨bytes.toArray, h⟩ else none

def fromVersion (version : U64) : Timestamp :=
  ⟨version.toInt / 2 ^ 18, Fin.ofNat 262144 version.toNat⟩

def parseFields (lower : Lowercase) (fields : List (List Char)) : Option FullEntry := do
  let height ← fields[0]?.bind parseU64
  let blockHash ← fields[1]?.bind parseHash
  let wasMempool ← fields[2]?.bind parseBool
  let version ← fields[3]?.bind parseU64
  let network := lower.toLowercase (String.ofList (fields[4]?.getD []))
  let chainTipHeight ← fields[5]?.elim (some 0) parseU64
  let chainTipHash ← fields[6]?.elim (some (Vector.replicate 32 0)) parseHash
  let mempoolViewTs ← fields[7]?.elim (some 0) parseU64
  return ⟨⟨height.toNat, blockHash, wasMempool, fromVersion version, network⟩,
    chainTipHeight.toNat, chainTipHash, mempoolViewTs.toNat⟩

inductive RedisValue where
  | simpleString (text : String)
  | bulkString (bytes : ByteArray)
  | other

inductive ReadError where
  | typeError
  | panic
  deriving DecidableEq

def parseText (lower : Lowercase) (text : String) : Except ReadError FullEntry :=
  match parseFields lower (text.toList.splitOn ',') with
  | some entry => .ok entry
  | none => .error .panic

def fromRedisValue (lower : Lowercase) : RedisValue → Except ReadError FullEntry
  | .simpleString text => parseText lower text
  | .bulkString bytes => match String.fromUTF8? bytes with
      | some text => parseText lower text
      | none => .error .panic
  | .other => .error .typeError

/-! ## Fields are read back -/

variable {c : Char}

theorem not_mem_decimal (hc : c.isDigit = false) (n : ℕ) : c ∉ decimal n := by
  intro hmem
  have hdigit := Nat.isDigit_of_mem_toDigits (by decide) (by decide) hmem
  rw [hc] at hdigit
  cases hdigit

theorem parseU64_decimal (n : U64) : parseU64 (decimal n.toNat) = some n := by
  have hplus : (decimal n.toNat).head? ≠ some '+' := fun hhead =>
    not_mem_decimal (by decide) _ (List.mem_of_head? hhead)
  have hdigits : (decimal n.toNat).all Char.isDigit = true := List.all_eq_true.mpr fun c hc =>
    Nat.isDigit_of_mem_toDigits (by decide) (by decide) hc
  have hvalue : Nat.ofDigitChars 10 (decimal n.toNat) 0 = n.toNat := Nat.ofDigitChars_ten_toDigits
  unfold parseU64
  rw [if_neg hplus, if_pos ⟨Nat.toDigits_ne_nil, hdigits, by rw [hvalue]; exact n.isLt⟩, hvalue,
    BitVec.ofNat_toNat, BitVec.setWidth_eq]

theorem parseHash_hex (hash : Hash) : parseHash (Bytes.hex hash.toList) = some hash := by
  unfold parseHash
  rw [Bytes.unhex_hex]
  simp [Vector.toList]

theorem not_mem_hex (hc : Bytes.hexValue c = none) (bytes : Bytes) : c ∉ Bytes.hex bytes := by
  intro hmem
  obtain ⟨byte, -, hdigit⟩ := List.mem_flatMap.mp hmem
  have hbyte : byte.val < 256 := byte.isLt
  rcases List.mem_pair.mp hdigit with rfl | rfl
  · rw [Bytes.hexValue_digitChar (by omega)] at hc
    cases hc
  · rw [Bytes.hexValue_digitChar (by omega)] at hc
    cases hc

theorem exists_version (ts : CommitTs) : ∃ version : U64,
    ts.version = .ok version.toNat ∧ fromVersion version = ts.toTimestamp := by
  obtain ⟨⟨physical, logical⟩, hnonneg, hlt⟩ := ts
  have hlogical := logical.isLt
  obtain ⟨n, hn⟩ : ∃ n : ℕ, physical = n := ⟨physical.toNat, (Int.toNat_of_nonneg hnonneg).symm⟩
  have hn' : n < 2 ^ 45 := by
    simp only at hlt
    omega
  have hversion : (BitVec.ofNat 64 (n * 262144 + logical.val)).toNat =
      n * 262144 + logical.val := by
    rw [BitVec.toNat_ofNat]
    omega
  refine ⟨BitVec.ofNat 64 (n * 262144 + logical.val), ?_, ?_⟩
  · subst hn
    rw [hversion, Timestamp.version]
    simp only
    rw [if_neg (by omega)]
    congr 1
  · have hint : (BitVec.ofNat 64 (n * 262144 + logical.val)).toInt = n * 262144 + logical.val := by
      rw [BitVec.toInt_eq_toNat_of_lt (by rw [hversion]; omega), hversion]
      omega
    unfold fromVersion
    rw [hint, hversion]
    congr 1
    · omega
    · apply Fin.ext
      show (n * 262144 + logical.val) % 262144 = logical.val
      omega

/-! ## The format is shared -/

def wireFields (lower : Lowercase) (slot : U64) (blockHash : Hash) (version : ℕ)
    (network : String) : List (List Char) :=
  [decimal slot.toNat, Bytes.hex blockHash.toList, "false".toList, decimal version,
    (lower.toLowercase network).toList, decimal slot.toNat, Bytes.hex blockHash.toList, decimal 0]

section

variable {lower : Lowercase} {slot : U64} {blockHash : Hash} {version : ℕ} {network : String}
  {ts : Timestamp}

theorem no_comma_wireFields (h : ',' ∉ network.toList) :
    ∀ field ∈ wireFields lower slot blockHash version network, ',' ∉ field := by
  have hdecimal : ∀ n, ',' ∉ decimal n := not_mem_decimal (by decide)
  have hhex : ∀ bytes, ',' ∉ Bytes.hex bytes := not_mem_hex (by decide)
  intro field hfield
  simp only [wireFields, List.mem_cons, List.not_mem_nil, or_false] at hfield
  rcases hfield with rfl | rfl | rfl | rfl | rfl | rfl | rfl | rfl
  · exact hdecimal _
  · exact hhex _
  · decide
  · exact hdecimal _
  · exact lower.no_comma network h
  · exact hdecimal _
  · exact hhex _
  · exact hdecimal _

theorem published_toText (hversion : ts.version = .ok version) :
    PublishedEntry.toText lower ⟨slot, blockHash, ts, network⟩ =
      .ok (String.ofList ([','].intercalate (wireFields lower slot blockHash version network))) := by
  have hzero : decimal 0 = ['0'] := rfl
  rw [PublishedEntry.toText, hversion]
  simp [wireFields, List.intercalate, hzero]

def wireEntry (lower : Lowercase) (slot : U64) (blockHash : Hash) (ts : Timestamp)
    (network : String) : FullEntry where
  height := slot.toNat
  blockHash := blockHash
  wasMempool := false
  commitTs := ts
  network := lower.toLowercase network
  chainTipHeight := slot.toNat
  chainTipHash := blockHash
  mempoolViewTs := 0

theorem parseFields_wireFields {version : U64} :
    parseFields lower (wireFields lower slot blockHash version.toNat network) =
      some (wireEntry lower slot blockHash (fromVersion version) network) := by
  have hfalse : parseBool ['f', 'a', 'l', 's', 'e'] = some false := by decide
  have hzero : parseU64 (decimal 0) = some 0 := parseU64_decimal 0
  simp [parseFields, wireFields, wireEntry, parseU64_decimal, parseHash_hex, hfalse, hzero,
    lower.idempotent]

theorem wireEntry_toText (hversion : ts.version = .ok version) :
    (wireEntry lower slot blockHash ts network).toText lower =
      .ok (String.ofList ([','].intercalate (wireFields lower slot blockHash version network))) := by
  rw [FullEntry.toText, show (wireEntry lower slot blockHash ts network).commitTs = ts from rfl,
    hversion]
  simp [wireFields, wireEntry, lower.idempotent]

end

theorem fromUTF8?_toUTF8 (text : String) : String.fromUTF8? text.toUTF8 = some text :=
  dif_pos text.isValidUTF8

/-- **The format of the entries is shared**: what polyphony writes, tikv-gc reads. -/
theorem redis_format_shared (lower : Lowercase) (slot : U64) (blockHash : Hash) (ts : CommitTs)
    (network : String) (hcomma : ',' ∉ network.toList) :
    ∃ text, PublishedEntry.toText lower ⟨slot, blockHash, ts.toTimestamp, network⟩ = .ok text ∧
      ∃ entry, fromRedisValue lower (.simpleString text) = .ok entry ∧
        fromRedisValue lower (.bulkString text.toUTF8) = .ok entry ∧
        entry.height = slot.toNat ∧ entry.blockHash = blockHash ∧ entry.wasMempool = false ∧
        entry.commitTs = ts.toTimestamp ∧ entry.network = lower.toLowercase network ∧
        entry.chainTipHeight = slot.toNat ∧ entry.chainTipHash = blockHash ∧
        entry.toText lower = .ok text := by
  obtain ⟨version, hversion, hback⟩ := exists_version ts
  have hparse : parseText lower (String.ofList ([','].intercalate
      (wireFields lower slot blockHash version.toNat network))) =
        .ok (wireEntry lower slot blockHash ts.toTimestamp network) := by
    rw [parseText, String.toList_ofList,
      List.splitOn_intercalate ',' (no_comma_wireFields hcomma) (by simp [wireFields]),
      parseFields_wireFields, hback]
  refine ⟨_, published_toText hversion, wireEntry lower slot blockHash ts.toTimestamp network,
    hparse, ?_, rfl, rfl, rfl, rfl, rfl, rfl, rfl, wireEntry_toText hversion⟩
  rw [fromRedisValue, fromUTF8?_toUTF8]
  exact hparse

theorem toNat_toLower (c : Char) : c.toLower.toNat =
    if 65 ≤ c.toNat ∧ c.toNat ≤ 90 then c.toNat + 32 else c.toNat := by
  have hupper : (c.val ≥ 'A'.val ∧ c.val ≤ 'Z'.val) ↔ 65 ≤ c.toNat ∧ c.toNat ≤ 90 := Iff.rfl
  unfold Char.toLower
  by_cases h : 65 ≤ c.toNat ∧ c.toNat ≤ 90
  · rw [dif_pos (hupper.mpr h), if_pos h]
    show (c.val + 32).toNat = c.toNat + 32
    rw [UInt32.toNat_add]
    show (c.toNat + 32) % 2 ^ 32 = _
    omega
  · rw [dif_neg (fun h' => h (hupper.mp h')), if_neg h]

def asciiLowercase : Lowercase where
  toLowercase s := String.ofList (s.toList.map Char.toLower)
  idempotent s := by
    have hchar : ∀ c : Char, c.toLower.toLower = c.toLower := by
      intro c
      apply Char.toNat_inj.mp
      rw [toNat_toLower, toNat_toLower]
      split_ifs <;> omega
    simp [Function.comp_def, hchar]
  no_comma s h := by
    rw [String.toList_ofList, List.mem_map]
    rintro ⟨c, hc, hlower⟩
    have hnat := toNat_toLower c
    rw [hlower] at hnat
    have hcomma : c = ',' := by
      apply Char.toNat_inj.mp
      change 44 = _ at hnat
      show c.toNat = 44
      split_ifs at hnat <;> omega
    exact h (hcomma ▸ hc)

theorem redis_format_shared_preview :
    ∃ text, PublishedEntry.toText asciiLowercase
        ⟨1234, Vector.replicate 32 171, ⟨1, 42⟩, "Preview"⟩ = .ok text ∧
      ∃ entry, fromRedisValue asciiLowercase (.bulkString text.toUTF8) = .ok entry ∧
        entry.commitTs = ⟨1, 42⟩ ∧ entry.toText asciiLowercase = .ok text := by
  obtain ⟨text, htext, entry, -, hbulk, -, -, -, hts, -, -, -, hback⟩ :=
    redis_format_shared asciiLowercase 1234 (Vector.replicate 32 171)
      ⟨⟨1, 42⟩, by decide, by decide⟩ "Preview" (by decide)
  exact ⟨text, htext, entry, hbulk, hts, hback⟩

end CardanoIndexer.Pipeline.RedisWire
