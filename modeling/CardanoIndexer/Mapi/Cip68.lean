import CardanoIndexer.Mapi.Metadata
import CardanoIndexer.Mapi.PolicyHolders

/-!
# CIP-68 metadata

The metadata of an asset is the datum of the output that holds its reference token.
-/

namespace CardanoIndexer.Mapi

open Timbre

/-! ## Datums -/

inductive PlutusData where
  | constr (tag : U64) (anyConstructor : Option U64) (fields : List PlutusData)
  | map (kvs : List (PlutusData × PlutusData))
  | bigInt (i : MetadatumInt)
  | bigUInt (i : Bytes)
  | bigNInt (i : Bytes)
  | boundedBytes (b : Bytes)
  | array (a : List PlutusData)

inductive DatumOption where
  | hash (h : Hash)
  | data (d : PlutusData)

structure ReferenceTx where
  producesAt : ℕ → Option (Option DatumOption)
  findPlutusData : Hash → Option PlutusData

structure Cip68Env (τ : Type) extends Env τ where
  fromUtf8 : Bytes → Option Text
  encodeFragment : PlutusData → Bytes
  getTxBytes : Text → Except LookupFailure Bytes
  decodeTx : Bytes → Option ReferenceTx

variable {τ : Type} (env : Cip68Env τ) {name : Bytes}

def bytesText (b : Bytes) : Text := (env.fromUtf8 b).getD (Bytes.hex b)

def keyText : PlutusData → Option (Text × Bool)
  | .boundedBytes b => some (bytesText env b, (env.fromUtf8 b).isNone)
  | _ => none

local instance lawfulBEqText : LawfulBEq Text := inferInstance

mutual

def plutusDataToJson (encodeHex : Bool) : PlutusData → Option Json
  | .array a => (plutusArrayToJson encodeHex a).map .array
  | .map kvs => (plutusMapToJson kvs []).map .object
  | .bigInt i => some (.string (decimal i.val))
  | .boundedBytes b => some (.string (if encodeHex then Bytes.hex b else bytesText env b))
  | .constr tag anyConstructor fields =>
    some (.string (Bytes.hex (env.encodeFragment (.constr tag anyConstructor fields))))
  | .bigUInt i => some (.string (Bytes.hex (env.encodeFragment (.boundedBytes i))))
  | .bigNInt i => some (.string (Bytes.hex (env.encodeFragment (.boundedBytes i))))

def plutusArrayToJson (encodeHex : Bool) : List PlutusData → Option (List Json)
  | [] => some []
  | x :: rest => do
    let item ← plutusDataToJson encodeHex x
    let items ← plutusArrayToJson encodeHex rest
    return item :: items

def plutusMapToJson : List (PlutusData × PlutusData) → List (Text × Json) →
    Option (List (Text × Json))
  | [], serdeMap => some serdeMap
  | (k, v) :: rest, serdeMap => do
    let key ← keyText env k
    let value ← plutusDataToJson key.2 v
    if key.1 ∈ serdeMap.map Prod.fst then none
    else plutusMapToJson rest (insertField key.1 value serdeMap)

end

/-! ## Metadata -/

inductive Cip68AssetType where
  | referenceNft
  | userNft
  | userFt
  deriving DecidableEq

structure Cip68Metadata where
  purpose : Cip68AssetType
  version : U64
  metadata : Json
  extra : Option Text

structure SeenFields where
  serdeMap : List (Text × Json)
  nameSeen : Bool
  imageSeen : Bool
  descriptionSeen : Bool

def SeenFields.start : SeenFields := ⟨[], false, false, false⟩

def addField (seen : SeenFields) (kv : PlutusData × PlutusData) : Option SeenFields := do
  let key ← keyText env kv.1
  let value ← plutusDataToJson env key.2 kv.2
  if key.1 ∈ seen.serdeMap.map Prod.fst then none
  else return {
    serdeMap := insertField key.1 value seen.serdeMap
    nameSeen := seen.nameSeen || key.1 = "name".toList
    imageSeen := seen.imageSeen || key.1 = "image".toList
    descriptionSeen := seen.descriptionSeen || key.1 = "description".toList }

def SeenFields.conforms (seen : SeenFields) : Cip68AssetType → Bool
  | .referenceNft => true
  | .userNft => seen.nameSeen && seen.imageSeen
  | .userFt => seen.nameSeen && seen.descriptionSeen

def mapOf : PlutusData → Option (List (PlutusData × PlutusData))
  | .map m => some m
  | _ => none

def versionOf : PlutusData → Option U64
  | .bigInt v => if v.val < 0 then none else some (BitVec.ofInt 64 v.val)
  | _ => none

def cip68OfDatum (tokenType : Cip68AssetType) : PlutusData → Option Cip68Metadata
  | .constr tag _ fields =>
    if tag ≠ 121 then none
    else do
      let pdMetadata ← fields[0]?.bind mapOf
      let version ← fields[1]?.bind versionOf
      let seen ← pdMetadata.foldlM (addField env) .start
      if seen.conforms tokenType then
        return ⟨tokenType, version, .object seen.serdeMap,
          fields[2]?.map fun x => Bytes.hex (env.encodeFragment x)⟩
      else none
  | _ => none

/-! ## Lookups -/

def referenceTag : Bytes := [0x00, 0x06, 0x43, 0xb0]

def tokenTypeOf (assetName : Bytes) : Option Cip68AssetType :=
  if assetName.length < 4 then none
  else if assetName.take 4 = referenceTag then some .referenceNft
  else if assetName.take 4 = [0x00, 0x0d, 0xe1, 0x40] then some .userNft
  else if assetName.take 4 = [0x00, 0x14, 0xdf, 0x10] then some .userFt
  else none

def referenceNftName (assetName : Bytes) : Cip68AssetType → Bytes
  | .referenceNft => assetName
  | _ => referenceTag ++ assetName.drop 4

def readPolicyKv (kv : Entry) : Except Failure ((Hash × U64) × List (Bytes × U64)) := do
  let decodedKey ← orPanic (decodeKey env.byronFromBytes kv.1)
  match decodedKey with
  | .reducer _ _ (.policyUtxos key) => do
    let value ← orPanic (decodeUtxosByPolicyValue env.byronFromBytes kv.2)
    return ((key.utxoHash, key.utxoIndex), value.2)
  | _ => throw .internalServerError

def findReferences (name : Bytes) (utxos : List (Hash × U64)) :
    List Entry → Except Failure (Option (List (Hash × U64)))
  | [] => .ok (some utxos)
  | kv :: rest => do
    let (txoRef, assetsList) ← readPolicyKv env kv
    -- the inner loop ends at the first asset of that name
    match assetsList.lookup name with
    | none => findReferences name utxos rest
    | some amount =>
      let utxos := utxos ++ [txoRef]
      if utxos.length = 2 then return none
      else if 1 < amount.toNat then return none
      else findReferences name utxos rest

def referenceDatum (txoRef : Hash × U64) : Except LookupFailure (Option PlutusData) := do
  let cbor ← env.getTxBytes (Bytes.hex txoRef.1.toList)
  let tx ← asRequest (orInternal (env.decodeTx cbor))
  match tx.producesAt txoRef.2.toNat with
  | none => throw .notFound
  | some none => return none
  | some (some (.data d)) => return some d
  | some (some (.hash h)) => return tx.findPlutusData h

def cip68OfKvs (assetName : Bytes) (tokenType : Cip68AssetType) (kvs : List Entry) :
    Except LookupFailure (Option Cip68Metadata) := do
  let utxos ← asRequest (findReferences env (referenceNftName assetName tokenType) [] kvs)
  match utxos.bind List.head? with
  | none => return none
  | some txoRef => do
    let datumData ← referenceDatum env txoRef
    return datumData.bind (cip68OfDatum env tokenType)

def tryParseCip68MetadataFromPolicyUtxos (policyUtxoKvs : List Entry) (assetName : Bytes) :
    Except LookupFailure (Option Cip68Metadata) :=
  match tokenTypeOf assetName with
  | none => .ok none
  | some tokenType => cip68OfKvs env assetName tokenType policyUtxoKvs

def tryFetchCip68Metadata (utxosByPolicy : Option KeyEncoder) (store : Store) (attempts : Attempts)
    (policy : Hash28) (assetName : Bytes) : Except LookupFailure (Option Cip68Metadata) :=
  match tokenTypeOf assetName with
  | none => .ok none
  | some tokenType => do
    let encoder ← asRequest (orInternal utxosByPolicy)
    let kvs ← asRequest
      (batchScanEntireRange store (encoder.encodePolicyUtxosRange policy none none) attempts)
    cip68OfKvs env assetName tokenType kvs

/-! ## What is shown is well formed -/

inductive StandsIn (x : PlutusData) : PlutusData → Prop
  | here : StandsIn x x
  | element {a : List PlutusData} {y : PlutusData} (hy : y ∈ a) (h : StandsIn x y) :
      StandsIn x (.array a)
  | value {kvs : List (PlutusData × PlutusData)} {kv : PlutusData × PlutusData} (hkv : kv ∈ kvs)
      (h : StandsIn x kv.2) : StandsIn x (.map kvs)

def KeysFit (kvs : List (PlutusData × PlutusData)) : Prop :=
  (∀ kv ∈ kvs, ∃ b, kv.1 = .boundedBytes b) ∧
    (kvs.map fun kv => (keyText env kv.1).map Prod.fst).Nodup

def requiredFields : Cip68AssetType → List Text
  | .referenceNft => []
  | .userNft => ["name".toList, "image".toList]
  | .userFt => ["name".toList, "description".toList]

def IsCip68Datum (tokenType : Cip68AssetType) (datum : PlutusData) : Prop :=
  ∃ anyConstructor fields kvs, datum = .constr 121 anyConstructor fields ∧
    fields[0]? = some (.map kvs) ∧
    (∀ inner, StandsIn (.map inner) (.map kvs) → KeysFit env inner) ∧
    ∀ field ∈ requiredFields tokenType, ∃ b, bytesText env b = field ∧
      .boundedBytes b ∈ kvs.map Prod.fst

section WellFormed

variable {env} {fields serdeMap : List (Text × Json)} {kvs : List (PlutusData × PlutusData)}
  {tokenType : Cip68AssetType} {seen : SeenFields} {encodeHex : Bool}

theorem exists_of_keyText {k : PlutusData} {key : Text × Bool} (h : keyText env k = some key) :
    ∃ b, k = .boundedBytes b ∧ key.1 = bytesText env b := by
  cases k with
  | boundedBytes b =>
    cases h
    exact ⟨b, rfl, rfl⟩
  | constr | map | bigInt | bigUInt | bigNInt | array => cases h

theorem mem_insertField {key other : Text} {value : Json} :
    other ∈ (insertField key value fields).map Prod.fst ↔
      other = key ∨ other ∈ fields.map Prod.fst := by
  fun_induction insertField key value fields with
  | case1 => simp
  | case2 field rest heq => simp [heq]
  | case3 field rest hne ih =>
    rw [List.map_cons, List.mem_cons, ih, List.map_cons, List.mem_cons]
    tauto

structure Converts (env : Cip68Env τ) (serdeMap : List (Text × Json))
    (kv : PlutusData × PlutusData) (key : Text × Bool) (value : Json) : Prop where
  keyText_eq : keyText env kv.1 = some key
  toJson_eq : plutusDataToJson env key.2 kv.2 = some value
  fresh : key.1 ∉ serdeMap.map Prod.fst

theorem exists_converts_of_cons {kv : PlutusData × PlutusData}
    {rest : List (PlutusData × PlutusData)}
    (h : plutusMapToJson env (kv :: rest) serdeMap = some fields) : ∃ key value,
      Converts env serdeMap kv key value ∧
        plutusMapToJson env rest (insertField key.1 value serdeMap) = some fields := by
  rw [plutusMapToJson] at h
  obtain ⟨key, hkey, h⟩ := Option.bind_eq_some_iff.mp h
  obtain ⟨value, hvalue, h⟩ := Option.bind_eq_some_iff.mp h
  split at h
  · cases h
  case isFalse hfresh => exact ⟨key, value, ⟨hkey, hvalue, hfresh⟩, h⟩

theorem map_converts (h : plutusMapToJson env kvs serdeMap = some fields) :
    (∀ kv ∈ kvs, ∃ key value, Converts env serdeMap kv key value) ∧
      (kvs.map fun kv => (keyText env kv.1).map Prod.fst).Nodup ∧
      ∀ text ∈ fields.map Prod.fst, text ∈ serdeMap.map Prod.fst ∨
        ∃ kv ∈ kvs, (keyText env kv.1).map Prod.fst = some text := by
  induction kvs generalizing serdeMap with
  | nil =>
    rw [plutusMapToJson] at h
    cases h
    simp
  | cons kv rest ih =>
    obtain ⟨key, value, hconverts, hrest⟩ := exists_converts_of_cons h
    obtain ⟨hall, hnodup, hfields⟩ := ih hrest
    refine ⟨?_, List.nodup_cons.mpr ⟨fun hmem => ?_, hnodup⟩, fun text htext => ?_⟩
    · intro other hother
      rcases List.mem_cons.mp hother with rfl | hother
      · exact ⟨key, value, hconverts⟩
      · obtain ⟨key', value', hkey', hvalue', hfresh⟩ := hall other hother
        exact ⟨key', value', hkey', hvalue', fun hmem => hfresh (mem_insertField.mpr (.inr hmem))⟩
    · obtain ⟨other, hother, htext⟩ := List.mem_map.mp hmem
      obtain ⟨key', value', hkey', -, hfresh⟩ := hall other hother
      simp only [hconverts.keyText_eq, hkey'] at htext
      exact hfresh (mem_insertField.mpr (.inl (Option.some.inj htext)))
    · rcases hfields text htext with htext | ⟨other, hother, htext⟩
      · rcases mem_insertField.mp htext with rfl | htext
        · exact .inr ⟨kv, List.mem_cons_self, by rw [hconverts.keyText_eq]; rfl⟩
        · exact .inl htext
      · exact .inr ⟨other, List.mem_cons_of_mem _ hother, htext⟩

theorem exists_json_of_mem {a : List PlutusData} {items : List Json}
    (h : plutusArrayToJson env encodeHex a = some items) {x : PlutusData} (hx : x ∈ a) :
    ∃ json, plutusDataToJson env encodeHex x = some json := by
  induction a generalizing items with
  | nil => cases hx
  | cons y rest ih =>
    rw [plutusArrayToJson] at h
    obtain ⟨item, hitem, h⟩ := Option.bind_eq_some_iff.mp h
    obtain ⟨items, hitems, -⟩ := Option.bind_eq_some_iff.mp h
    rcases List.mem_cons.mp hx with rfl | hx
    · exact ⟨item, hitem⟩
    · exact ih hitems hx

theorem keysFit_of_toJson {inner : List (PlutusData × PlutusData)} {pd : PlutusData}
    (hin : StandsIn (.map inner) pd) {json : Json}
    (h : plutusDataToJson env encodeHex pd = some json) : KeysFit env inner := by
  induction hin generalizing encodeHex json with
  | here =>
    rw [plutusDataToJson] at h
    obtain ⟨fields, hfields, -⟩ := Option.map_eq_some_iff.mp h
    obtain ⟨hall, hnodup, -⟩ := map_converts hfields
    refine ⟨fun kv hkv => ?_, hnodup⟩
    obtain ⟨key, value, hconverts⟩ := hall kv hkv
    obtain ⟨b, hb, -⟩ := exists_of_keyText hconverts.keyText_eq
    exact ⟨b, hb⟩
  | element hy _ ih =>
    rw [plutusDataToJson] at h
    obtain ⟨items, hitems, -⟩ := Option.map_eq_some_iff.mp h
    obtain ⟨json, hjson⟩ := exists_json_of_mem hitems hy
    exact ih hjson
  | value hkv _ ih =>
    rw [plutusDataToJson] at h
    obtain ⟨fields, hfields, -⟩ := Option.map_eq_some_iff.mp h
    obtain ⟨key, value, hconverts⟩ := (map_converts hfields).1 _ hkv
    exact ih hconverts.toJson_eq

structure SeenFields.Sound (seen : SeenFields) : Prop where
  name : seen.nameSeen = true → "name".toList ∈ seen.serdeMap.map Prod.fst
  image : seen.imageSeen = true → "image".toList ∈ seen.serdeMap.map Prod.fst
  description : seen.descriptionSeen = true → "description".toList ∈ seen.serdeMap.map Prod.fst

theorem SeenFields.sound_start : start.Sound := by
  constructor <;> exact fun h => by cases h

theorem toJson_of_foldlM {seen' : SeenFields} (hsound : seen.Sound)
    (h : kvs.foldlM (addField env) seen = some seen') :
    plutusMapToJson env kvs seen.serdeMap = some seen'.serdeMap ∧ seen'.Sound := by
  induction kvs generalizing seen with
  | nil =>
    cases h
    exact ⟨by rw [plutusMapToJson], hsound⟩
  | cons kv rest ih =>
    rw [List.foldlM_cons] at h
    obtain ⟨mid, hmid, hrest⟩ := Option.bind_eq_some_iff.mp h
    obtain ⟨key, hkey, hmid⟩ := Option.bind_eq_some_iff.mp hmid
    obtain ⟨value, hvalue, hmid⟩ := Option.bind_eq_some_iff.mp hmid
    split at hmid
    · cases hmid
    case isFalse hfresh =>
      cases hmid
      have hflag : ∀ {flag : Bool} {text : Text},
          (flag = true → text ∈ seen.serdeMap.map Prod.fst) →
            (flag || decide (key.1 = text)) = true →
              text ∈ (insertField key.1 value seen.serdeMap).map Prod.fst := by
        intro flag text hold hset
        rw [Bool.or_eq_true, decide_eq_true_eq] at hset
        exact mem_insertField.mpr (hset.elim (fun hset => .inr (hold hset)) fun heq => .inl heq.symm)
      obtain ⟨hmap, hsound'⟩ :=
        ih ⟨hflag hsound.name, hflag hsound.image, hflag hsound.description⟩ hrest
      refine ⟨?_, hsound'⟩
      rw [plutusMapToJson, hkey, Option.bind_eq_bind, Option.bind_some, hvalue, Option.bind_eq_bind,
        Option.bind_some, if_neg hfresh]
      exact hmap

theorem SeenFields.Sound.mem_of_conforms (hsound : seen.Sound) (h : seen.conforms tokenType = true)
    {field : Text} (hfield : field ∈ requiredFields tokenType) :
    field ∈ seen.serdeMap.map Prod.fst := by
  cases tokenType with
  | referenceNft => cases hfield
  | userNft =>
    obtain ⟨hname, himage⟩ := Bool.and_eq_true_iff.mp h
    rcases List.mem_pair.mp hfield with rfl | rfl
    · exact hsound.name hname
    · exact hsound.image himage
  | userFt =>
    obtain ⟨hname, hdescription⟩ := Bool.and_eq_true_iff.mp h
    rcases List.mem_pair.mp hfield with rfl | rfl
    · exact hsound.name hname
    · exact hsound.description hdescription

theorem isCip68Datum_of_eq_some {datum : PlutusData} {metadata : Cip68Metadata}
    (h : cip68OfDatum env tokenType datum = some metadata) : IsCip68Datum env tokenType datum := by
  cases datum with
  | constr tag anyConstructor fields =>
    rw [cip68OfDatum] at h
    split at h
    · cases h
    case isFalse htag =>
      obtain ⟨kvs, hkvs, h⟩ := Option.bind_eq_some_iff.mp h
      obtain ⟨version, -, h⟩ := Option.bind_eq_some_iff.mp h
      obtain ⟨seen, hseen, h⟩ := Option.bind_eq_some_iff.mp h
      split at h
      case isFalse => cases h
      case isTrue hconforms =>
        have hfirst : fields[0]? = some (.map kvs) := by
          obtain ⟨first, hfirst, hmap⟩ := Option.bind_eq_some_iff.mp hkvs
          cases first <;> cases hmap
          exact hfirst
        obtain ⟨hmap, hsound⟩ := toJson_of_foldlM SeenFields.sound_start hseen
        have hjson : plutusDataToJson env false (.map kvs) = some (.object seen.serdeMap) := by
          rw [plutusDataToJson]
          exact congrArg (Option.map Json.object) hmap
        refine ⟨anyConstructor, fields, kvs, by rw [not_not.mp htag], hfirst,
          fun inner hin => keysFit_of_toJson hin hjson, fun field hfield => ?_⟩
        obtain hnil | ⟨kv, hkv, htext⟩ :=
          (map_converts hmap).2.2 field (hsound.mem_of_conforms hconforms hfield)
        · cases hnil
        · obtain ⟨key, hkey, rfl⟩ := Option.map_eq_some_iff.mp htext
          obtain ⟨b, hb, htext⟩ := exists_of_keyText hkey
          exact ⟨b, htext.symm, List.mem_map.mpr ⟨kv, hkv, hb⟩⟩
  | map | bigInt | bigUInt | bigNInt | boundedBytes | array => cases h

end WellFormed

/-! ## The order of the UTxOs -/

structure HeldUtxo where
  item : UtxosByAddressCursor
  owner : Address
  assets : List (ShortBytes × U64)

namespace HeldUtxo

def amount (name : Bytes) (utxo : HeldUtxo) : Option U64 :=
  (utxo.assets.map fun asset => (asset.1.bytes, asset.2)).lookup name

def txoRef (utxo : HeldUtxo) : Hash × U64 := (utxo.item.uHash, utxo.item.uIndex)

def value (blake2b : Bytes → Hash) (utxo : HeldUtxo) : Bytes :=
  encodeUtxosByPolicyValue blake2b utxo.owner utxo.assets

def entry (enc : KeyEncoder) (blake2b : Bytes → Hash) (policy : Hash28) (utxo : HeldUtxo) : Entry :=
  (((UtxoOwner.policy policy).key utxo.item).encode enc blake2b, utxo.value blake2b)

end HeldUtxo

structure HoldsAll (env : Env τ) (blake2b : Bytes → Hash) (store : Store) (encoder : KeyEncoder)
    (policy : Hash28) (utxos : List HeldUtxo) : Prop extends IsStore env blake2b store where
  nodup : (utxos.map HeldUtxo.item).Nodup
  get_iff : ∀ {item v},
    store.get (((UtxoOwner.policy policy).key item).encode encoder blake2b) = some v ↔
      ∃ utxo ∈ utxos, utxo.item = item ∧ v = utxo.value blake2b

def referenceUtxo (name : Bytes) (utxos : List HeldUtxo) : Option HeldUtxo :=
  match utxos.filter fun utxo => (utxo.amount name).isSome with
  | [utxo] => if (utxo.amount name).any (·.toNat ≤ 1) then some utxo else none
  | _ => none

variable {utxos : List HeldUtxo}

theorem referenceUtxo_eq_some_iff {utxo : HeldUtxo} :
    referenceUtxo name utxos = some utxo ↔
      (utxos.filter fun utxo => (utxo.amount name).isSome) = [utxo] ∧
        (utxo.amount name).any (·.toNat ≤ 1) = true := by
  rw [referenceUtxo]
  split
  case h_1 only hfilter =>
    rw [hfilter, List.singleton_inj]
    by_cases hone : (only.amount name).any (·.toNat ≤ 1) = true
    · rw [if_pos hone, Option.some.injEq]
      exact ⟨fun heq => ⟨heq, heq ▸ hone⟩, fun h => h.1⟩
    · rw [if_neg hone]
      exact iff_of_false (fun h => by cases h) fun h => absurd (h.1 ▸ h.2) hone
  case h_2 hother =>
    exact iff_of_false (fun h => by cases h) fun h => absurd h.1 (hother utxo)

theorem referenceUtxo_perm {listed : List HeldUtxo} (hperm : listed.Perm utxos) :
    referenceUtxo name listed = referenceUtxo name utxos := by
  have hfilter := hperm.filter fun utxo => (utxo.amount name).isSome
  refine Option.ext fun utxo => ?_
  rw [referenceUtxo_eq_some_iff, referenceUtxo_eq_some_iff, ← List.perm_singleton,
    ← List.perm_singleton]
  exact and_congr_left fun _ => ⟨hfilter.symm.trans, hfilter.trans⟩

/-! ## Entries -/

section Entries

variable {env}
  (hbyron : ∀ address : ByronAddress, env.byronFromBytes address.toVec = some address)
  (encoder : KeyEncoder) (blake2b : Bytes → Hash) (policy : Hash28)

include hbyron

theorem readPolicyKv_entry (utxo : HeldUtxo) :
    readPolicyKv env (utxo.entry encoder blake2b policy) =
      .ok (utxo.txoRef, utxo.assets.map fun asset => (asset.1.bytes, asset.2)) := by
  have hkey : decodeKey env.byronFromBytes
      (((UtxoOwner.policy policy).key utxo.item).encode encoder blake2b) = _ :=
    decodeKey_encode hbyron blake2b encoder _
  have hvalue := decodeUtxosByPolicyValue_encode hbyron blake2b utxo.owner utxo.assets
  rw [readPolicyKv, HeldUtxo.entry, hkey]
  change (orPanic (decodeUtxosByPolicyValue _ (utxo.value blake2b)) >>= _) = _
  rw [HeldUtxo.value, hvalue]
  rfl

theorem findReferences_cons (name : Bytes) (found : List (Hash × U64)) (utxo : HeldUtxo)
    (rest : List Entry) :
    findReferences env name found (utxo.entry encoder blake2b policy :: rest) =
      match utxo.amount name with
      | none => findReferences env name found rest
      | some amount =>
        if (found ++ [utxo.txoRef]).length = 2 then .ok none
        else if 1 < amount.toNat then .ok none
        else findReferences env name (found ++ [utxo.txoRef]) rest := by
  rw [findReferences, readPolicyKv_entry hbyron encoder blake2b policy]
  rfl

theorem findReferences_one (name : Bytes) (txoRef : Hash × U64) (utxos : List HeldUtxo) :
    findReferences env name [txoRef] (utxos.map (HeldUtxo.entry encoder blake2b policy)) =
      .ok (if (utxos.filter fun utxo => (utxo.amount name).isSome) = [] then some [txoRef]
        else none) := by
  induction utxos with
  | nil => rfl
  | cons utxo rest ih =>
    rw [List.map_cons, findReferences_cons hbyron encoder blake2b policy]
    cases hamount : utxo.amount name with
    | none =>
      rw [List.filter_cons_of_neg (by simp [hamount])]
      exact ih
    | some amount =>
      rw [List.filter_cons_of_pos (by simp [hamount]), if_neg (List.cons_ne_nil _ _)]
      rfl

theorem findReferences_eq (name : Bytes) (utxos : List HeldUtxo) :
    ∃ found, findReferences env name [] (utxos.map (HeldUtxo.entry encoder blake2b policy)) =
        .ok found ∧
      found.bind List.head? = (referenceUtxo name utxos).map HeldUtxo.txoRef := by
  induction utxos with
  | nil => exact ⟨_, rfl, rfl⟩
  | cons utxo rest ih =>
    rw [List.map_cons, findReferences_cons hbyron encoder blake2b policy]
    cases hamount : utxo.amount name with
    | none =>
      obtain ⟨found, hfound, hhead⟩ := ih
      refine ⟨found, hfound, ?_⟩
      rw [hhead, referenceUtxo, referenceUtxo, List.filter_cons_of_neg (by simp [hamount])]
    | some amount =>
      dsimp only
      rw [if_neg (by simp), referenceUtxo, List.filter_cons_of_pos (by simp [hamount])]
      by_cases hmany : 1 < amount.toNat
      · refine ⟨none, if_pos hmany, ?_⟩
        cases rest.filter fun utxo => (utxo.amount name).isSome with
        | nil => simp [hamount, hmany]
        | cons => rfl
      · rw [if_neg hmany, List.nil_append, findReferences_one hbyron encoder blake2b policy]
        refine ⟨_, rfl, ?_⟩
        cases rest.filter fun utxo => (utxo.amount name).isSome with
        | nil => simp [hamount, Nat.le_of_not_lt hmany]
        | cons => rfl

theorem cip68OfKvs_eq (assetName : Bytes) (tokenType : Cip68AssetType) (utxos : List HeldUtxo) :
    cip68OfKvs env assetName tokenType (utxos.map (HeldUtxo.entry encoder blake2b policy)) =
      match referenceUtxo (referenceNftName assetName tokenType) utxos with
      | none => .ok none
      | some utxo => do
        let datumData ← referenceDatum env utxo.txoRef
        return datumData.bind (cip68OfDatum env tokenType) := by
  obtain ⟨found, hfound, hhead⟩ := findReferences_eq hbyron encoder blake2b policy
    (referenceNftName assetName tokenType) utxos
  rw [cip68OfKvs, hfound, asRequest, Except.ok_bind, hhead]
  cases referenceUtxo (referenceNftName assetName tokenType) utxos with
  | none => rfl
  | some utxo => rfl

end Entries

theorem HoldsUtxos.holdsAll {env : Env τ} {blake2b : Bytes → Hash} {store : Store}
    {encoder : KeyEncoder} {policy : Hash28} {utxos : List PolicyUtxo}
    (hstore : HoldsUtxos env blake2b store encoder policy utxos) :
    HoldsAll env blake2b store encoder policy
      (utxos.map fun utxo => ⟨utxo.item, utxo.owner, utxo.assets⟩) := by
  refine ⟨hstore.toIsStore, ?_, fun {item v} => ?_⟩
  · rw [List.map_map]
    exact hstore.nodup
  · simp only [hstore.get_iff, List.mem_map, exists_exists_and_eq_and]
    rfl

def cip68Env (datum : PlutusData) : Cip68Env Bytes where
  toEnv := holderEnv.toEnv
  fromUtf8 bytes := if bytes.all (· < 128) then some (bytes.map fun b => Char.ofNat b.val) else none
  encodeFragment _ := []
  getTxBytes _ := .ok []
  decodeTx _ := some ⟨fun _ => some (some (.data datum)), fun _ => none⟩

def cip68Datum : PlutusData :=
  .constr 121 none [.map [
    (.boundedBytes [0x6e, 0x61, 0x6d, 0x65], .boundedBytes [0x61]),
    (.boundedBytes [0x69, 0x6d, 0x61, 0x67, 0x65], .boundedBytes [0x62]),
    (.boundedBytes [0xff], .array [.map [], .map [(.boundedBytes [0x61], .map [])]])],
    .bigInt ⟨2, by decide, by decide⟩]

def cip68Utxos : List PolicyUtxo :=
  [{ holderUtxo 0 1 with assets := [(⟨referenceTag ++ [7], by decide⟩, 1)] },
    { holderUtxo 1 1 with assets := [(⟨[0x00, 0x0d, 0xe1, 0x40, 7], by decide⟩, 1)] },
    holderUtxo 2 9]

def cip68Held : List HeldUtxo :=
  cip68Utxos.map fun utxo => ⟨utxo.item, utxo.owner, utxo.assets⟩

end CardanoIndexer.Mapi
