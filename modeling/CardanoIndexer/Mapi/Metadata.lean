import CardanoIndexer.Mapi.Request

/-!
# Transaction metadata as JSON
-/

namespace CardanoIndexer.Mapi

open Timbre

/-! ## Metadata and JSON -/

structure MetadatumInt where
  val : ℤ
  lower : -2 ^ 64 ≤ val
  upper : val < 2 ^ 64

inductive Metadatum where
  | int (i : MetadatumInt)
  | bytes (bs : Bytes)
  | text (s : List Char)
  | array (xs : List Metadatum)
  | map (kvs : List (Metadatum × Metadatum))

structure JsonNumber where
  val : ℤ
  lower : -2 ^ 63 ≤ val
  upper : val < 2 ^ 64
  deriving DecidableEq

inductive Json where
  | number (n : JsonNumber)
  | string (s : List Char)
  | array (xs : List Json)
  | object (fields : List (List Char × Json))

def Json.get? (key : List Char) : Json → Option Json
  | .object fields => fields.lookup key
  | _ => none

def insertField (key : List Char) (value : Json) :
    List (List Char × Json) → List (List Char × Json)
  | [] => [(key, value)]
  | field :: rest =>
    if field.1 = key then (key, value) :: rest else field :: insertField key value rest

def decimal : ℤ → List Char
  | .ofNat n => Nat.toDigits 10 n
  | .negSucc n => '-' :: Nat.toDigits 10 (n + 1)

def jsonNumber (i : ℤ) : Except Failure Json :=
  if h : -2 ^ 63 ≤ i ∧ i < 2 ^ 64 then .ok (.number ⟨i, h.1, h.2⟩) else .error .panic

def metadatumToString : Metadatum → Option (List Char)
  | .text t => some t
  | .int i => some (decimal i.val)
  | .bytes b => some ('0' :: 'x' :: Bytes.hex b)
  | .array _ => none
  | .map _ => none

mutual

def metadatumToJson : Metadatum → Except Failure (Option Json)
  | .array xs => do
    let out ← arrayToJson xs
    return out.map .array
  | .bytes bs => return some (.string (Bytes.hex bs))
  | .int i => do
    let number ← jsonNumber i.val
    return some number
  | .text s => return some (.string s)
  | .map kvs => do
    let out ← mapToJson kvs []
    return out.map .object

def arrayToJson : List Metadatum → Except Failure (Option (List Json))
  | [] => return some []
  | x :: rest => do
    match ← metadatumToJson x with
    | none => return none
    | some item =>
      let items ← arrayToJson rest
      return items.map (item :: ·)

def mapToJson : List (Metadatum × Metadatum) → List (List Char × Json) →
    Except Failure (Option (List (List Char × Json)))
  | [], out => return some out
  | (k, v) :: rest, out => match metadatumToString k with
      | none => return none
      | some key => do
        match ← metadatumToJson v with
        | none => return none
        | some value => mapToJson rest (insertField key value out)

end

/-! ## Places -/

inductive Step where
  | element (i : ℕ)
  | field (key : List Char)

inductive StandsAt (x : Metadatum) : List Step → Metadatum → Prop
  | here : StandsAt x [] x
  | element {xs : List Metadatum} {i : ℕ} {y : Metadatum} {path : List Step}
      (hy : xs[i]? = some y) (h : StandsAt x path y) : StandsAt x (.element i :: path) (.array xs)
  | field {kvs : List (Metadatum × Metadatum)} {k v : Metadatum} {key : List Char}
      {path : List Step} (hkv : (k, v) ∈ kvs) (hkey : metadatumToString k = some key)
      (h : StandsAt x path v) : StandsAt x (.field key :: path) (.map kvs)

def Json.numberAt? : List Step → Json → Option ℤ
  | [], .number n => some n.val
  | .element i :: path, .array xs => xs[i]?.bind (Json.numberAt? path)
  | .field key :: path, .object fields => (fields.lookup key).bind (Json.numberAt? path)
  | _, _ => none

def Metadatum.IsCompound : Metadatum → Prop
  | .array _ | .map _ => True
  | .int _ | .bytes _ | .text _ => False

def Metadatum.HasCompoundKey (md : Metadatum) : Prop :=
  ∃ path kvs, StandsAt (.map kvs) path md ∧ ∃ kv ∈ kvs, kv.1.IsCompound

def Metadatum.ValuesFit (md : Metadatum) : Prop :=
  ∀ path i, StandsAt (.int i) path md → -2 ^ 63 ≤ i.val

def Metadatum.KeysDiffer (md : Metadatum) : Prop :=
  ∀ path kvs, StandsAt (.map kvs) path md → (kvs.map fun kv => metadatumToString kv.1).Nodup

variable {md : Metadatum} {xs : List Metadatum}

theorem metadatumToString_eq_none_iff : metadatumToString md = none ↔ md.IsCompound := by
  cases md <;> simp [metadatumToString, Metadatum.IsCompound]

theorem Metadatum.value_induction {motive : Metadatum → Prop} (int : ∀ i, motive (.int i))
    (bytes : ∀ bs, motive (.bytes bs)) (text : ∀ s, motive (.text s))
    (array : ∀ xs, (∀ x ∈ xs, motive x) → motive (.array xs))
    (map : ∀ kvs, (∀ kv ∈ kvs, motive kv.2) → motive (.map kvs)) (md : Metadatum) : motive md := by
  refine @Metadatum.rec motive (fun xs => ∀ x ∈ xs, motive x)
    (fun kvs => ∀ kv ∈ kvs, motive kv.2) (fun kv => motive kv.2)
    int bytes text array map ?_ ?_ ?_ ?_ ?_ md
  · exact fun x hx => absurd hx List.not_mem_nil
  · exact fun x xs hx hxs => List.forall_mem_cons.mpr ⟨hx, hxs⟩
  · exact fun kv hkv => absurd hkv List.not_mem_nil
  · exact fun kv kvs hkv hkvs => List.forall_mem_cons.mpr ⟨hkv, hkvs⟩
  · exact fun _ _ _ hv => hv

/-! ## Where a tree stops -/

theorem exists_text (h : ¬md.IsCompound) : ∃ key, metadatumToString md = some key :=
  Option.ne_none_iff_exists'.mp (mt metadatumToString_eq_none_iff.mp h)

theorem not_hasCompoundKey (h : ¬md.IsCompound) : ¬md.HasCompoundKey := by
  rintro ⟨path, kvs, hat, -⟩
  cases hat <;> exact h trivial

theorem hasCompoundKey_array_iff :
    (Metadatum.array xs).HasCompoundKey ↔ ∃ x ∈ xs, x.HasCompoundKey := by
  constructor
  · rintro ⟨path, kvs, hat, hkey⟩
    cases hat with
    | element hy h => exact ⟨_, List.mem_of_getElem? hy, _, kvs, h, hkey⟩
  · rintro ⟨x, hx, path, kvs, hat, hkey⟩
    obtain ⟨i, hi⟩ := List.mem_iff_getElem?.mp hx
    exact ⟨_, kvs, .element hi hat, hkey⟩

variable {kvs : List (Metadatum × Metadatum)}

theorem hasCompoundKey_map_iff :
    (Metadatum.map kvs).HasCompoundKey ↔
      ∃ kv ∈ kvs, kv.1.IsCompound ∨ kv.2.HasCompoundKey := by
  constructor
  · rintro ⟨path, inner, hat, hkey⟩
    cases hat with
    | here =>
      obtain ⟨kv, hkv, hcompound⟩ := hkey
      exact ⟨kv, hkv, Or.inl hcompound⟩
    | field hkv _ h => exact ⟨_, hkv, Or.inr ⟨_, inner, h, hkey⟩⟩
  · rintro ⟨kv, hkv, hkey⟩
    by_cases hcompound : kv.1.IsCompound
    · exact ⟨[], kvs, .here, kv, hkv, hcompound⟩
    · obtain ⟨path, inner, hat, hinner⟩ := hkey.resolve_left hcompound
      obtain ⟨key, htext⟩ := exists_text hcompound
      exact ⟨_, inner, .field hkv htext hat, hinner⟩

def Renders (md : Metadatum) : Prop :=
  ∃ out, metadatumToJson md = .ok out ∧ (out = none ↔ md.HasCompoundKey)

theorem exists_arrayToJson (h : ∀ x ∈ xs, Renders x) :
    ∃ out, arrayToJson xs = .ok out ∧ (out = none ↔ ∃ x ∈ xs, x.HasCompoundKey) := by
  induction xs with
  | nil => exact ⟨some [], by rw [arrayToJson]; rfl, by simp⟩
  | cons x rest ih =>
    obtain ⟨⟨first, hfirst, hnone⟩, hrest⟩ := List.forall_mem_cons.mp h
    obtain ⟨items, hitems, hitems_none⟩ := ih hrest
    rw [arrayToJson, hfirst, Except.ok_bind]
    cases first with
    | none => exact ⟨none, rfl, by simp [hnone.mp rfl]⟩
    | some item =>
      refine ⟨items.map (item :: ·), by rw [hitems]; rfl, ?_⟩
      have hitem : ¬x.HasCompoundKey := mt hnone.mpr (Option.some_ne_none item)
      rw [Option.map_eq_none_iff, hitems_none]
      simp [hitem]

theorem exists_mapToJson (h : ∀ kv ∈ kvs, ¬kv.1.IsCompound → Renders kv.2)
    (fields : List (List Char × Json)) :
    ∃ out, mapToJson kvs fields = .ok out ∧
      (out = none ↔ ∃ kv ∈ kvs, kv.1.IsCompound ∨ kv.2.HasCompoundKey) := by
  induction kvs generalizing fields with
  | nil => exact ⟨some fields, by rw [mapToJson]; rfl, by simp⟩
  | cons kv rest ih =>
    obtain ⟨k, v⟩ := kv
    obtain ⟨hv, hrest⟩ := List.forall_mem_cons.mp h
    cases hkey : metadatumToString k with
    | none =>
      have hcompound := metadatumToString_eq_none_iff.mp hkey
      exact ⟨none, by rw [mapToJson, hkey]; rfl, by simp [hcompound]⟩
    | some key =>
      have hsimple : ¬k.IsCompound := fun hcompound => by
        rw [metadatumToString_eq_none_iff.mpr hcompound] at hkey
        cases hkey
      obtain ⟨first, hfirst, hnone⟩ := hv hsimple
      rw [mapToJson, hkey]
      simp only
      rw [hfirst, Except.ok_bind]
      cases first with
      | none => exact ⟨none, rfl, by simp [hnone.mp rfl]⟩
      | some value =>
        obtain ⟨out, hout, hout_none⟩ := ih hrest (insertField key value fields)
        have hvalue : ¬v.HasCompoundKey := mt hnone.mpr (Option.some_ne_none value)
        refine ⟨out, hout, ?_⟩
        rw [hout_none]
        simp [hsimple, hvalue]

theorem renders_of_valuesFit (hfit : md.ValuesFit) : Renders md := by
  induction md using Metadatum.value_induction with
  | int i =>
    have hnumber : jsonNumber i.val = .ok (.number ⟨i.val, hfit [] i .here, i.upper⟩) :=
      dif_pos ⟨hfit [] i .here, i.upper⟩
    have hkey : ¬(Metadatum.int i).HasCompoundKey := not_hasCompoundKey id
    exact ⟨_, by rw [metadatumToJson, hnumber]; rfl, by simp [hkey]⟩
  | bytes bs =>
    have hkey : ¬(Metadatum.bytes bs).HasCompoundKey := not_hasCompoundKey id
    exact ⟨_, by rw [metadatumToJson]; rfl, by simp [hkey]⟩
  | text s =>
    have hkey : ¬(Metadatum.text s).HasCompoundKey := not_hasCompoundKey id
    exact ⟨_, by rw [metadatumToJson]; rfl, by simp [hkey]⟩
  | array xs ih =>
    obtain ⟨out, hout, hnone⟩ := exists_arrayToJson fun x hx => ih x hx fun path i hat => by
      obtain ⟨n, hn⟩ := List.mem_iff_getElem?.mp hx
      exact hfit _ i (.element hn hat)
    refine ⟨out.map .array, by rw [metadatumToJson, hout]; rfl, ?_⟩
    rw [Option.map_eq_none_iff, hnone, hasCompoundKey_array_iff]
  | map kvs ih =>
    obtain ⟨out, hout, hnone⟩ := exists_mapToJson (fun kv hkv hsimple => ih kv hkv
      fun path i hat => by
        obtain ⟨key, hkey⟩ := exists_text hsimple
        exact hfit _ i (.field hkv hkey hat)) []
    refine ⟨out.map .object, by rw [metadatumToJson, hout]; rfl, ?_⟩
    rw [Option.map_eq_none_iff, hnone, hasCompoundKey_map_iff]

/-! ## Numbers in their places -/

theorem lookup_cons_eq (key : List Char) (field : List Char × Json)
    (rest : List (List Char × Json)) :
    (field :: rest).lookup key = if key = field.1 then some field.2 else rest.lookup key := by
  rw [List.lookup_cons]
  by_cases h : key = field.1
  · rw [if_pos h, beq_iff_eq.mpr h]
  · rw [if_neg h, beq_eq_false_iff_ne.mpr h]

theorem lookup_insertField (key other : List Char) (value : Json)
    (fields : List (List Char × Json)) :
    (insertField key value fields).lookup other =
      if other = key then some value else fields.lookup other := by
  induction fields with
  | nil => rw [insertField, lookup_cons_eq]
  | cons field rest ih =>
    rw [insertField]
    by_cases hfield : field.1 = key
    · rw [if_pos hfield, lookup_cons_eq, lookup_cons_eq, hfield]
      by_cases h : other = key <;> simp [h]
    · rw [if_neg hfield, lookup_cons_eq, lookup_cons_eq, ih]
      by_cases h : other = key
      · simp [h, Ne.symm hfield]
      · simp [h]

theorem getElem?_of_arrayToJson {items : List Json} (h : arrayToJson xs = .ok (some items)) (i : ℕ) :
    (xs[i]? = none ∧ items[i]? = none) ∨
      ∃ x item, xs[i]? = some x ∧ items[i]? = some item ∧ metadatumToJson x = .ok (some item) := by
  induction xs generalizing items i with
  | nil =>
    rw [arrayToJson] at h
    cases h
    exact Or.inl ⟨rfl, rfl⟩
  | cons x rest ih =>
    rw [arrayToJson] at h
    obtain ⟨first, hfirst, h⟩ := Except.bind_eq_ok.mp h
    cases first with
    | none => cases h
    | some item =>
      obtain ⟨out, hout, h⟩ := Except.bind_eq_ok.mp h
      cases out with
      | none => cases h
      | some items' =>
        cases h
        cases i with
        | zero => exact Or.inr ⟨x, item, rfl, rfl, hfirst⟩
        | succ i => exact ih hout i

theorem lookup_of_mapToJson {fields out : List (List Char × Json)}
    (h : mapToJson kvs fields = .ok (some out))
    (hdiffer : (kvs.map fun kv => metadatumToString kv.1).Nodup) (key : List Char) :
    (∀ kv ∈ kvs, metadatumToString kv.1 = some key →
      ∃ value, metadatumToJson kv.2 = .ok (some value) ∧ out.lookup key = some value) ∧
    ((∀ kv ∈ kvs, metadatumToString kv.1 ≠ some key) → out.lookup key = fields.lookup key) := by
  induction kvs generalizing fields with
  | nil =>
    rw [mapToJson] at h
    cases h
    exact ⟨fun kv hkv => absurd hkv List.not_mem_nil, fun _ => rfl⟩
  | cons kv rest ih =>
    obtain ⟨k, v⟩ := kv
    rw [List.map_cons, List.nodup_cons] at hdiffer
    obtain ⟨hfresh, hdiffer⟩ := hdiffer
    cases htext : metadatumToString k with
    | none =>
      rw [mapToJson, htext] at h
      cases h
    | some text =>
      rw [mapToJson, htext] at h
      obtain ⟨first, hfirst, h⟩ := Except.bind_eq_ok.mp h
      cases first with
      | none => cases h
      | some value =>
        obtain ⟨hfound, helse⟩ := ih h hdiffer
        constructor
        · intro kv hkv hkey
          obtain rfl | hkv := List.mem_cons.mp hkv
          · -- the later keys have other texts, so the field stays
            have hlater : ∀ kv ∈ rest, metadatumToString kv.1 ≠ some key := by
              intro kv hkv heq
              exact hfresh (List.mem_map.mpr ⟨kv, hkv, heq.trans hkey.symm⟩)
            have heq : key = text := Option.some.inj (hkey.symm.trans htext)
            exact ⟨value, hfirst, by rw [helse hlater, lookup_insertField, if_pos heq]⟩
          · exact hfound kv hkv hkey
        · intro hother
          obtain ⟨hk, hother⟩ := List.forall_mem_cons.mp hother
          have hne : key ≠ text := fun heq => hk (heq ▸ htext)
          rw [helse hother, lookup_insertField, if_neg hne]

theorem numberAt?_eq_some_iff {json : Json} (h : metadatumToJson md = .ok (some json))
    (hdiffer : md.KeysDiffer) {path : List Step} {n : ℤ} :
    json.numberAt? path = some n ↔ ∃ i, i.val = n ∧ StandsAt (.int i) path md := by
  induction md using Metadatum.value_induction generalizing json path with
  | int i =>
    rw [metadatumToJson] at h
    obtain ⟨number, hnumber, h⟩ := Except.bind_eq_ok.mp h
    cases h
    unfold jsonNumber at hnumber
    split at hnumber
    · cases hnumber
      constructor
      · intro hn
        cases path with
        | nil => exact ⟨i, Option.some.inj hn, .here⟩
        | cons step path => cases step <;> cases hn
      · rintro ⟨j, rfl, hat⟩
        cases hat
        rfl
    · cases hnumber
  | bytes bs =>
    rw [metadatumToJson] at h
    cases h
    constructor
    · intro hn
      rcases path with - | ⟨_ | _, _⟩ <;> cases hn
    · rintro ⟨j, -, hat⟩
      cases hat
  | text s =>
    rw [metadatumToJson] at h
    cases h
    constructor
    · intro hn
      rcases path with - | ⟨_ | _, _⟩ <;> cases hn
    · rintro ⟨j, -, hat⟩
      cases hat
  | array xs ih =>
    rw [metadatumToJson] at h
    obtain ⟨out, hout, h⟩ := Except.bind_eq_ok.mp h
    cases out with
    | none => cases h
    | some items =>
      cases h
      have hinner : ∀ (i : ℕ) x, xs[i]? = some x → x.KeysDiffer :=
        fun i x hx path inner hat => hdiffer _ inner (.element hx hat)
      constructor
      · intro hn
        rcases path with - | ⟨i | key, rest⟩
        · cases hn
        · obtain ⟨item, hitem, hn⟩ := Option.bind_eq_some_iff.mp hn
          obtain ⟨-, hnone⟩ | ⟨x, item', hx, hitem', hrendered⟩ := getElem?_of_arrayToJson hout i
          · cases hnone.symm.trans hitem
          · cases hitem'.symm.trans hitem
            obtain ⟨j, hj, hat⟩ :=
              (ih x (List.mem_of_getElem? hx) hrendered (hinner i x hx)).mp hn
            exact ⟨j, hj, .element hx hat⟩
        · cases hn
      · rintro ⟨j, hj, hat⟩
        cases hat with
        | @element _ i x rest hx hat =>
          obtain ⟨hnone, -⟩ | ⟨x', item, hx', hitem, hrendered⟩ :=
            getElem?_of_arrayToJson hout i
          · cases hnone.symm.trans hx
          · cases hx'.symm.trans hx
            have hn := (ih x (List.mem_of_getElem? hx) hrendered (hinner i x hx)).mpr
              ⟨j, hj, hat⟩
            exact Option.bind_eq_some_iff.mpr ⟨item, hitem, hn⟩
  | map kvs ih =>
    rw [metadatumToJson] at h
    obtain ⟨out, hout, h⟩ := Except.bind_eq_ok.mp h
    cases out with
    | none => cases h
    | some fields =>
      cases h
      have hlookup := lookup_of_mapToJson hout (hdiffer [] kvs .here)
      have hinner : ∀ kv ∈ kvs, ∀ key, metadatumToString kv.1 = some key → kv.2.KeysDiffer :=
        fun kv hkv key hkey path inner hat => hdiffer _ inner (.field hkv hkey hat)
      constructor
      · intro hn
        rcases path with - | ⟨i | key, rest⟩
        · cases hn
        · cases hn
        · obtain ⟨value, hvalue, hn⟩ := Option.bind_eq_some_iff.mp hn
          by_cases hkv : ∃ kv ∈ kvs, metadatumToString kv.1 = some key
          · obtain ⟨kv, hkv, hkey⟩ := hkv
            obtain ⟨value', hrendered, hvalue'⟩ := (hlookup key).1 kv hkv hkey
            cases hvalue.symm.trans hvalue'
            obtain ⟨i, hi, hat⟩ := (ih kv hkv hrendered (hinner kv hkv key hkey)).mp hn
            exact ⟨i, hi, .field hkv hkey hat⟩
          · rw [(hlookup key).2 fun kv h heq => hkv ⟨kv, h, heq⟩] at hvalue
            cases hvalue
      · rintro ⟨i, hi, hat⟩
        cases hat with
        | field hkv hkey hat =>
          obtain ⟨value, hrendered, hvalue⟩ := (hlookup _).1 _ hkv hkey
          exact Option.bind_eq_some_iff.mpr ⟨value, hvalue,
            (ih _ hkv hrendered (hinner _ hkv _ hkey)).mpr ⟨i, hi, hat⟩⟩

def lowestInteger : Metadatum := .array [.int ⟨-2 ^ 63, by decide, by decide⟩]

theorem valuesFit_lowestInteger : lowestInteger.ValuesFit := by
  intro path i hat
  cases hat with
  | @element _ n y rest hy hat =>
    obtain rfl := List.mem_singleton.mp (List.mem_of_getElem? hy)
    cases hat
    exact le_refl _

def lowInteger : Metadatum := .int ⟨-2 ^ 63 - 1, by decide, by decide⟩

def sharedText : Metadatum :=
  .map [(.int ⟨1, by decide, by decide⟩, .int ⟨5, by decide, by decide⟩),
    (.text ['1'], .int ⟨7, by decide, by decide⟩)]

end CardanoIndexer.Mapi
