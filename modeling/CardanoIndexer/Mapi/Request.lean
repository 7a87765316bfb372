import CardanoIndexer.Lib.Sorting
import CardanoIndexer.Lib.SortedMap
import CardanoIndexer.Timbre.PaymentCred
import Mathlib.Data.Char

/-!
# Requests of the API
-/

namespace CardanoIndexer.Mapi

open Timbre

abbrev Text := List Char

inductive Failure where
  | badRequest (message : String)
  | internalServerError
  | timeout
  | panic
  deriving DecidableEq

inductive LookupFailure where
  | notFound
  | request (failure : Failure)
  deriving DecidableEq

def LookupFailure.badRequest (message : String) : LookupFailure := .request (.badRequest message)

def asRequest {α : Type} : Except Failure α → Except LookupFailure α
  | .ok a => .ok a
  | .error failure => .error (.request failure)

structure Env (τ : Type) where
  decodeBech32 : Bytes → Option (String × Bytes)
  b64Decode : Bytes → Option Bytes
  b64Encode : Bytes → Bytes
  byronFromBytes : Bytes → Option ByronAddress
  decodeTxo : Bytes → Option τ
  datumHash : τ → Option Hash
  slotTimestamp : U64 → Option String

structure Api where
  utxoCborByAddress : Option KeyEncoder
  datumByHash : Option KeyEncoder
  networkId : Byte

abbrev Store := SortedMap Bytes Bytes

variable {τ : Type} {α γ : Type}

def orInternal {α : Type} : Option α → Except Failure α
  | some a => .ok a
  | none => .error .internalServerError

def orPanic {α : Type} : Option α → Except Failure α
  | some a => .ok a
  | none => .error .panic

/-! ## Parameters -/

def defaultMaxItemsPerPage : ℕ := 100

inductive OrderParam where
  | asc
  | desc
  deriving DecidableEq

structure CursorPagination where
  count : Option ℕ
  cursor : Option Bytes

def pageCount : Option ℕ → Except Failure ℕ
  | some max =>
    if defaultMaxItemsPerPage < max then .error (.badRequest "Result count parameter too large")
    else if max = 0 then
      .error (.badRequest "Result count parameter must be greater than 0")
    else .ok max
  | none => .ok defaultMaxItemsPerPage

def pageCursor {γ : Type} (cursorDecoder : Bytes → Except DecodeFailure γ) :
    Option Bytes → Except Failure (Option γ)
  | some text => match cursorDecoder text with
      | .ok cursor => .ok (some cursor)
      | .error .malformedCursor => .error (.badRequest "Malformed cursor")
      | .error .panic => .error .panic
  | none => .ok none

def parseCursorPageParams {γ : Type} (cursorDecoder : Bytes → Except DecodeFailure γ)
    (params : CursorPagination) : Except Failure (ℕ × Option γ) := do
  let count ← pageCount params.count
  let cursor ← pageCursor cursorDecoder params.cursor
  return (count, cursor)

def decodePaymentCredential (env : Env τ) (credential : Bytes) :
    Except Failure ShelleyPaymentPart :=
  match env.decodeBech32 credential with
  | none => .error (.badRequest "Could not decode credential, must be bech32")
  | some (hrp, bytes) =>
    match arrayAt 28 bytes 0 with
    | none => .error (.badRequest "Could not decode credential, invalid length")
    | some hash =>
      if hrp = "addr_vkh" then .ok (.key hash)
      else if hrp = "addr_shared_vkh" ∨ hrp = "script" then .ok (.script hash)
      else .error (.badRequest
        "Credential should begin with 'addr_vkh', 'addr_shared_vkh' or 'script'")

def dedup {α : Type} [DecidableEq α] : List α → List α
  | [] => []
  | [a] => [a]
  | a :: next :: rest => if a = next then dedup (next :: rest) else a :: dedup (next :: rest)

def requestedCreds (env : Env τ) (payload : List Bytes) :
    Except Failure (List ShelleyPaymentPart) :=
  if 100 < payload.length then .error (.badRequest "Payload size must not exceed 100 items")
  else (dedup (Sorting.byKey id payload)).mapM (decodePaymentCredential env)

structure LastUpdated where
  timestamp : String
  blockHash : List Char
  blockSlot : U64
  deriving DecidableEq

def shownBlock : Point → U64 × List Char
  | .origin => (0, Bytes.hex (List.replicate 32 0))
  | .specific slot hash => (slot, Bytes.hex hash.toList)

def getLastUpdated (env : Env τ) (store : Store) (encoder : KeyEncoder) :
    Except Failure LastUpdated := do
  let cursorBytes ← orInternal (store.get encoder.encodeCursorKey)
  let cursor ← orPanic (decodeCursorValue cursorBytes)
  let block := shownBlock cursor.1
  let timestamp ← orPanic (env.slotTimestamp block.1)
  return ⟨timestamp, block.2, block.1⟩

structure IsStore (env : Env τ) (blake2b : Bytes → Hash) (store : Store) : Prop where
  exists_key : ∀ {k v}, store.get k = some v →
    ∃ (enc : KeyEncoder) (key : InstanceKey), k = key.encode enc blake2b
  exists_cursor : ∀ {enc : KeyEncoder} {v}, store.get enc.encodeCursorKey = some v →
    ∃ point height, v = encodeCursorValue point height ∧
      ∃ timestamp, env.slotTimestamp (shownBlock point).1 = some timestamp

/-! ## What the handler keeps to -/

variable {env : Env τ} {store : Store} {blake2b : Bytes → Hash}

abbrev Keeps {α : Type} (P : α → Prop) (x : Except Failure α) : Prop := x.Avoids .panic P

theorem keeps_orInternal (value : Option α) : Keeps (fun _ => True) (orInternal value) := by
  cases value with
  | none => exact .error (by decide)
  | some a => exact .ok trivial

variable {a : α}

theorem keeps_orPanic {value : Option α} (h : value = some a) : Keeps (· = a) (orPanic value) := by
  subst h
  exact .ok rfl

variable {items : List α}

theorem mem_dedup [DecidableEq α] : a ∈ dedup items ↔ a ∈ items := by
  fun_induction dedup items with
  | case1 => rfl
  | case2 => rfl
  | case3 next rest ih => simp [ih]
  | case4 first next rest hne ih => rw [List.mem_cons, List.mem_cons, ih]

theorem pairwise_dedup {ρ : Type} [DecidableEq α] [LinearOrder ρ] {key : α → ρ}
    (hsorted : items.Pairwise fun a b => key a ≤ key b)
    (hinj : ∀ a ∈ items, ∀ b ∈ items, key a = key b → a = b) :
    (dedup items).Pairwise fun a b => key a < key b := by
  fun_induction dedup items with
  | case1 => exact List.Pairwise.nil
  | case2 a => exact List.pairwise_singleton ..
  | case3 next rest ih =>
    exact ih hsorted.of_cons fun a ha b hb =>
      hinj a (List.mem_cons_of_mem _ ha) b (List.mem_cons_of_mem _ hb)
  | case4 first next rest hne ih =>
    refine List.pairwise_cons.mpr ⟨fun b hb => ?_, ih hsorted.of_cons fun a ha b hb =>
      hinj a (List.mem_cons_of_mem _ ha) b (List.mem_cons_of_mem _ hb)⟩
    have hb := mem_dedup.mp hb
    rw [List.pairwise_cons] at hsorted
    refine lt_of_le_of_ne (hsorted.1 b hb) fun heq => hne ?_
    -- the next element lies between two equal ones
    obtain rfl := hinj first List.mem_cons_self b (List.mem_cons_of_mem _ hb) heq
    have hnext : key next ≤ key first := by
      rcases List.mem_cons.mp hb with rfl | hb
      · exact le_rfl
      · exact (List.pairwise_cons.mp hsorted.2).1 first hb
    exact hinj first List.mem_cons_self next (by simp)
      (le_antisymm (hsorted.1 next List.mem_cons_self) hnext)

theorem length_dedup_le [DecidableEq α] (items : List α) : (dedup items).length ≤ items.length := by
  fun_induction dedup items with
  | case1 => exact le_rfl
  | case2 => exact le_rfl
  | case3 next rest ih => exact ih.trans (Nat.le_succ _)
  | case4 first next rest hne ih => exact Nat.succ_le_succ ih

section Owners

variable {ο : Type} {decode : Bytes → Except Failure ο} {payload : List Bytes}

theorem exists_owners (hdecode : ∀ text ∈ payload, ∃ owner, decode text = .ok owner) :
    ∃ owners, (dedup (Sorting.byKey id payload)).mapM decode = .ok owners ∧
      ∀ owner, owner ∈ owners ↔ ∃ text ∈ payload, decode text = .ok owner := by
  have hmem : ∀ text, text ∈ dedup (Sorting.byKey id payload) ↔ text ∈ payload := fun text => by
    rw [mem_dedup, Sorting.mem_byKey]
  obtain ⟨owners, howners⟩ := Except.exists_mapM_eq_ok fun text htext =>
    hdecode text ((hmem text).mp htext)
  refine ⟨owners, howners, fun owner => ?_⟩
  rw [Except.mem_of_mapM_eq_ok howners]
  simp only [hmem]

def NamesDifferent (decode : Bytes → Except Failure ο) (payload : List Bytes) : Prop :=
  ∀ text ∈ payload, ∀ text' ∈ payload, ∀ owner, decode text = .ok owner →
    decode text' = .ok owner → text = text'

theorem nodup_owners (hdifferent : NamesDifferent decode payload) {owners : List ο}
    (howners : (dedup (Sorting.byKey id payload)).mapM decode = .ok owners) : owners.Nodup := by
  have hsorted : (dedup (Sorting.byKey id payload)).Pairwise fun a b => a < b :=
    pairwise_dedup (Sorting.pairwise_byKey id payload) fun a _ b _ heq => heq
  have hmem : ∀ text ∈ dedup (Sorting.byKey id payload), text ∈ payload := fun text htext =>
    (Sorting.mem_byKey id).mp (mem_dedup.mp htext)
  refine Except.nodup_of_mapM_eq_ok howners (hsorted.imp ne_of_lt) ?_
  intro text htext text' htext' owner
  exact hdifferent text (hmem text htext) text' (hmem text' htext') owner

end Owners

theorem keeps_decodePaymentCredential (env : Env τ) (text : Bytes) :
    Keeps (fun _ => True) (decodePaymentCredential env text) := by
  unfold decodePaymentCredential
  split
  · exact .error (by simp)
  · split
    · exact .error (by simp)
    · split_ifs
      · exact .ok trivial
      · exact .ok trivial
      · exact .error (by simp)

theorem keeps_requestedCreds (env : Env τ) (payload : List Bytes) :
    Keeps (fun creds => ∀ cred ∈ creds, ∃ text ∈ payload,
      decodePaymentCredential env text = .ok cred) (requestedCreds env payload) := by
  unfold requestedCreds
  split
  · exact .error (by simp)
  · refine (Except.Avoids.mapM fun text _ => keeps_decodePaymentCredential env text).mono ?_
    intro creds hcreds cred hcred
    obtain ⟨text, htext, hdecode⟩ := hcreds cred hcred
    exact ⟨text, (Sorting.mem_byKey id).mp (mem_dedup.mp htext), hdecode⟩

variable {cursorDecoder : Bytes → Except DecodeFailure γ}

theorem parseCursorPageParams_eq {given : Option ℕ} {count : ℕ} {text : Option Bytes}
    {cursor : Option γ} (hcount : pageCount given = .ok count)
    (htext : pageCursor cursorDecoder text = .ok cursor) :
    parseCursorPageParams cursorDecoder ⟨given, text⟩ = .ok (count, cursor) := by
  rw [parseCursorPageParams, hcount, Except.ok_bind, htext]
  rfl

theorem keeps_parseCursorPageParams (hdecoder : ∀ text, NoPanic (cursorDecoder text))
    (params : CursorPagination) :
    Keeps (fun _ => True) (parseCursorPageParams cursorDecoder params) := by
  have hcount : Keeps (fun _ => True) (pageCount params.count) := by
    unfold pageCount
    split
    · split_ifs
      · exact .error (by simp)
      · exact .error (by simp)
      · exact .ok trivial
    · exact .ok trivial
  have hcursor : Keeps (fun _ => True) (pageCursor cursorDecoder params.cursor) := by
    unfold pageCursor
    split
    case h_1 text htext =>
      split
      · exact .ok trivial
      · exact .error (by simp)
      case h_3 hpanic => exact absurd hpanic (hdecoder text).1
    · exact .ok trivial
  exact hcount.bind fun _ _ _ => hcursor.bind fun _ _ _ => .ok trivial

theorem keeps_getLastUpdated (hstore : IsStore env blake2b store) (encoder : KeyEncoder) :
    Keeps (fun _ => True) (getLastUpdated env store encoder) := by
  refine (keeps_orInternal _).bind fun cursorBytes hbytes _ => ?_
  have hget : store.get encoder.encodeCursorKey = some cursorBytes := by
    cases hget : store.get encoder.encodeCursorKey with
    | none => simp [hget, orInternal] at hbytes
    | some bytes =>
      rw [hget] at hbytes
      cases hbytes
      rfl
  obtain ⟨point, height, rfl, timestamp, htimestamp⟩ := hstore.exists_cursor hget
  obtain ⟨⟨point', height'⟩, hdecode, rfl⟩ :=
    Option.map_eq_some_iff.mp (decodeCursorValue_encodeCursorValue point height)
  refine (keeps_orPanic hdecode).bind fun cursor _ hcursor => ?_
  subst hcursor
  exact (keeps_orPanic htimestamp).bind fun _ _ _ => .ok trivial

theorem exists_getLastUpdated (hstore : IsStore env blake2b store) {encoder : KeyEncoder}
    (hcursor : (store.get encoder.encodeCursorKey).isSome) :
    ∃ lastUpdated, getLastUpdated env store encoder = .ok lastUpdated := by
  obtain ⟨cursorBytes, hget⟩ := Option.isSome_iff_exists.mp hcursor
  obtain ⟨point, height, rfl, timestamp, htimestamp⟩ := hstore.exists_cursor hget
  obtain ⟨⟨point', height'⟩, hdecode, rfl⟩ :=
    Option.map_eq_some_iff.mp (decodeCursorValue_encodeCursorValue point height)
  refine ⟨⟨timestamp, (shownBlock point').2, (shownBlock point').1⟩, ?_⟩
  simp [getLastUpdated, hget, hdecode, htimestamp, orInternal, orPanic]

end CardanoIndexer.Mapi
