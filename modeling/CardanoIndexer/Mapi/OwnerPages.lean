import CardanoIndexer.Mapi.SlotPages

/-!
# Pages of several owners

The ranges of the owners are scanned in turn.  A cursor names the last result and the position of
its owner, which is looked up by the owner read from the key.
-/

namespace CardanoIndexer.Mapi

open Timbre

def ListsOnce {β : Type} (IsItem : β → Prop)
    (server : ℕ → Option Bytes → Except Failure (List β × Option Bytes)) : Prop :=
  ∃ items : List β, items.Nodup ∧ (∀ x, x ∈ items ↔ IsItem x) ∧
    ∀ fuel, items.length < fuel →
      Paging.Yields (fun _ => False) items (Paging.follow server fuel 0 none)

theorem ListsOnce.congr {β : Type} {IsItem IsItem' : β → Prop}
    {server : ℕ → Option Bytes → Except Failure (List β × Option Bytes)}
    (h : ListsOnce IsItem server) (hitem : ∀ x, IsItem x ↔ IsItem' x) :
    ListsOnce IsItem' server := by
  obtain ⟨items, hnodup, hmem, hyields⟩ := h
  exact ⟨items, hnodup, fun x => (hmem x).trans (hitem x), hyields⟩

def collectRanges (store : Store) : List KeyRange → ℕ → List Entry
  | [], _ => []
  | range :: rest, required =>
    let kvs := (store.scan range.start range.stop).take required
    if kvs.length = required then kvs
    else kvs ++ collectRanges store rest (required - kvs.length)

structure OwnerListing (ο γ β : Type) where
  noOwner : String
  range : ο → Option γ → KeyRange
  read : Entry → Except Failure β
  cursorOf : List ο → β → Except Failure Bytes

namespace OwnerListing

variable {ο γ β : Type} (listing : OwnerListing ο γ β)

def plan (owners : List ο) (cursor : Option (U16 × γ)) : Except Failure (List (ο × Option γ)) :=
  match cursor with
  | some c => match owners.drop c.1.toNat with
      | [] => .error (.badRequest "Malformed cursor")
      | owner :: rest => .ok ((owner, some c.2) :: rest.map (·, none))
  | none => match owners with
      | [] => .error (.badRequest listing.noOwner)
      | owner :: rest => .ok ((owner, none) :: rest.map (·, none))

def page (store : Store) (owners : List ο) (count : ℕ) (cursor : Option (U16 × γ)) :
    Except Failure (List β × Option Bytes) := do
  let scans ← listing.plan owners cursor
  -- one extra, to know whether there is a next page
  let kvs := collectRanges store (scans.map fun scan => listing.range scan.1 scan.2) (count + 1)
  pageLoop listing.read (listing.cursorOf owners) count 0 kvs

def entriesOf (store : Store) (owner : ο) : List Entry :=
  store.scan (listing.range owner none).start (listing.range owner none).stop

structure Result (β : Type) where
  number : ℕ
  entry : Entry
  shown : β
  text : Bytes

structure Leads (decodeCursor : Bytes → Except DecodeFailure (U16 × γ)) (owners : List ο)
    (result : Result β) : Prop where
  read_eq : listing.read result.entry = .ok result.shown
  cursorOf_eq : listing.cursorOf owners result.shown = .ok result.text
  exists_decode : ∃ idx place, decodeCursor result.text = .ok (idx, place) ∧
    idx.toNat = result.number ∧ ∀ owner, owners[result.number]? = some owner →
      (listing.range owner (some place)).start = result.entry.1 ++ [0] ∧
      (listing.range owner (some place)).stop = (listing.range owner none).stop

def Law (store : Store) (decodeCursor : Bytes → Except DecodeFailure (U16 × γ))
    (owners : List ο) : Prop :=
  ∀ i owner kv, owners[i]? = some owner → kv ∈ listing.entriesOf store owner →
    ∃ shown text, listing.Leads decodeCursor owners ⟨i, kv, shown, text⟩

end OwnerListing

theorem collectRanges_eq (store : Store) (ranges : List KeyRange) (required : ℕ) :
    collectRanges store ranges required =
      (ranges.flatMap fun range => store.scan range.start range.stop).take required := by
  induction ranges generalizing required with
  | nil => simp [collectRanges]
  | cons range rest ih =>
    rw [collectRanges, List.flatMap_cons, List.take_append]
    simp only [ih]
    split
    case isTrue hfull =>
      rw [List.length_take] at hfull
      rw [show required - (store.scan range.start range.stop).length = 0 by omega,
        List.take_zero, List.append_nil]
    case isFalse hshort =>
      rw [List.length_take] at hshort ⊢
      rw [show required - min required (store.scan range.start range.stop).length =
        required - (store.scan range.start range.stop).length by omega]

namespace OwnerListing

variable {ο γ β : Type} {listing : OwnerListing ο γ β} {store : Store} {owners : List ο}
  {count : ℕ} {decodeCursor : Bytes → Except DecodeFailure (U16 × γ)}
  {server : ℕ → Option Bytes → Except Failure (List β × Option Bytes)} {owner : ο}

def Result.rank (result : Result β) : ℕ ×ₗ Bytes := toLex (result.number, result.entry.1)

theorem exists_results (law : listing.Law store decodeCursor owners) :
    ∃ results : List (Result β),
      (∀ result ∈ results, listing.Leads decodeCursor owners result) ∧
      results.map (fun result => (result.number, result.entry)) =
        Paging.inTurn 0 (owners.map (listing.entriesOf store)) := by
  obtain ⟨leading, hleading⟩ : ∃ leading : List {result // listing.Leads decodeCursor owners result},
      leading.map (fun result => (result.1.number, result.1.entry)) =
        Paging.inTurn 0 (owners.map (listing.entriesOf store)) := by
    rw [← Set.mem_range, Set.range_list_map]
    intro x hx
    obtain ⟨i, list, hlist, hnumber, hkv⟩ := Paging.mem_inTurn.mp hx
    rw [List.getElem?_map] at hlist
    obtain ⟨owner, howner, rfl⟩ := Option.map_eq_some_iff.mp hlist
    obtain ⟨shown, text, hleads⟩ := law i owner x.2 howner hkv
    exact ⟨⟨_, hleads⟩, Prod.ext (by simpa using hnumber.symm) rfl⟩
  refine ⟨leading.map Subtype.val, fun result hresult => ?_, ?_⟩
  · obtain ⟨result, -, rfl⟩ := List.mem_map.mp hresult
    exact result.2
  · rw [← hleading, List.map_map]
    rfl

theorem isPage_pageLoop {remaining : List (Result β)} (hcount : 0 < count)
    (hleads : ∀ result ∈ remaining, listing.Leads decodeCursor owners result) :
    Paging.IsPage (fun _ => False) count Result.shown Result.text remaining
      (pageLoop listing.read (listing.cursorOf owners) count 0
        ((remaining.map Result.entry).take (count + 1))) := by
  have hfirst : ∀ result ∈ remaining.take (count + 1),
      listing.Leads decodeCursor owners result := fun result hresult =>
    hleads result (List.mem_of_mem_take hresult)
  rw [← List.map_take, pageLoop_eq 0 _ hcount (by rw [List.length_take]; omega)
    (fun result hresult => (hfirst result hresult).read_eq)
    fun result hresult => (hfirst result hresult).cursorOf_eq]
  exact Paging.isPage_of_take_eq hcount (by rw [List.take_take, Nat.min_self])

theorem page_none (howners : owners ≠ []) :
    listing.page store owners count none =
      pageLoop listing.read (listing.cursorOf owners) count 0
        ((owners.flatMap (listing.entriesOf store)).take (count + 1)) := by
  have hplan : listing.plan owners none = .ok (owners.map (·, none)) := by
    cases owners with
    | nil => exact absurd rfl howners
    | cons owner rest => rfl
  rw [page, hplan, Except.ok_bind, collectRanges_eq, List.map_map, List.flatMap_map]
  rfl

theorem page_some {idx : U16} {place : γ} {key : Bytes} (howner : owners[idx.toNat]? = some owner)
    (hrange : (listing.range owner (some place)).start = key ++ [0] ∧
      (listing.range owner (some place)).stop = (listing.range owner none).stop) :
    listing.page store owners count (some (idx, place)) =
      pageLoop listing.read (listing.cursorOf owners) count 0
        ((store.scan (key ++ [0]) (listing.range owner none).stop ++
          (owners.drop (idx.toNat + 1)).flatMap (listing.entriesOf store)).take (count + 1)) := by
  have hdrop : owners.drop idx.toNat = owner :: owners.drop (idx.toNat + 1) := by
    rw [List.drop_eq_getElem?_toList_append, howner]
    rfl
  have hplan : listing.plan owners (some (idx, place)) =
      .ok ((owner, some place) :: (owners.drop (idx.toNat + 1)).map (·, none)) := by
    simp only [plan, hdrop]
  rw [page, hplan, Except.ok_bind, collectRanges_eq, List.map_cons, List.flatMap_cons, hrange.1,
    hrange.2, List.map_map, List.flatMap_map]
  rfl

section Turn

variable {results : List (Result β)}
  (hturn : results.map (fun result => (result.number, result.entry)) =
    Paging.inTurn 0 (owners.map (listing.entriesOf store))) {result : Result β}

include hturn

theorem exists_owner (hresult : result ∈ results) :
    ∃ owner, owners[result.number]? = some owner ∧
      (result.entry.1, result.entry.2) ∈ listing.entriesOf store owner := by
  have hmem : (result.number, result.entry) ∈ Paging.inTurn 0
      (owners.map (listing.entriesOf store)) := by
    rw [← hturn]
    exact List.mem_map_of_mem hresult
  obtain ⟨i, list, hlist, hnumber, hkv⟩ := Paging.mem_inTurn.mp hmem
  rw [List.getElem?_map] at hlist
  obtain ⟨owner, howner, rfl⟩ := Option.map_eq_some_iff.mp hlist
  rw [Nat.zero_add] at hnumber
  subst hnumber
  exact ⟨owner, howner, hkv⟩

theorem map_entry_behind (howner : owners[result.number]? = some owner)
    (hkey : (listing.range owner none).start ≤ result.entry.1) :
    (Paging.behind (fun a b => a < b) Result.rank result.rank results).map Result.entry =
      store.scan (result.entry.1 ++ [0]) (listing.range owner none).stop ++
        (owners.drop (result.number + 1)).flatMap (listing.entriesOf store) := by
  have hlist : (owners.map (listing.entriesOf store))[result.number]? =
      some (listing.entriesOf store owner) := by rw [List.getElem?_map, howner]; rfl
  have hbehind := Paging.behind_inTurn Prod.fst hlist 0 result.entry.1
  rw [← hturn, Paging.behind, List.filter_map, Nat.zero_add] at hbehind
  have hsnd := congrArg (List.map Prod.snd) hbehind
  rw [List.map_map, List.map_append, List.map_map, Paging.map_snd_inTurn, ← List.map_drop] at hsnd
  rw [SortedMap.scan_behind (fun _ => Bytes.append_zero_le_iff) hkey]
  refine hsnd.trans ?_
  congr 1
  exact List.map_id _

end Turn

theorem Law.exists_shown (law : listing.Law store decodeCursor owners) (howners : owners ≠ [])
    (hcount : 0 < count) (hserver : ∀ n text cursor, pageCursor decodeCursor text = .ok cursor →
      server n text = listing.page store owners count cursor) :
    ∃ shown, (owners.flatMap (listing.entriesOf store)).mapM listing.read = .ok shown ∧
      ∀ fuel, shown.length < fuel →
        Paging.Yields (fun _ => False) shown (Paging.follow server fuel 0 none) := by
  obtain ⟨results, hleads, hturn⟩ := exists_results law
  have hentries : results.map Result.entry = owners.flatMap (listing.entriesOf store) := by
    have hsnd := congrArg (List.map Prod.snd) hturn
    rw [Paging.map_snd_inTurn, List.map_map] at hsnd
    exact hsnd
  have hsorted : results.Pairwise fun a b => a.rank < b.rank := by
    have hlists : ∀ list ∈ owners.map (listing.entriesOf store),
        list.Pairwise fun a b => a.1 < b.1 := by
      intro list hlist
      obtain ⟨owner, -, rfl⟩ := List.mem_map.mp hlist
      exact store.scan_sorted _ _
    have hturned := Paging.pairwise_inTurn 0 hlists
    rw [← hturn, List.pairwise_map] at hturned
    exact hturned
  have hread : (owners.flatMap (listing.entriesOf store)).mapM listing.read =
      .ok (results.map Result.shown) := by
    rw [← hentries, List.mapM_map]
    exact Except.mapM_eq_ok_map fun result hresult => (hleads result hresult).read_eq
  have hfirst : ∀ n, Paging.IsPage (fun _ => False) count Result.shown Result.text results
      (server n none) := by
    intro n
    rw [hserver n none none rfl, page_none howners, ← hentries]
    exact isPage_pageLoop hcount hleads
  have hnext : ∀ n, ∀ result ∈ results, Paging.IsPage (fun _ => False) count Result.shown
      Result.text (Paging.behind (fun a b => a < b) Result.rank result.rank results)
      (server n (some result.text)) := by
    intro n result hresult
    obtain ⟨idx, place, hdecode, hidx, hrange⟩ := (hleads result hresult).exists_decode
    obtain ⟨owner, howner, hmem⟩ := exists_owner hturn hresult
    rw [hserver n _ (some (idx, place)) (by rw [pageCursor, hdecode]),
      page_some (hidx ▸ howner) (hrange owner howner), hidx,
      ← map_entry_behind hturn howner (SortedMap.mem_scan.mp hmem).2.1]
    exact isPage_pageLoop hcount fun result hresult => hleads result (List.mem_of_mem_filter hresult)
  refine ⟨results.map Result.shown, hread, fun fuel hfuel => ?_⟩
  rw [List.length_map] at hfuel
  exact Paging.yields_follow hsorted hcount hfirst hnext hfuel 0

theorem nodup_shown {shown : List β} {ownerOf : β → ο} {keyOf : β → Bytes} (howners : owners.Nodup)
    (hread : (owners.flatMap (listing.entriesOf store)).mapM listing.read = .ok shown)
    (htells : ∀ owner ∈ owners, ∀ kv ∈ listing.entriesOf store owner, ∀ x,
      listing.read kv = .ok x → ownerOf x = owner ∧ keyOf x = kv.1) : shown.Nodup := by
  have hentries : (owners.flatMap (listing.entriesOf store)).Nodup := by
    refine List.nodup_flatMap.mpr ⟨fun owner _ => ?_, ?_⟩
    · refine List.Pairwise.imp ?_ (store.scan_sorted _ _)
      rintro kv _ hlt rfl
      exact lt_irrefl _ hlt
    · refine List.Pairwise.imp_of_mem ?_ howners
      intro owner owner' howner howner' hne kv hkv hkv'
      obtain ⟨x, hx⟩ := Except.exists_ok_of_mapM hread (List.mem_flatMap.mpr ⟨owner, howner, hkv⟩)
      exact hne ((htells owner howner kv hkv x hx).1.symm.trans
        (htells owner' howner' kv hkv' x hx).1)
  refine Except.nodup_of_mapM_eq_ok hread hentries fun kv hkv kv' hkv' x hx hx' => ?_
  obtain ⟨owner, howner, hkv⟩ := List.mem_flatMap.mp hkv
  obtain ⟨owner', howner', hkv'⟩ := List.mem_flatMap.mp hkv'
  have hkey : kv.1 = kv'.1 :=
    (htells owner howner kv hkv x hx).2.symm.trans (htells owner' howner' kv' hkv' x hx').2
  have hget : store.get kv.1 = some kv.2 := (SortedMap.mem_scan.mp hkv).1
  rw [hkey, (SortedMap.mem_scan.mp hkv').1] at hget
  exact Prod.ext hkey (Option.some.inj hget).symm

theorem Law.listsOnce (law : listing.Law store decodeCursor owners) (howners : owners ≠ [])
    (hnodup : owners.Nodup) (hcount : 0 < count)
    (hserver : ∀ n text cursor, pageCursor decodeCursor text = .ok cursor →
      server n text = listing.page store owners count cursor) (ownerOf : β → ο) (keyOf : β → Bytes)
    (htells : ∀ owner ∈ owners, ∀ kv ∈ listing.entriesOf store owner, ∀ x,
      listing.read kv = .ok x → ownerOf x = owner ∧ keyOf x = kv.1) :
    ListsOnce (fun x => ∃ owner ∈ owners, ∃ kv ∈ listing.entriesOf store owner,
      listing.read kv = .ok x) server := by
  obtain ⟨shown, hread, hyields⟩ := law.exists_shown howners hcount hserver
  refine ⟨shown, nodup_shown hnodup hread htells, fun x => ?_, hyields⟩
  rw [Except.mem_of_mapM_eq_ok hread]
  constructor
  · rintro ⟨kv, hkv, hx⟩
    obtain ⟨owner, howner, hkv⟩ := List.mem_flatMap.mp hkv
    exact ⟨owner, howner, kv, hkv, hx⟩
  · rintro ⟨owner, howner, kv, hkv, hx⟩
    exact ⟨kv, List.mem_flatMap.mpr ⟨owner, howner, hkv⟩, hx⟩

end OwnerListing

end CardanoIndexer.Mapi
