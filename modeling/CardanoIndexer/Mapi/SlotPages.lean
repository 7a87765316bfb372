import CardanoIndexer.Lib.Paging
import CardanoIndexer.Mapi.Scan
import CardanoIndexer.Timbre.Ranges

/-!
# Pages of a slot range

A page is scanned with one entry more than it shows; its cursor is the last entry shown.
-/

namespace CardanoIndexer.Mapi

open Timbre

/-! ## Parameters -/

structure SlotPagination where
  count : Option ℕ
  order : Option OrderParam
  cursor : Option Bytes
  fromSlot : Option U64
  toSlot : Option U64

structure ParsedSlotPageParams (κ : Type) where
  count : ℕ
  order : OrderParam
  lower : Option (RangeBound κ)
  upper : Option (RangeBound κ)

def rejectIf (message : String) (first second : Option U64) (p : U64 → U64 → Bool) :
    Except Failure Unit :=
  match first, second with
  | some a, some b => if p a b then .error (.badRequest message) else .ok ()
  | _, _ => .ok ()

def cursorBounds {κ : Type} (order : OrderParam) (params : SlotPagination) (cursor : Option κ) :
    Option (RangeBound κ) × Option (RangeBound κ) :=
  let lower := params.fromSlot.map RangeBound.slot
  let upper := params.toSlot.map RangeBound.slot
  match cursor, order with
  | none, _ => (lower, upper)
  | some c, .asc => (some (.cursor c), upper)
  | some c, .desc => (lower, some (.cursor c))

def parseSlotPageParams {κ : Type} (slotOf : κ → U64)
    (cursorDecoder : Bytes → Except DecodeFailure κ) (params : SlotPagination) :
    Except Failure (ParsedSlotPageParams κ) := do
  let count ← pageCount params.count
  let order := params.order.getD .asc
  let cursor ← pageCursor cursorDecoder params.cursor
  rejectIf "Range parameter 'from' must not be greater than parameter 'to'" params.fromSlot
    params.toSlot fun l u => u.toNat < l.toNat
  rejectIf "Cursor outside of slot range parameters (lower)" (cursor.map slotOf) params.fromSlot
    fun c l => c.toNat < l.toNat
  rejectIf "Cursor outside of slot range parameters (upper)" (cursor.map slotOf) params.toSlot
    fun c u => u.toNat < c.toNat
  let (lower, upper) := cursorBounds order params cursor
  return ⟨count, order, lower, upper⟩

def SlotPagination.Allows (params : SlotPagination) (slot : U64) : Prop :=
  (∀ l, params.fromSlot = some l → l.toNat ≤ slot.toNat) ∧
    ∀ u, params.toSlot = some u → slot.toNat ≤ u.toNat

structure SlotPagination.Accepted (params : SlotPagination) (count : ℕ) : Prop where
  count_eq : pageCount params.count = .ok count
  slots : ∀ l u, params.fromSlot = some l → params.toSlot = some u → l.toNat ≤ u.toNat

theorem rejectIf_eq_ok {message : String} {first second : Option U64} {p : U64 → U64 → Bool}
    (h : ∀ a b, first = some a → second = some b → p a b = false) :
    rejectIf message first second p = .ok () := by
  unfold rejectIf
  split
  case h_1 a b => rw [h a b rfl rfl, if_neg (by simp)]
  case h_2 => rfl

theorem pos_of_pageCount {given : Option ℕ} {count : ℕ} (h : pageCount given = .ok count) :
    0 < count := by
  unfold pageCount at h
  split at h
  · split_ifs at h with hlarge hzero
    cases h
    omega
  · cases h
    decide

section Parse

variable {κ : Type} {slotOf : κ → U64} {cursorDecoder : Bytes → Except DecodeFailure κ}
  {params : SlotPagination} {count : ℕ}

theorem parseSlotPageParams_eq (h : params.Accepted count) {text : Option Bytes} {cursor : Option κ}
    (hcursor : pageCursor cursorDecoder text = .ok cursor)
    (hslot : ∀ c, cursor = some c → params.Allows (slotOf c)) :
    parseSlotPageParams slotOf cursorDecoder { params with cursor := text } =
      .ok ⟨count, params.order.getD .asc, (cursorBounds (params.order.getD .asc) params cursor).1,
        (cursorBounds (params.order.getD .asc) params cursor).2⟩ := by
  have hcheck : ∀ (message : String) (first second : Option U64) (p : U64 → U64 → Bool),
      (∀ a b, first = some a → second = some b → p a b = false) →
      rejectIf message first second p = .ok () := fun _ _ _ _ => rejectIf_eq_ok
  unfold parseSlotPageParams
  rw [h.count_eq, Except.ok_bind]
  simp only [hcursor, Except.ok_bind]
  rw [hcheck _ _ _ _ fun l u hl hu => by simpa using h.slots l u hl hu, Except.ok_bind,
    hcheck _ _ _ _ fun c l hc hl => ?_, Except.ok_bind, hcheck _ _ _ _ fun c u hc hu => ?_,
    Except.ok_bind]
  · rfl
  · obtain ⟨c', hc', rfl⟩ := Option.map_eq_some_iff.mp hc
    simpa using (hslot c' hc').2 u hu
  · obtain ⟨c', hc', rfl⟩ := Option.map_eq_some_iff.mp hc
    simpa using (hslot c' hc').1 l hl

end Parse

/-! ## Orders -/

def OrderParam.before {ρ : Type} [LinearOrder ρ] : OrderParam → ρ → ρ → Prop
  | .asc => fun a b => a < b
  | .desc => fun a b => b < a

section Orders

variable {ρ : Type} [LinearOrder ρ]

instance (order : OrderParam) : DecidableRel (order.before : ρ → ρ → Prop) := fun a b =>
  match order with
  | .asc => inferInstanceAs (Decidable (a < b))
  | .desc => inferInstanceAs (Decidable (b < a))

instance (order : OrderParam) : IsTrans ρ order.before where
  trans a b c hab hbc := by
    cases order with
    | asc => exact lt_trans hab hbc
    | desc => exact lt_trans hbc hab

instance (order : OrderParam) : Std.Irrefl (order.before : ρ → ρ → Prop) where
  irrefl a h := by
    cases order with
    | asc => exact lt_irrefl a h
    | desc => exact lt_irrefl a h

theorem OrderParam.before_iff {ρ' : Type} [LinearOrder ρ'] {order : OrderParam} {a b : ρ}
    {a' b' : ρ'} (hlt : a < b ↔ a' < b') (hgt : b < a ↔ b' < a') :
    order.before a b ↔ order.before a' b' := by
  cases order with
  | asc => exact hlt
  | desc => exact hgt

theorem isAbove_and_isBelow_cursorBounds {κ : Type} {slotOf : κ → U64} {rank : κ → ρ}
    (order : OrderParam) {params : SlotPagination} {cursor : Option κ}
    (hslot : ∀ {a b}, rank a < rank b → (slotOf a).toNat ≤ (slotOf b).toNat)
    (hcursor : ∀ c, cursor = some c → params.Allows (slotOf c)) (place : κ) :
    IsAbove slotOf rank (cursorBounds order params cursor).1 place ∧
        IsBelow slotOf rank (cursorBounds order params cursor).2 place ↔
      params.Allows (slotOf place) ∧
        ∀ c, cursor = some c → order.before (rank c) (rank place) := by
  have habove : IsAbove slotOf rank (params.fromSlot.map RangeBound.slot) place ↔
      ∀ l, params.fromSlot = some l → l.toNat ≤ (slotOf place).toNat := by
    cases params.fromSlot <;> simp [IsAbove]
  have hbelow : IsBelow slotOf rank (params.toSlot.map RangeBound.slot) place ↔
      ∀ u, params.toSlot = some u → (slotOf place).toNat ≤ u.toNat := by
    cases params.toSlot <;> simp [IsBelow]
  cases cursor with
  | none => simp [cursorBounds, habove, hbelow, SlotPagination.Allows]
  | some c =>
    -- behind the cursor, the bound it replaces holds
    have hc := hcursor c rfl
    cases order with
    | asc =>
      simp only [cursorBounds, hbelow, SlotPagination.Allows, Option.some.injEq, forall_eq']
      constructor
      · rintro ⟨hlt, hle⟩
        exact ⟨⟨fun l hl => (hc.1 l hl).trans (hslot hlt), hle⟩, hlt⟩
      · rintro ⟨⟨-, hle⟩, hlt⟩
        exact ⟨hlt, hle⟩
    | desc =>
      simp only [cursorBounds, habove, SlotPagination.Allows, Option.some.injEq, forall_eq']
      constructor
      · rintro ⟨hle, hlt⟩
        exact ⟨⟨hle, fun u hu => (hslot hlt).trans (hc.2 u hu)⟩, hlt⟩
      · rintro ⟨⟨hle, -⟩, hlt⟩
        exact ⟨hle, hlt⟩

end Orders

def ListsAll {κ β ρ : Type} [LinearOrder ρ] (order : OrderParam) (rank : κ → ρ)
    (IsItem : κ → β → Prop) (E : Failure → Prop)
    (server : ℕ → Option Bytes → Except Failure (List β × Option Bytes)) : Prop :=
  ∃ items : List (κ × β), (items.Pairwise fun a b => order.before (rank a.1) (rank b.1)) ∧
    (∀ place shown, (place, shown) ∈ items ↔ IsItem place shown) ∧
    ∀ fuel, items.length < fuel →
      Paging.Yields E (items.map Prod.snd) (Paging.follow server fuel 0 none)

theorem scanned_pairwise (store : Store) (order : OrderParam) (range : KeyRange) :
    (scanned store order range).Pairwise fun a b => order.before a.1 b.1 := by
  cases order with
  | asc => exact store.scan_sorted ..
  | desc => exact List.pairwise_reverse.mpr (store.scan_sorted ..)

variable {kvs : List Entry}

theorem pairwise_filtered {R : Entry → Entry → Prop} {f : Option (Entry → Bool)}
    (h : kvs.Pairwise R) : (filtered f kvs).Pairwise R := by
  unfold filtered
  cases f with
  | none => exact h
  | some f => exact h.filter _

/-- The entries in turn; `i` is the index of the first.  If the last one of the page has a
successor, that one is skipped and the page gets a cursor. -/
def pageLoop {β : Type} (read : Entry → Except Failure β) (cursorOf : β → Except Failure Bytes)
    (count : ℕ) : ℕ → List Entry → Except Failure (List β × Option Bytes)
  | _, [] => .ok ([], none)
  | _, [kv] => do
    let item ← read kv
    return ([item], none)
  | i, kv :: next :: rest => do
    let item ← read kv
    if i = count - 1 then do
      let cursor ← cursorOf item
      let (items, later) ← pageLoop read cursorOf count (i + 2) rest
      return (item :: items, later.or (some cursor))
    else do
      let (items, later) ← pageLoop read cursorOf count (i + 1) (next :: rest)
      return (item :: items, later)

theorem pageLoop_eq {ι β : Type} {read : Entry → Except Failure β}
    {cursorOf : β → Except Failure Bytes} {entryOf : ι → Entry} {value : ι → β}
    {cursor : ι → Bytes} {count : ℕ} (i : ℕ) (items : List ι) (hi : i < count)
    (hlength : i + items.length ≤ count + 1)
    (hread : ∀ x ∈ items, read (entryOf x) = .ok (value x))
    (hcursor : ∀ x ∈ items, cursorOf (value x) = .ok (cursor x)) :
    pageLoop read cursorOf count i (items.map entryOf) = .ok ((items.take (count - i)).map value,
      if count - i < items.length then items[count - i - 1]?.map cursor else none) := by
  induction items generalizing i with
  | nil => simp [pageLoop]
  | cons x rest ih =>
    cases rest with
    | nil =>
      have htake : [x].take (count - i) = [x] := List.take_of_length_le (by simp; omega)
      have hlast : ¬ count - i < [x].length := by simp; omega
      rw [List.map_singleton, pageLoop, hread x List.mem_cons_self, htake, if_neg hlast]
      rfl
    | cons next rest =>
      rw [List.map_cons, List.map_cons, pageLoop, hread x List.mem_cons_self, Except.ok_bind]
      by_cases hlast : i = count - 1
      · -- the extra entry is the last of all
        have hrest : rest = [] := by
          simp only [List.length_cons] at hlength
          exact List.eq_nil_of_length_eq_zero (by omega)
        subst hrest
        have hone : count - i = 1 := by omega
        rw [if_pos hlast, hcursor x List.mem_cons_self, hone]
        rfl
      · rw [if_neg hlast, ← List.map_cons,
          ih (i + 1) (by omega) (by simp only [List.length_cons] at *; omega)
            (fun y hy => hread y (List.mem_cons_of_mem _ hy))
            (fun y hy => hcursor y (List.mem_cons_of_mem _ hy)), Except.ok_bind]
        obtain ⟨m, hm⟩ : ∃ m, count - i = m + 2 := ⟨count - i - 2, by omega⟩
        have hm' : count - (i + 1) = m + 1 := by omega
        rw [hm, hm']
        simp only [List.take_succ_cons, List.map_cons, List.length_cons, Nat.add_sub_cancel,
          show m + 2 - 1 = m + 1 by omega, List.getElem?_cons_succ]
        congr 2
        by_cases hmore : m + 1 < rest.length + 1
        · rw [if_pos hmore, if_pos (by omega)]
        · rw [if_neg hmore, if_neg (by omega)]

/-! ## Listings -/

structure SlotListing (κ β : Type) where
  slotOf : κ → U64
  decodeCursor : Bytes → Except DecodeFailure κ
  encodeCursor : κ → Bytes
  range : Option (RangeBound κ) → Option (RangeBound κ) → KeyRange
  filter : Option (Entry → Bool)
  timeout : Option ℕ
  read : Entry → Except Failure (κ × β)

namespace SlotListing

variable {κ β : Type} (listing : SlotListing κ β) {kv : Entry} {ρ : Type}

def page (store : Store) (params : ParsedSlotPageParams κ) (attempts : Attempts) :
    Except Failure (List β × Option Bytes) := do
  -- one extra, to know whether there is a next page
  let kvs ← scanExtended store (listing.range params.lower params.upper) params.order listing.filter
    (some (params.count + 1)) listing.timeout attempts
  let (items, next) ← pageLoop listing.read (fun item => .ok (listing.encodeCursor item.1))
    params.count 0 kvs
  return (items.map Prod.snd, next)

def Passes (kv : Entry) : Prop := ∀ f, listing.filter = some f → f kv = true

/-- On a store, the listing has the entries under the keys of its places: its ranges are exact,
and what it keeps and its cursors can be read.  `Shows` says what is shown of an entry. -/
structure Law (store : Store) (keyOf : κ → Bytes) (Shows : κ → Bytes → β → Prop) : Prop where
  decode_encode : ∀ place, listing.decodeCursor (listing.encodeCursor place) = .ok place
  slot_le : ∀ {a b}, keyOf a < keyOf b → (listing.slotOf a).toNat ≤ (listing.slotOf b).toNat
  mem_range : ∀ {lower upper : Option (RangeBound κ)},
    (∀ endSlot, upper = some (.slot endSlot) → endSlot.toNat < 2 ^ 64 - 1) →
    ∀ {k v}, store.get k = some v →
      ((listing.range lower upper).start ≤ k ∧ k < (listing.range lower upper).stop ↔
        ∃ place, k = keyOf place ∧ IsAbove listing.slotOf keyOf lower place ∧
          IsBelow listing.slotOf keyOf upper place)
  exists_shown : ∀ {place v}, store.get (keyOf place) = some v →
    listing.Passes (keyOf place, v) → ∃ shown, listing.read (keyOf place, v) = .ok (place, shown) ∧
      ∀ other, Shows place v other ↔ other = shown

structure Listed (κ β : Type) where
  place : κ
  value : Bytes
  shown : β

structure Lists (store : Store) (keyOf : κ → Bytes) (Shows : κ → Bytes → β → Prop)
    (params : SlotPagination) (item : Listed κ β) : Prop where
  stored : store.get (keyOf item.place) = some item.value
  allowed : params.Allows (listing.slotOf item.place)
  passes : listing.Passes (keyOf item.place, item.value)
  shows : Shows item.place item.value item.shown

variable {listing} {store : Store} {keyOf : κ → Bytes} {Shows : κ → Bytes → β → Prop}
  {params : SlotPagination} {order : OrderParam} {items : List (Listed κ β)}

theorem mem_filtered : kv ∈ filtered listing.filter kvs ↔ kv ∈ kvs ∧ listing.Passes kv := by
  unfold filtered Passes
  cases listing.filter with
  | none => simp
  | some f => simp

def entryAt (keyOf : κ → Bytes) (item : Listed κ β) : Entry := (keyOf item.place, item.value)

def itemsBehind (order : OrderParam) (keyOf : κ → Bytes) (items : List (Listed κ β)) :
    Option κ → List (Listed κ β)
  | none => items
  | some c => Paging.behind order.before (fun item => keyOf item.place) (keyOf c) items

variable {rank : κ → ρ}

theorem map_place_itemsBehind [LinearOrder ρ] (hrank : ∀ a b, keyOf a < keyOf b ↔ rank a < rank b)
    (cursor : Option κ) :
    (itemsBehind order keyOf items cursor).map Listed.place =
      Paging.remaining order.before rank (cursor.map rank) (items.map Listed.place) := by
  cases cursor with
  | none => rfl
  | some c =>
    simp only [Option.map_some, Paging.remaining, Paging.behind, List.filter_map, itemsBehind]
    congr 1
    refine List.filter_congr fun item _ => ?_
    simp only [Function.comp_apply, decide_eq_decide]
    exact OrderParam.before_iff (hrank ..) (hrank ..)

theorem Law.read_eq (law : listing.Law store keyOf Shows) {item : Listed κ β}
    (hitem : listing.Lists store keyOf Shows params item) :
    listing.read (entryAt keyOf item) = .ok (item.place, item.shown) := by
  obtain ⟨shown, hread, hshown⟩ := law.exists_shown hitem.stored hitem.passes
  rw [(hshown _).mp hitem.shows]
  exact hread

theorem Law.eq_of_entryAt (law : listing.Law store keyOf Shows) {item item' : Listed κ β}
    (hitem : listing.Lists store keyOf Shows params item)
    (hitem' : listing.Lists store keyOf Shows params item')
    (heq : entryAt keyOf item = entryAt keyOf item') : item = item' := by
  have hread := law.read_eq hitem
  rw [heq, law.read_eq hitem', Except.ok.injEq, Prod.mk.injEq] at hread
  have hvalue := (Prod.mk.inj heq).2
  cases item
  cases item'
  simp only at hread hvalue
  rw [hread.1, hread.2, hvalue]

section Law

variable (law : listing.Law store keyOf Shows)
  (hto : ∀ u, params.toSlot = some u → u.toNat < 2 ^ 64 - 1)

include law hto

theorem mem_scanned_cursorBounds {cursor : Option κ}
    (hcursor : ∀ c, cursor = some c → params.Allows (listing.slotOf c)) :
    kv ∈ scanned store order (listing.range (cursorBounds order params cursor).1
        (cursorBounds order params cursor).2) ↔
      ∃ place, kv.1 = keyOf place ∧ store.get kv.1 = some kv.2 ∧
        params.Allows (listing.slotOf place) ∧
        ∀ c, cursor = some c → order.before (keyOf c) (keyOf place) := by
  have hupper : ∀ endSlot, (cursorBounds order params cursor).2 = some (.slot endSlot) →
      endSlot.toNat < 2 ^ 64 - 1 := by
    intro endSlot hend
    refine hto endSlot ?_
    cases cursor with
    | none =>
      obtain ⟨u, hu, heq⟩ := Option.map_eq_some_iff.mp hend
      cases heq
      exact hu
    | some c =>
      cases order with
      | asc =>
        obtain ⟨u, hu, heq⟩ := Option.map_eq_some_iff.mp hend
        cases heq
        exact hu
      | desc => cases hend
  have hbounds := isAbove_and_isBelow_cursorBounds order law.slot_le hcursor
  rw [mem_scanned]
  constructor
  · rintro ⟨hget, hrange⟩
    obtain ⟨place, hplace, hwithin⟩ := (law.mem_range hupper hget).mp hrange
    exact ⟨place, hplace, hget, (hbounds place).mp hwithin⟩
  · rintro ⟨place, hplace, hget, hwithin⟩
    exact ⟨hget, (law.mem_range hupper hget).mpr ⟨place, hplace, (hbounds place).mpr hwithin⟩⟩

theorem mem_kept {cursor : Option κ}
    (hcursor : ∀ c, cursor = some c → params.Allows (listing.slotOf c)) :
    kv ∈ filtered listing.filter (scanned store order
        (listing.range (cursorBounds order params cursor).1
          (cursorBounds order params cursor).2)) ↔
      ∃ item, entryAt keyOf item = kv ∧ listing.Lists store keyOf Shows params item ∧
        ∀ c, cursor = some c → order.before (keyOf c) (keyOf item.place) := by
  rw [mem_filtered, mem_scanned_cursorBounds law hto hcursor]
  constructor
  · rintro ⟨⟨place, hplace, hget, hallows, hbehind⟩, hpasses⟩
    obtain ⟨k, v⟩ := kv
    cases hplace
    obtain ⟨shown, -, hshown⟩ := law.exists_shown hget hpasses
    exact ⟨⟨place, v, shown⟩, rfl, ⟨hget, hallows, hpasses, (hshown shown).mpr rfl⟩, hbehind⟩
  · rintro ⟨item, rfl, hitem, hbehind⟩
    exact ⟨⟨item.place, rfl, hitem.stored, hitem.allowed, hbehind⟩, hitem.passes⟩

theorem exists_items (order : OrderParam) : ∃ items : List (Listed κ β),
    (items.Pairwise fun a b => order.before (keyOf a.place) (keyOf b.place)) ∧
      (∀ item, item ∈ items ↔ listing.Lists store keyOf Shows params item) ∧
      ∀ cursor : Option κ, (∀ c, cursor = some c → params.Allows (listing.slotOf c)) →
        filtered listing.filter (scanned store order
            (listing.range (cursorBounds order params cursor).1
              (cursorBounds order params cursor).2)) =
          (itemsBehind order keyOf items cursor).map (entryAt keyOf) := by
  have hnone : ∀ c, (none : Option κ) = some c → params.Allows (listing.slotOf c) := by simp
  obtain ⟨items, hlists, hitems⟩ : ∃ items : List (Listed κ β),
      (∀ item ∈ items, listing.Lists store keyOf Shows params item) ∧
      items.map (entryAt keyOf) = filtered listing.filter (scanned store order
        (listing.range (cursorBounds (κ := κ) order params none).1
          (cursorBounds order params none).2)) := by
    obtain ⟨listed, hlisted⟩ : ∃ listed : List {item // listing.Lists store keyOf Shows params item},
        listed.map (fun item => entryAt keyOf item.1) = filtered listing.filter (scanned store order
          (listing.range (cursorBounds (κ := κ) order params none).1
            (cursorBounds order params none).2)) := by
      rw [← Set.mem_range, Set.range_list_map]
      intro kv hkv
      obtain ⟨item, rfl, hitem, -⟩ := (mem_kept law hto hnone).mp hkv
      exact ⟨⟨item, hitem⟩, rfl⟩
    refine ⟨listed.map Subtype.val, fun item hitem => ?_, ?_⟩
    · obtain ⟨item, -, rfl⟩ := List.mem_map.mp hitem
      exact item.2
    · rw [← hlisted, List.map_map]
      rfl
  have hsorted : items.Pairwise fun a b => order.before (keyOf a.place) (keyOf b.place) := by
    have hkept : (items.map (entryAt keyOf)).Pairwise fun a b => order.before a.1 b.1 := by
      rw [hitems]
      exact pairwise_filtered (scanned_pairwise ..)
    rw [List.pairwise_map] at hkept
    exact hkept
  have hmem : ∀ item, item ∈ items ↔ listing.Lists store keyOf Shows params item := by
    intro item
    refine ⟨hlists item, fun hitem => ?_⟩
    have hkept : entryAt keyOf item ∈ items.map (entryAt keyOf) := by
      rw [hitems]
      exact (mem_kept law hto hnone).mpr ⟨item, rfl, hitem, by simp⟩
    obtain ⟨item', hitem', heq⟩ := List.mem_map.mp hkept
    rwa [← law.eq_of_entryAt (hlists item' hitem') hitem heq]
  refine ⟨items, hsorted, hmem, fun cursor hcursor => ?_⟩
  have hbehind : (itemsBehind order keyOf items cursor).Pairwise fun a b =>
      order.before (keyOf a.place) (keyOf b.place) := by
    cases cursor with
    | none => exact hsorted
    | some c => exact hsorted.filter _
  refine Paging.eq_of_pairwise (pairwise_filtered (scanned_pairwise ..))
    (List.pairwise_map.mpr hbehind) fun kv => ?_
  rw [mem_kept law hto hcursor, List.mem_map]
  refine exists_congr fun item => ?_
  rw [← hmem item]
  cases cursor with
  | none => simp [itemsBehind, and_comm]
  | some c => simp [itemsBehind, Paging.behind, and_comm, and_assoc]

omit hto in
theorem isPage_page {count : ℕ} (hcount : 0 < count)
    (hitems : ∀ item ∈ items, listing.Lists store keyOf Shows params item) {cursor : Option κ}
    (hkept : filtered listing.filter (scanned store order
        (listing.range (cursorBounds order params cursor).1
          (cursorBounds order params cursor).2)) =
      (itemsBehind order keyOf items cursor).map (entryAt keyOf)) {attempts : Attempts}
    (hone : attempts.responses.OneFits) :
    Paging.IsPage (attempts.FailsWith listing.timeout) count Listed.shown
      (fun item => listing.encodeCursor item.place) (itemsBehind order keyOf items cursor)
      (listing.page store ⟨count, order, (cursorBounds order params cursor).1,
        (cursorBounds order params cursor).2⟩ attempts) := by
  have hbehind : ∀ item ∈ itemsBehind order keyOf items cursor,
      listing.Lists store keyOf Shows params item := by
    intro item hitem
    cases cursor with
    | none => exact hitems item hitem
    | some c => exact hitems item (List.mem_of_mem_filter hitem)
  obtain ⟨range, hrange⟩ : ∃ range, listing.range (cursorBounds order params cursor).1
      (cursorBounds order params cursor).2 = range := ⟨_, rfl⟩
  have hscan : attempts.Gives listing.timeout
      (((itemsBehind order keyOf items cursor).take (count + 1)).map (entryAt keyOf))
      (scanExtended store range order listing.filter (some (count + 1)) listing.timeout
        attempts) := by
    rw [List.map_take, ← hkept, hrange]
    exact scanExtended_spec hone
  simp only [page, hrange]
  match hresult : scanExtended store range order listing.filter (some (count + 1)) listing.timeout
      attempts with
  | .error error =>
    rw [hresult] at hscan
    exact hscan
  | .ok kvs =>
    rw [hresult] at hscan
    subst hscan
    have hread : ∀ item ∈ (itemsBehind order keyOf items cursor).take (count + 1),
        listing.read (entryAt keyOf item) = .ok (item.place, item.shown) := by
      intro item hitem
      exact law.read_eq (hbehind item (List.mem_of_mem_take hitem))
    rw [Except.ok_bind, pageLoop_eq 0 _ hcount (by
        rw [List.length_take]
        omega) hread fun item _ => rfl, Except.ok_bind]
    refine ⟨?_, ?_⟩
    · rw [List.map_map, Nat.sub_zero, List.take_take, Nat.min_eq_left (by omega)]
      rfl
    · rw [Nat.sub_zero, List.length_take, List.getElem?_take_of_lt (by omega)]
      by_cases hmore : count < (itemsBehind order keyOf items cursor).length
      · rw [if_pos hmore, if_pos (by omega)]
      · rw [if_neg hmore, if_neg (by omega)]

theorem Law.listsAll [LinearOrder ρ] {IsItem : κ → β → Prop} {count : ℕ}
    (hrank : ∀ a b, keyOf a < keyOf b ↔ rank a < rank b)
    (hitem : ∀ place shown, IsItem place shown ↔
      ∃ v, listing.Lists store keyOf Shows params ⟨place, v, shown⟩) (hcount : 0 < count)
    {server : ℕ → Option Bytes → Except Failure (List β × Option Bytes)} {attempts : ℕ → Attempts}
    (hone : ∀ n, (attempts n).responses.OneFits)
    (hserver : ∀ n text (cursor : Option κ), pageCursor listing.decodeCursor text = .ok cursor →
      (∀ c, cursor = some c → params.Allows (listing.slotOf c)) →
      server n text = listing.page store ⟨count, order, (cursorBounds order params cursor).1,
        (cursorBounds order params cursor).2⟩ (attempts n)) :
    ListsAll order rank IsItem (fun error => ∃ n, (attempts n).FailsWith listing.timeout error)
      server := by
  obtain ⟨items, hsorted, hmem, hkept⟩ := exists_items law hto order
  refine ⟨items.map fun item => (item.place, item.shown), ?_, fun place shown => ?_,
    fun fuel hfuel => ?_⟩
  · exact List.pairwise_map.mpr (hsorted.imp (OrderParam.before_iff (hrank ..) (hrank ..)).mp)
  · rw [hitem, List.mem_map]
    constructor
    · rintro ⟨item, hmem', heq⟩
      cases heq
      exact ⟨item.value, (hmem item).mp hmem'⟩
    · rintro ⟨v, hlists⟩
      exact ⟨_, (hmem _).mpr hlists, rfl⟩
  rw [List.map_map]
  rw [List.length_map] at hfuel
  have hpage : ∀ n text (cursor : Option κ), pageCursor listing.decodeCursor text = .ok cursor →
      (∀ c, cursor = some c → params.Allows (listing.slotOf c)) →
      Paging.IsPage (fun error => ∃ n, (attempts n).FailsWith listing.timeout error) count
        Listed.shown (fun item => listing.encodeCursor item.place)
        (itemsBehind order keyOf items cursor) (server n text) := by
    intro n text cursor htext hcursor
    rw [hserver n text cursor htext hcursor]
    exact (isPage_page law hcount (fun item => (hmem item).mp) (hkept cursor hcursor)
      (hone n)).mono fun error h => ⟨n, h⟩
  refine Paging.yields_follow hsorted hcount (fun n => hpage n none none rfl (by simp)) ?_ hfuel 0
  intro n item hitem
  refine hpage n _ (some item.place) ?_ ?_
  · rw [pageCursor, law.decode_encode]
  · intro c hc
    cases hc
    exact ((hmem item).mp hitem).allowed

end Law

end SlotListing

end CardanoIndexer.Mapi
