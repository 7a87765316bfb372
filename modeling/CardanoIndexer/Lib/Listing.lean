import CardanoIndexer.Lib.SortedMap

/-!
# Tables that list items

A table lists items if it holds their rows and nothing else.  Items come and go by writing or
deleting their rows.
-/

namespace Listing

variable {ο α β : Type*} [LinearOrder α]

def Lists (rows : ο → List (α × β)) (items : Set ο) (table : SortedMap α β) : Prop :=
  ∀ k v, table.get k = some v ↔ ∃ item ∈ items, (k, v) ∈ rows item

structure Separate (rows : ο → List (α × β)) (possible : Set ο) : Prop where
  nodup : ∀ item ∈ possible, ((rows item).map Prod.fst).Nodup
  item_eq : ∀ item ∈ possible, ∀ item' ∈ possible, ∀ k,
    k ∈ (rows item).map Prod.fst → k ∈ (rows item').map Prod.fst → item = item'

omit [LinearOrder α] in
theorem Separate.mono {rows : ο → List (α × β)} {possible fewer : Set ο}
    (h : Separate rows possible) (hsubset : fewer ⊆ possible) : Separate rows fewer where
  nodup item hitem := h.nodup item (hsubset hitem)
  item_eq item hitem item' hitem' := h.item_eq item (hsubset hitem) item' (hsubset hitem')

inductive Change (ο : Type*) where
  | add (item : ο)
  | remove (item : ο)

namespace Change

def item : Change ο → ο
  | add item | remove item => item

def writes (rows : ο → List (α × β)) : Change ο → List (α × Option β)
  | add item => (rows item).map fun row => (row.1, some row.2)
  | remove item => (rows item).map fun row => (row.1, none)

def after (items : Set ο) : Change ο → Set ο
  | add item => insert item items
  | remove item => items \ {item}

end Change

def afterChanges (items : Set ο) (changes : List (Change ο)) : Set ο :=
  changes.foldl Change.after items

variable {rows : ο → List (α × β)} {items possible : Set ο} {table : SortedMap α β}

theorem lists_empty (rows : ο → List (α × β)) : Lists rows ∅ ∅ := by
  simp [Lists]

omit [LinearOrder α] in
theorem fst_map_writes (change : Change ο) :
    (change.writes rows).map Prod.fst = (rows change.item).map Prod.fst := by
  cases change <;> simp [Change.writes, Change.item, Function.comp_def]

theorem Lists.change (h : Lists rows items table) (hsep : Separate rows possible)
    (hitems : items ⊆ possible) {change : Change ο} (hchange : change.item ∈ possible) :
    Lists rows (change.after items) (table.applyWrites (change.writes rows)) := by
  have hnodup : ((change.writes rows).map Prod.fst).Nodup := by
    rw [fst_map_writes]
    exact hsep.nodup _ hchange
  intro k v
  rw [SortedMap.get_applyWrites]
  by_cases hk : k ∈ (rows change.item).map Prod.fst
  · -- under this key there is no other item
    have hother : ∀ item ∈ possible, (k, v) ∈ rows item → item = change.item :=
      fun item hitem hrow => hsep.item_eq item hitem _ hchange k (List.mem_map_of_mem hrow) hk
    obtain ⟨⟨k, stored⟩, hrow, rfl⟩ := List.mem_map.mp hk
    cases change with
    | add item =>
      rw [SortedMap.lastWrite_of_nodup hnodup (List.mem_map.mpr ⟨_, hrow, rfl⟩),
        Option.getD_some, Option.some.injEq]
      constructor
      · rintro rfl
        exact ⟨item, Set.mem_insert _ _, hrow⟩
      · rintro ⟨item', hitem', hrow'⟩
        have heq : item' = item := by
          rcases Set.mem_insert_iff.mp hitem' with heq | hmem
          · exact heq
          · exact hother item' (hitems hmem) hrow'
        subst heq
        exact congrArg Prod.snd
          (List.inj_on_of_nodup_map (hsep.nodup _ hchange) hrow hrow' rfl)
    | remove item =>
      rw [SortedMap.lastWrite_of_nodup hnodup (List.mem_map.mpr ⟨_, hrow, rfl⟩),
        Option.getD_some]
      refine iff_of_false (by simp) ?_
      rintro ⟨item', ⟨hitem', hne⟩, hrow'⟩
      exact hne (hother item' (hitems hitem') hrow')
  · have hlast : SortedMap.lastWrite k (change.writes rows) = none :=
      SortedMap.lastWrite_eq_none_iff.mpr (by rwa [fst_map_writes])
    rw [hlast, Option.getD_none, h]
    have hne : ∀ item, (k, v) ∈ rows item → item ≠ change.item := by
      rintro item hrow rfl
      exact hk (List.mem_map_of_mem hrow)
    cases change with
    | add item =>
      constructor
      · rintro ⟨item', hitem', hrow⟩
        exact ⟨item', Set.mem_insert_of_mem _ hitem', hrow⟩
      · rintro ⟨item', hitem', hrow⟩
        exact ⟨item', (Set.mem_insert_iff.mp hitem').resolve_left (hne item' hrow), hrow⟩
    | remove item =>
      constructor
      · rintro ⟨item', hitem', hrow⟩
        exact ⟨item', ⟨hitem', hne item' hrow⟩, hrow⟩
      · rintro ⟨item', hitem', hrow⟩
        exact ⟨item', hitem'.1, hrow⟩

theorem after_subset (hitems : items ⊆ possible) {change : Change ο}
    (hchange : change.item ∈ possible) : change.after items ⊆ possible := by
  cases change with
  | add item => exact Set.insert_subset hchange hitems
  | remove item => exact Set.sdiff_subset.trans hitems

theorem Lists.changes (h : Lists rows items table) (hsep : Separate rows possible)
    (hitems : items ⊆ possible) {changes : List (Change ο)}
    (hchanges : ∀ change ∈ changes, change.item ∈ possible) :
    Lists rows (afterChanges items changes)
      (table.applyWrites (changes.flatMap (Change.writes rows))) := by
  induction changes generalizing items table with
  | nil => exact h
  | cons change rest ih =>
    obtain ⟨hchange, hrest⟩ := List.forall_mem_cons.mp hchanges
    rw [List.flatMap_cons, SortedMap.applyWrites_append]
    exact ih (h.change hsep hitems hchange) (after_subset hitems hchange) hrest

theorem mem_afterChanges {changes : List (Change ο)}
    (hdisjoint : ∀ item, Change.add item ∈ changes → Change.remove item ∉ changes) {item : ο} :
    item ∈ afterChanges items changes ↔
      Change.add item ∈ changes ∨ item ∈ items ∧ Change.remove item ∉ changes := by
  induction changes generalizing items with
  | nil => simp [afterChanges]
  | cons change rest ih =>
    have hrest : ∀ item, Change.add item ∈ rest → Change.remove item ∉ rest :=
      fun item hadd hremove =>
        hdisjoint item (List.mem_cons_of_mem _ hadd) (List.mem_cons_of_mem _ hremove)
    rw [afterChanges, List.foldl_cons]
    change item ∈ afterChanges (change.after items) rest ↔ _
    rw [ih hrest]
    cases change with
    | add item' =>
      have hkept : Change.remove item' ∉ rest := fun hremove =>
        hdisjoint item' List.mem_cons_self (List.mem_cons_of_mem _ hremove)
      simp only [Change.after, Set.mem_insert_iff, List.mem_cons, Change.add.injEq,
        reduceCtorEq, false_or]
      constructor
      · rintro (hadd | ⟨rfl | hitem, hkeep⟩)
        · exact Or.inl (Or.inr hadd)
        · exact Or.inl (Or.inl rfl)
        · exact Or.inr ⟨hitem, hkeep⟩
      · rintro ((rfl | hadd) | ⟨hitem, hkeep⟩)
        · exact Or.inr ⟨Or.inl rfl, hkept⟩
        · exact Or.inl hadd
        · exact Or.inr ⟨Or.inr hitem, hkeep⟩
    | remove item' =>
      simp only [Change.after, Set.mem_sdiff, Set.mem_singleton_iff, List.mem_cons,
        Change.remove.injEq, reduceCtorEq, false_or, not_or, and_assoc]

end Listing
