import CardanoIndexer.Lib.SortedMap

/-!
# Transactions over a versioned ordered store

A transaction reads through its buffered writes; `commit` makes them visible at a new timestamp.
-/

@[ext] structure Txn (α β : Type*) [LinearOrder α] where
  base : SortedMap α β
  mutations : List (α × Option β)
  failRead : Option ℕ

namespace Txn

variable {α β : Type*} [LinearOrder α] {t t' : Txn α β} {limit : ℕ} {keys : List α} {lo hi : α}

def start (snapshot : SortedMap α β) (failRead : Option ℕ) : Txn α β :=
  ⟨snapshot, [], failRead⟩

def view (t : Txn α β) : SortedMap α β := t.base.applyWrites t.mutations

def write (t : Txn α β) (w : α × Option β) : Txn α β :=
  { t with mutations := t.mutations ++ [w] }

def writeAll (t : Txn α β) (ws : List (α × Option β)) : Txn α β :=
  { t with mutations := t.mutations ++ ws }

@[simp] theorem view_start (snapshot : SortedMap α β) (failRead : Option ℕ) :
    (start snapshot failRead).view = snapshot := rfl

@[simp] theorem view_write (t : Txn α β) (w : α × Option β) :
    (t.write w).view = t.view.applyWrite w := by
  simp [view, write]

@[simp] theorem view_writeAll (t : Txn α β) (ws : List (α × Option β)) :
    (t.writeAll ws).view = t.view.applyWrites ws := by
  simp [view, writeAll, SortedMap.applyWrites_append]

@[simp] theorem writeAll_nil (t : Txn α β) : t.writeAll [] = t := by
  simp [writeAll]

theorem writeAll_writeAll (t : Txn α β) (ws₁ ws₂ : List (α × Option β)) :
    (t.writeAll ws₁).writeAll ws₂ = t.writeAll (ws₁ ++ ws₂) := by
  simp [writeAll]

theorem write_eq_writeAll (t : Txn α β) (w : α × Option β) : t.write w = t.writeAll [w] := rfl

/-! ## Reads -/

def read (t : Txn α β) : Option (Txn α β) :=
  match t.failRead with
  | none => some t
  | some 0 => none
  | some (n + 1) => some { t with failRead := some n }

structure ReadFrom (t t' : Txn α β) : Prop where
  base_eq : t'.base = t.base
  mutations_eq : t'.mutations = t.mutations
  faultless : t.failRead = none → t'.failRead = none

theorem ReadFrom.refl (t : Txn α β) : ReadFrom t t := ⟨rfl, rfl, id⟩

theorem ReadFrom.trans {t'' : Txn α β} (h : ReadFrom t t') (h' : ReadFrom t' t'') :
    ReadFrom t t'' :=
  ⟨h'.base_eq.trans h.base_eq, h'.mutations_eq.trans h.mutations_eq,
    fun hf => h'.faultless (h.faultless hf)⟩

theorem ReadFrom.view_eq (h : ReadFrom t t') : t'.view = t.view := by
  simp [view, h.base_eq, h.mutations_eq]

theorem ReadFrom.eq_of_faultless (h : ReadFrom t t') (hfault : t.failRead = none) : t' = t :=
  Txn.ext h.base_eq h.mutations_eq ((h.faultless hfault).trans hfault.symm)

theorem readFrom_of_read (h : t.read = some t') : ReadFrom t t' := by
  unfold read at h
  split at h
  · cases h; exact ReadFrom.refl t
  · cases h
  case h_3 n hn => cases h; exact ⟨rfl, rfl, fun hf => by simp [hn] at hf⟩

theorem read_of_faultless (h : t.failRead = none) : t.read = some t := by
  simp [read, h]

def batchGet (t : Txn α β) (keys : List α) : Option (SortedMap α β × Txn α β) := do
  let t ← t.read
  return (t.view.restrict fun k => k ∈ keys, t)

def scanKeys (t : Txn α β) (lo hi : α) (limit : ℕ) : Option (List α × Txn α β) := do
  let t ← t.read
  return ((t.view.scanKeys lo hi).take limit, t)

def batchGetPages (limit : ℕ) : ℕ → List α → Txn α β → Option (SortedMap α β × Txn α β)
  | 0, _, t => some (∅, t)
  | fuel + 1, keys, t =>
    if keys = [] then some (∅, t)
    else do
      let (kvs, t) ← t.batchGet (keys.take limit)
      let (rest, t) ← batchGetPages limit fuel (keys.drop limit) t
      return (kvs.extend rest, t)

def batchGetAll (t : Txn α β) (limit : ℕ) (keys : List α) :
    Option (SortedMap α β × Txn α β) :=
  batchGetPages limit keys.length keys t

private theorem batchGetPages_eq_some (hlimit : 0 < limit) :
    ∀ (fuel : ℕ) (keys : List α) (t : Txn α β), keys.length ≤ fuel → ∀ kvs t',
      batchGetPages limit fuel keys t = some (kvs, t') →
        kvs = t.view.restrict (fun k => k ∈ keys) ∧ ReadFrom t t' := by
  intro fuel
  induction fuel with
  | zero =>
    intro keys t hfuel kvs t' hrun
    have hnil : keys = [] := List.eq_nil_of_length_eq_zero (Nat.le_zero.mp hfuel)
    cases hrun
    exact ⟨SortedMap.ext_get fun k => by simp [hnil], ReadFrom.refl t⟩
  | succ fuel ih =>
    intro keys t hfuel kvs t' hrun
    unfold batchGetPages batchGet at hrun
    split at hrun
    case isTrue hnil =>
      cases hrun
      exact ⟨SortedMap.ext_get fun k => by simp [hnil], ReadFrom.refl t⟩
    case isFalse hkeys =>
      cases hread : t.read with
      | none => simp [hread] at hrun
      | some t₁ =>
        have hfrom := readFrom_of_read hread
        simp only [hread, Option.pure_def, Option.bind_eq_bind, Option.bind_some] at hrun
        cases hrest : batchGetPages limit fuel (keys.drop limit) t₁ with
        | none => simp [hrest] at hrun
        | some result =>
          obtain ⟨rest, t₂⟩ := result
          simp only [hrest, Option.bind_some] at hrun
          cases hrun
          have hlen : 0 < keys.length := List.length_pos_of_ne_nil hkeys
          obtain ⟨rfl, hafter⟩ := ih _ t₁ (by rw [List.length_drop]; omega) _ _ hrest
          refine ⟨SortedMap.ext_get fun k => ?_, hfrom.trans hafter⟩
          have hmem : k ∈ keys ↔ k ∈ keys.take limit ∨ k ∈ keys.drop limit := by
            rw [← List.mem_append, List.take_append_drop]
          simp only [SortedMap.get_extend, SortedMap.get_restrict, hfrom.view_eq]
          by_cases htake : k ∈ keys.take limit <;> by_cases hdrop : k ∈ keys.drop limit <;>
            simp [hmem, htake, hdrop]

theorem batchGetAll_eq_some {kvs : SortedMap α β} (hlimit : 0 < limit)
    (h : t.batchGetAll limit keys = some (kvs, t')) :
    kvs = t.view.restrict (fun k => k ∈ keys) ∧ ReadFrom t t' :=
  batchGetPages_eq_some hlimit _ keys t le_rfl kvs t' h

theorem batchGetAll_of_faultless (hfault : t.failRead = none) (hlimit : 0 < limit) (keys : List α) :
    ∃ kvs, t.batchGetAll limit keys = some (kvs, t) ∧
      ∀ k ∈ keys, kvs.get k = t.view.get k := by
  have hpages : ∀ (fuel : ℕ) (keys : List α),
      ∃ result, batchGetPages limit fuel keys t = some result := by
    intro fuel
    induction fuel with
    | zero => intro keys; exact ⟨_, rfl⟩
    | succ fuel ih =>
      intro keys
      unfold batchGetPages batchGet
      split
      · exact ⟨_, rfl⟩
      · obtain ⟨rest, hrest⟩ := ih (keys.drop limit)
        simp only [read_of_faultless hfault, Option.pure_def, Option.bind_eq_bind,
          Option.bind_some, hrest]
        exact ⟨_, rfl⟩
  obtain ⟨⟨kvs, t'⟩, hresult⟩ := hpages keys.length keys
  obtain ⟨rfl, hfrom⟩ := batchGetAll_eq_some hlimit hresult
  refine ⟨_, by rw [batchGetAll, hresult, hfrom.eq_of_faultless hfault], fun k hk => ?_⟩
  rw [SortedMap.get_restrict, if_pos (decide_eq_true hk)]

/-! ## Deleting a range in pages -/

def deletePages (lo hi : α) (limit : ℕ) : ℕ → Txn α β → Option (Txn α β × List α)
  | 0, t => some (t, [])
  | fuel + 1, t => do
    let (page, t) ← t.scanKeys lo hi limit
    if page = [] then return (t, [])
    let (t, rest) ← deletePages lo hi limit fuel (t.writeAll (page.map fun k => (k, none)))
    return (t, page ++ rest)

def deleteRange (t : Txn α β) (lo hi : α) (limit : ℕ) : Option (Txn α β × List α) :=
  deletePages lo hi limit ((t.view.scanKeys lo hi).length + 1) t

theorem scanKeys_delete_take (m : SortedMap α β) (lo hi : α) (limit : ℕ) :
    (m.applyWrites (((m.scanKeys lo hi).take limit).map fun k => (k, none))).scanKeys lo hi =
      (m.scanKeys lo hi).drop limit := by
  have hsorted : (m.scanKeys lo hi).Pairwise (· < ·) := by
    rw [SortedMap.scanKeys, List.pairwise_map]
    exact m.scan_sorted lo hi
  have hnodup : (m.scanKeys lo hi).Nodup := hsorted.imp fun h => ne_of_lt h
  rw [SortedMap.applyWrites_deletes]
  have hscan : (m.restrict fun k => k ∉ (m.scanKeys lo hi).take limit).scanKeys lo hi =
      (m.scanKeys lo hi).filter fun k => k ∉ (m.scanKeys lo hi).take limit := by
    simp only [SortedMap.scanKeys, SortedMap.scan, SortedMap.restrict, List.filter_filter,
      List.filter_map]
    congr 1
    apply List.filter_congr
    intro e _
    simp [Bool.and_comm]
  rw [hscan]
  generalize m.scanKeys lo hi = keys at hnodup
  have hdisjoint : ∀ k ∈ keys.drop limit, k ∉ keys.take limit := by
    intro k hdrop htake
    have hsplit := List.take_append_drop limit keys ▸ hnodup
    exact (List.nodup_append.mp hsplit).2.2 k htake k hdrop rfl
  conv_lhs => rw [← List.take_append_drop limit keys]
  rw [List.filter_append, List.filter_eq_nil_iff.mpr, List.nil_append, List.filter_eq_self.mpr]
  · intro k hk
    have := hdisjoint k hk
    simpa [List.take_append_drop] using this
  · intro k hk
    simpa [List.take_append_drop] using hk

private theorem deletePages_eq_some (hlimit : 0 < limit) :
    ∀ (fuel : ℕ) (t : Txn α β), (t.view.scanKeys lo hi).length < fuel →
      ∀ t' keys, deletePages lo hi limit fuel t = some (t', keys) →
        keys = t.view.scanKeys lo hi ∧
          ReadFrom (t.writeAll (keys.map fun k => (k, none))) t' := by
  intro fuel
  induction fuel with
  | zero => intro t hfuel; omega
  | succ fuel ih =>
    intro t hfuel t' keys hrun
    unfold deletePages scanKeys at hrun
    cases hread : t.read with
    | none => simp [hread] at hrun
    | some t₁ =>
      have hfrom := readFrom_of_read hread
      simp only [hread, Option.pure_def, Option.bind_eq_bind, Option.bind_some] at hrun
      rw [hfrom.view_eq] at hrun
      set whole := t.view.scanKeys lo hi with hwhole
      split at hrun
      case isTrue hempty =>
        have hnil : whole = [] := by
          cases hw : whole with
          | nil => rfl
          | cons k rest =>
            obtain ⟨n, rfl⟩ := Nat.exists_eq_succ_of_ne_zero hlimit.ne'
            simp [hw] at hempty
        cases hrun
        exact ⟨hnil.symm, by simpa using hfrom⟩
      case isFalse hpage =>
        set page := whole.take limit with hp
        cases hrest : deletePages lo hi limit fuel
            (t₁.writeAll (page.map fun k => (k, none))) with
        | none => simp [hrest] at hrun
        | some result =>
          obtain ⟨t₂, rest⟩ := result
          simp only [hrest, Option.bind_some] at hrun
          cases hrun
          have hview : (t₁.writeAll (page.map fun k => (k, none))).view.scanKeys lo hi =
              whole.drop limit := by
            rw [view_writeAll, hfrom.view_eq, hp, hwhole]
            exact scanKeys_delete_take t.view lo hi limit
          have hlen : 0 < page.length := List.length_pos_of_ne_nil hpage
          have hshort : (whole.drop limit).length < fuel := by
            have : page.length ≤ limit := List.length_take_le ..
            have : page.length ≤ whole.length := List.length_take_le' ..
            rw [List.length_drop]
            omega
          obtain ⟨hkeys, hafter⟩ := ih _ (by rw [hview]; exact hshort) _ _ hrest
          rw [hview] at hkeys
          refine ⟨by rw [hkeys, hp, List.take_append_drop], ?_⟩
          rw [List.map_append, ← writeAll_writeAll]
          refine ReadFrom.trans ⟨?_, ?_, ?_⟩ hafter
          · simp [writeAll, hfrom.base_eq]
          · simp [writeAll, hfrom.mutations_eq]
          · exact hfrom.faultless

theorem deleteRange_eq_some (hlimit : 0 < limit) (h : t.deleteRange lo hi limit = some (t', keys)) :
    keys = t.view.scanKeys lo hi ∧ ReadFrom (t.writeAll (keys.map fun k => (k, none))) t' :=
  deletePages_eq_some hlimit _ t (Nat.lt_succ_self _) t' keys h

private theorem deletePages_of_faultless (lo hi : α) (limit : ℕ) :
    ∀ (fuel : ℕ) (t : Txn α β), t.failRead = none →
      ∃ result, deletePages lo hi limit fuel t = some result := by
  intro fuel
  induction fuel with
  | zero => intro t _; exact ⟨_, rfl⟩
  | succ fuel ih =>
    intro t hfault
    unfold deletePages scanKeys
    simp only [read_of_faultless hfault, Option.pure_def, Option.bind_eq_bind,
      Option.bind_some]
    split
    · exact ⟨_, rfl⟩
    · obtain ⟨result, hresult⟩ :=
        ih (t.writeAll (((t.view.scanKeys lo hi).take limit).map fun k => (k, none))) hfault
      rw [hresult]
      exact ⟨_, rfl⟩

theorem deleteRange_of_faultless (hfault : t.failRead = none) (lo hi : α) (hlimit : 0 < limit) :
    t.deleteRange lo hi limit =
      some (t.writeAll ((t.view.scanKeys lo hi).map fun k => (k, none)),
        t.view.scanKeys lo hi) := by
  obtain ⟨⟨t', keys⟩, hresult⟩ := deletePages_of_faultless lo hi limit
    ((t.view.scanKeys lo hi).length + 1) t hfault
  obtain ⟨rfl, hfrom⟩ := deleteRange_eq_some hlimit hresult
  rw [deleteRange, hresult, hfrom.eq_of_faultless hfault]

end Txn

/-! ## Versions -/

structure VersionedStore (α β : Type*) [LinearOrder α] where
  initial : SortedMap α β
  versions : List (ℕ × SortedMap α β)
  sorted : versions.Pairwise fun v w => w.1 < v.1

namespace VersionedStore

variable {α β : Type*} [LinearOrder α] {t : Txn α β} {s : VersionedStore α β}
  {P : SortedMap α β → Prop} {gap ts : ℕ}

def ofInitial (initial : SortedMap α β) : VersionedStore α β := ⟨initial, [], List.Pairwise.nil⟩

def store (s : VersionedStore α β) : SortedMap α β :=
  match s.versions with
  | [] => s.initial
  | v :: _ => v.2

def lastTs (s : VersionedStore α β) : ℕ :=
  match s.versions with
  | [] => 0
  | v :: _ => v.1

theorem le_lastTs {v : ℕ × SortedMap α β} (hv : v ∈ s.versions) : v.1 ≤ s.lastTs := by
  have hsorted := s.sorted
  unfold lastTs
  cases hversions : s.versions with
  | nil => rw [hversions] at hv; cases hv
  | cons head rest =>
    rw [hversions] at hv hsorted
    rcases List.mem_cons.mp hv with rfl | hv
    · exact le_rfl
    · exact ((List.pairwise_cons.mp hsorted).1 v hv).le

/-- Commit a transaction `gap + 1` ticks after the last commit.  A transaction
without writes has nothing to commit and gets no timestamp. -/
def commit (s : VersionedStore α β) (gap : ℕ) (t : Txn α β) :
    Option ℕ × VersionedStore α β :=
  if t.mutations = [] then (none, s)
  else
    (some (s.lastTs + 1 + gap),
      { s with
        versions := (s.lastTs + 1 + gap, t.view) :: s.versions
        sorted := List.pairwise_cons.mpr
          ⟨fun v hv => (le_lastTs hv).trans_lt (by simp only; omega), s.sorted⟩ })

def snapshotAt (s : VersionedStore α β) (ts : ℕ) : SortedMap α β :=
  match s.versions.find? fun v => v.1 ≤ ts with
  | some v => v.2
  | none => s.initial

theorem commit_store (s : VersionedStore α β) (gap : ℕ) (hbase : t.base = s.store) :
    (s.commit gap t).2.store = t.view := by
  unfold commit
  split
  case isTrue hnil => simp [Txn.view, hnil, hbase]
  case isFalse => rfl

structure Extends (s s' : VersionedStore α β) (P : SortedMap α β → Prop) : Prop where
  lastTs_le : s.lastTs ≤ s'.lastTs
  snapshotAt_eq : ∀ ts ≤ s.lastTs, s'.snapshotAt ts = s.snapshotAt ts
  versions : ∀ v ∈ s'.versions, v ∈ s.versions ∨ P v.2

theorem Extends.refl (s : VersionedStore α β) (P : SortedMap α β → Prop) : s.Extends s P :=
  ⟨le_rfl, fun _ _ => rfl, fun _ hv => Or.inl hv⟩

theorem Extends.trans {s' s'' : VersionedStore α β} (h : s.Extends s' P) (h' : s'.Extends s'' P) :
    s.Extends s'' P where
  lastTs_le := h.lastTs_le.trans h'.lastTs_le
  snapshotAt_eq ts hts :=
    (h'.snapshotAt_eq ts (hts.trans h.lastTs_le)).trans (h.snapshotAt_eq ts hts)
  versions v hv := (h'.versions v hv).elim (h.versions v) Or.inr

theorem extends_commit (s : VersionedStore α β) (gap : ℕ) (hview : P t.view) :
    s.Extends (s.commit gap t).2 P := by
  unfold commit
  split
  case isTrue => exact Extends.refl s P
  case isFalse =>
    refine ⟨?_, fun ts hts => ?_, fun v hv => ?_⟩
    · show s.lastTs ≤ s.lastTs + 1 + gap
      omega
    · simp only [snapshotAt]
      rw [List.find?_cons_of_neg (by simp only [decide_eq_true_eq]; omega)]
    · rcases List.mem_cons.mp hv with rfl | hv
      · exact Or.inr hview
      · exact Or.inl hv

theorem snapshotAt_commit_self (hts : (s.commit gap t).1 = some ts) :
    (s.commit gap t).2.snapshotAt ts = t.view := by
  unfold commit at hts ⊢
  split at hts
  case isTrue => cases hts
  case isFalse h =>
    cases hts
    simp [h, snapshotAt]

theorem lastTs_commit_self (hts : (s.commit gap t).1 = some ts) :
    (s.commit gap t).2.lastTs = ts := by
  unfold commit at hts ⊢
  split at hts
  case isTrue => cases hts
  case isFalse h =>
    cases hts
    simp [h, lastTs]

end VersionedStore
