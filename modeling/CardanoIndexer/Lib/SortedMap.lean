import Mathlib.Data.List.Lex
import Mathlib.Order.Fin.Basic
import Mathlib.Tactic

/-!
# Finite maps as strictly sorted association lists

The invariant is a field, so maps with the same lookups are equal (`ext_get`).
-/

structure SortedMap (α β : Type*) [LinearOrder α] where
  entries : List (α × β)
  sorted : entries.Pairwise fun a b => a.1 < b.1

namespace SortedMap

variable {α β : Type*} [LinearOrder α] {m n : SortedMap α β} {l first rest : List (α × β)}
  {ws : List (α × Option β)} {k lo hi next : α} {e : α × β} {v : β}

instance [DecidableEq β] : DecidableEq (SortedMap α β) := fun m n =>
  decidable_of_iff (m.entries = n.entries) (by cases m; cases n; simp)

instance : EmptyCollection (SortedMap α β) := ⟨⟨[], List.Pairwise.nil⟩⟩

/-! ## Lookup -/

def find (k : α) : List (α × β) → Option β
  | [] => none
  | (k', v) :: rest => if k = k' then some v else find k rest

def get (m : SortedMap α β) (k : α) : Option β := find k m.entries

@[simp] theorem get_empty (k : α) : (∅ : SortedMap α β).get k = none := rfl

theorem find_eq_none_of_forall_ne (h : ∀ e ∈ l, e.1 ≠ k) : find k l = none := by
  induction l with
  | nil => rfl
  | cons e rest ih =>
    obtain ⟨k', v⟩ := e
    have hne : k ≠ k' := fun heq => h (k', v) (List.mem_cons_self ..) heq.symm
    simp only [find, if_neg hne]
    exact ih fun e he => h e (List.mem_cons_of_mem _ he)

theorem mem_of_find (h : find k l = some v) : (k, v) ∈ l := by
  induction l with
  | nil => cases h
  | cons e rest ih =>
    obtain ⟨k', v'⟩ := e
    by_cases hk : k = k'
    · simp only [find, hk, if_true, Option.some.injEq] at h
      simp [hk, h]
    · simp only [find, if_neg hk] at h
      exact List.mem_cons_of_mem _ (ih h)

theorem find_ne_none_of_mem (h : e ∈ l) : find e.1 l ≠ none := by
  induction l with
  | nil => simp at h
  | cons head rest ih =>
    by_cases hk : e.1 = head.1
    · simp [find, hk]
    · have hrest : e ∈ rest := (List.mem_cons.mp h).resolve_left fun heq => hk (heq ▸ rfl)
      simpa [find, hk] using ih hrest

theorem find_eq_some_iff (hsorted : l.Pairwise fun a b => a.1 < b.1) :
    find k l = some v ↔ (k, v) ∈ l := by
  induction l with
  | nil => simp [find]
  | cons e rest ih =>
    obtain ⟨k', v'⟩ := e
    rw [List.pairwise_cons] at hsorted
    by_cases hk : k = k'
    · subst hk
      have hrest : (k, v) ∉ rest := fun hmem => lt_irrefl k (hsorted.1 (k, v) hmem)
      simp [find, hrest, eq_comm]
    · simp [find, hk, ih hsorted.2]

theorem get_eq_some_iff (m : SortedMap α β) : m.get k = some v ↔ (k, v) ∈ m.entries :=
  find_eq_some_iff m.sorted

theorem get_isSome_iff (m : SortedMap α β) : (m.get k).isSome ↔ k ∈ m.entries.map Prod.fst := by
  simp only [Option.isSome_iff_exists, get_eq_some_iff, List.mem_map, Prod.exists,
    exists_and_right, exists_eq_right]

theorem entries_eq_of_mem_iff {l₁ l₂ : List (α × β)}
    (h₁ : l₁.Pairwise fun a b => a.1 < b.1) (h₂ : l₂.Pairwise fun a b => a.1 < b.1)
    (hmem : ∀ e, e ∈ l₁ ↔ e ∈ l₂) : l₁ = l₂ := by
  have hnodup : ∀ {l : List (α × β)}, l.Pairwise (fun a b => a.1 < b.1) → l.Nodup :=
    fun h => h.imp fun {a b} hlt (heq : a = b) => lt_irrefl b.1 (heq ▸ hlt)
  have hperm : l₁.Perm l₂ := (List.perm_ext_iff_of_nodup (hnodup h₁) (hnodup h₂)).mpr hmem
  refine hperm.eq_of_pairwise ?_ h₁ h₂
  intro a b _ _ hab hba
  exact absurd (hab.trans hba) (lt_irrefl _)

theorem ext_get (h : ∀ k, m.get k = n.get k) : m = n := by
  have hentries : m.entries = n.entries := by
    apply entries_eq_of_mem_iff m.sorted n.sorted
    rintro ⟨k, v⟩
    rw [← m.get_eq_some_iff, ← n.get_eq_some_iff, h]
  cases m
  cases n
  cases hentries
  rfl

theorem filter_of_split (hsorted : l.Pairwise fun a b => a.1 < b.1) (h : l = first ++ e :: rest) :
    (l.filter fun e' => e'.1 < e.1) = first ∧ (l.filter fun e' => e.1 < e'.1) = rest := by
  subst h
  rw [List.pairwise_append, List.pairwise_cons] at hsorted
  obtain ⟨-, ⟨hrest, -⟩, hcross⟩ := hsorted
  have hfirst : ∀ e' ∈ first, e'.1 < e.1 := fun e' he' => hcross e' he' e List.mem_cons_self
  constructor
  · have hnone : rest.filter (fun e' => e'.1 < e.1) = [] :=
      List.filter_eq_nil_iff.mpr fun e' he' => by simpa using (hrest e' he').le
    simpa [hnone] using fun a b hmem => hfirst (a, b) hmem
  · have hnone : first.filter (fun e' => e.1 < e'.1) = [] :=
      List.filter_eq_nil_iff.mpr fun e' he' => by simpa using (hfirst e' he').le
    simpa [hnone] using fun a b hmem => hrest (a, b) hmem

/-! ## Insertion and deletion -/

def insertEntry (k : α) (v : β) : List (α × β) → List (α × β)
  | [] => [(k, v)]
  | (k', v') :: rest =>
    if k < k' then (k, v) :: (k', v') :: rest
    else if k = k' then (k, v) :: rest
    else (k', v') :: insertEntry k v rest

theorem find_insertEntry (k k' : α) (v : β) (l : List (α × β)) :
    find k' (insertEntry k v l) = if k' = k then some v else find k' l := by
  induction l with
  | nil => rfl
  | cons e rest ih =>
    obtain ⟨key, value⟩ := e
    unfold insertEntry
    split
    · rfl
    · split
      case isTrue hnot heq =>
        subst heq
        by_cases hk : k' = k <;> simp [find, hk]
      case isFalse hnot hne =>
        simp only [find, ih]
        by_cases hkey : k' = key
        · have hkk : k' ≠ k := fun h => hne (h.symm.trans hkey)
          simp [hkey, hkey ▸ hkk]
        · simp [hkey]

theorem fst_mem_insertEntry (he : e ∈ insertEntry k v l) : e.1 = k ∨ e ∈ l := by
  induction l with
  | nil => simp_all [insertEntry]
  | cons head rest ih =>
    obtain ⟨key, value⟩ := head
    unfold insertEntry at he
    split at he
    · rcases List.mem_cons.mp he with rfl | he
      · exact Or.inl rfl
      · exact Or.inr he
    · split at he
      · rcases List.mem_cons.mp he with rfl | he
        · exact Or.inl rfl
        · exact Or.inr (List.mem_cons_of_mem _ he)
      · rcases List.mem_cons.mp he with rfl | he
        · exact Or.inr (List.mem_cons_self ..)
        · exact (ih he).imp_right (List.mem_cons_of_mem _)

theorem insertEntry_sorted (k : α) (v : β) (hl : l.Pairwise fun a b => a.1 < b.1) :
    (insertEntry k v l).Pairwise fun a b => a.1 < b.1 := by
  induction l with
  | nil => simp [insertEntry]
  | cons head rest ih =>
    obtain ⟨key, value⟩ := head
    have hcons := List.pairwise_cons.mp hl
    unfold insertEntry
    split
    case isTrue hlt =>
      refine List.pairwise_cons.mpr ⟨fun e he => ?_, hl⟩
      rcases List.mem_cons.mp he with rfl | he
      · exact hlt
      · exact hlt.trans (hcons.1 e he)
    case isFalse hnot =>
      split
      case isTrue heq =>
        subst heq
        exact List.pairwise_cons.mpr ⟨fun e he => hcons.1 e he, hcons.2⟩
      case isFalse hne =>
        refine List.pairwise_cons.mpr ⟨fun e he => ?_, ih hcons.2⟩
        rcases fst_mem_insertEntry he with hk | he
        · rw [hk]
          exact lt_of_le_of_ne (not_lt.mp hnot) (Ne.symm hne)
        · exact hcons.1 e he

def put (m : SortedMap α β) (k : α) (v : β) : SortedMap α β :=
  ⟨insertEntry k v m.entries, insertEntry_sorted k v m.sorted⟩

@[simp] theorem get_put (m : SortedMap α β) (k k' : α) (v : β) :
    (m.put k v).get k' = if k' = k then some v else m.get k' :=
  find_insertEntry k k' v m.entries

def restrict (m : SortedMap α β) (p : α → Bool) : SortedMap α β :=
  ⟨m.entries.filter fun e => p e.1, m.sorted.filter _⟩

@[simp] theorem get_restrict (m : SortedMap α β) (p : α → Bool) (k : α) :
    (m.restrict p).get k = if p k then m.get k else none := by
  ext v
  rw [get_eq_some_iff]
  simp only [restrict, List.mem_filter, ← get_eq_some_iff]
  by_cases hp : p k <;> simp [hp]

def erase (m : SortedMap α β) (k : α) : SortedMap α β := m.restrict fun k' => k' ≠ k

@[simp] theorem get_erase (m : SortedMap α β) (k k' : α) :
    (m.erase k).get k' = if k' = k then none else m.get k' := by
  by_cases hk : k' = k <;> simp [erase, hk]

def mapVal {γ : Type*} (m : SortedMap α β) (f : β → γ) : SortedMap α γ :=
  ⟨m.entries.map fun e => (e.1, f e.2), List.pairwise_map.mpr m.sorted⟩

@[simp] theorem get_mapVal {γ : Type*} (m : SortedMap α β) (f : β → γ) (k : α) :
    (m.mapVal f).get k = (m.get k).map f := by
  have hfind : ∀ l : List (α × β), find k (l.map fun e => (e.1, f e.2)) = (find k l).map f := by
    intro l
    induction l with
    | nil => rfl
    | cons e rest ih =>
      by_cases hk : k = e.1
      · simp [find, hk]
      · simpa [find, hk] using ih
  exact hfind m.entries

def extend (m n : SortedMap α β) : SortedMap α β :=
  n.entries.foldl (fun acc e => acc.put e.1 e.2) m

@[simp] theorem get_extend (m n : SortedMap α β) (k : α) :
    (m.extend n).get k = (n.get k).or (m.get k) := by
  have hfold : ∀ (l : List (α × β)) (acc : SortedMap α β),
      l.Pairwise (fun a b => a.1 < b.1) →
      (l.foldl (fun acc e => acc.put e.1 e.2) acc).get k = (find k l).or (acc.get k) := by
    intro l
    induction l with
    | nil => intro acc _; rfl
    | cons e rest ih =>
      intro acc hsorted
      rw [List.pairwise_cons] at hsorted
      rw [List.foldl_cons, ih _ hsorted.2, get_put]
      by_cases hk : k = e.1
      · have hrest : find k rest = none :=
          find_eq_none_of_forall_ne fun e' he' => by
            rw [hk]
            exact (hsorted.1 e' he').ne'
        simp [find, hk, hk ▸ hrest]
      · simp [find, hk]
  exact hfold n.entries m n.sorted

/-! ## Scans -/

def scan (m : SortedMap α β) (lo hi : α) : List (α × β) :=
  m.entries.filter fun e => lo ≤ e.1 && e.1 < hi

theorem mem_scan : (k, v) ∈ m.scan lo hi ↔ m.get k = some v ∧ lo ≤ k ∧ k < hi := by
  simp [scan, get_eq_some_iff]

theorem scan_sorted (m : SortedMap α β) (lo hi : α) :
    (m.scan lo hi).Pairwise fun a b => a.1 < b.1 :=
  m.sorted.filter _

def scanKeys (m : SortedMap α β) (lo hi : α) : List α := (m.scan lo hi).map Prod.fst

theorem mem_scanKeys : k ∈ m.scanKeys lo hi ↔ (m.get k).isSome ∧ lo ≤ k ∧ k < hi := by
  simp only [scanKeys, List.mem_map, Prod.exists, exists_and_right, exists_eq_right, mem_scan,
    Option.isSome_iff_exists]

/-! ## Lists of writes -/

def applyWrite (m : SortedMap α β) : α × Option β → SortedMap α β
  | (k, some v) => m.put k v
  | (k, none) => m.erase k

def applyWrites (m : SortedMap α β) (ws : List (α × Option β)) : SortedMap α β :=
  ws.foldl applyWrite m

def lastWrite (k : α) (ws : List (α × Option β)) : Option (Option β) :=
  (ws.reverse.find? fun w => w.1 = k).map Prod.snd

@[simp] theorem applyWrites_nil (m : SortedMap α β) : m.applyWrites [] = m := rfl

theorem applyWrites_append (m : SortedMap α β) (ws₁ ws₂ : List (α × Option β)) :
    m.applyWrites (ws₁ ++ ws₂) = (m.applyWrites ws₁).applyWrites ws₂ :=
  List.foldl_append

@[simp] theorem applyWrites_append_singleton (m : SortedMap α β) (ws : List (α × Option β))
    (w : α × Option β) : m.applyWrites (ws ++ [w]) = (m.applyWrites ws).applyWrite w := by
  simp [applyWrites]

@[simp] theorem get_applyWrite (m : SortedMap α β) (w : α × Option β) (k : α) :
    (m.applyWrite w).get k = if k = w.1 then w.2 else m.get k := by
  obtain ⟨k', _ | v⟩ := w <;> simp [applyWrite]

@[simp] theorem lastWrite_nil (k : α) : lastWrite k ([] : List (α × Option β)) = none := rfl

theorem lastWrite_append (k : α) (ws₁ ws₂ : List (α × Option β)) :
    lastWrite k (ws₁ ++ ws₂) = (lastWrite k ws₂).or (lastWrite k ws₁) := by
  simp only [lastWrite, List.reverse_append, List.find?_append]
  cases ws₂.reverse.find? fun w => w.1 = k <;> simp

theorem lastWrite_singleton (k : α) (w : α × Option β) :
    lastWrite k [w] = if k = w.1 then some w.2 else none := by
  by_cases hk : w.1 = k
  · simp [lastWrite, hk]
  · simp [lastWrite, hk, Ne.symm hk]

theorem lastWrite_eq_none_iff : lastWrite k ws = none ↔ k ∉ ws.map Prod.fst := by
  simp only [lastWrite, Option.map_eq_none_iff, List.find?_eq_none, List.mem_reverse,
    decide_eq_true_eq, List.mem_map, not_exists, not_and]

theorem mem_of_lastWrite {v : Option β} (h : lastWrite k ws = some v) : (k, v) ∈ ws := by
  obtain ⟨w, hfind, rfl⟩ := Option.map_eq_some_iff.mp h
  have hk : w.1 = k := by simpa using List.find?_some hfind
  have hmem := List.mem_reverse.mp (List.mem_of_find?_eq_some hfind)
  rwa [← hk]

theorem get_applyWrites (m : SortedMap α β) (ws : List (α × Option β)) (k : α) :
    (m.applyWrites ws).get k = (lastWrite k ws).getD (m.get k) := by
  induction ws using List.reverseRecOn with
  | nil => rfl
  | append_singleton ws w ih =>
    rw [applyWrites_append_singleton, get_applyWrite, lastWrite_append, lastWrite_singleton]
    by_cases hk : k = w.1
    · simp [hk]
    · simp [hk, ih]

theorem get_applyWrites_of_not_mem (hk : k ∉ ws.map Prod.fst) :
    (m.applyWrites ws).get k = m.get k := by
  rw [get_applyWrites, lastWrite_eq_none_iff.mpr hk, Option.getD_none]

theorem lastWrite_of_nodup (hnodup : (ws.map Prod.fst).Nodup) {v : Option β} (hmem : (k, v) ∈ ws) :
    lastWrite k ws = some v := by
  induction ws with
  | nil => simp at hmem
  | cons w rest ih =>
    rw [List.map_cons, List.nodup_cons] at hnodup
    rw [← List.singleton_append, lastWrite_append, lastWrite_singleton]
    rcases List.mem_cons.mp hmem with rfl | hmem
    · rw [lastWrite_eq_none_iff.mpr hnodup.1]
      simp
    · simp [ih hnodup.2 hmem]

theorem get_applyWrites_eq_some_iff (hnodup : (ws.map Prod.fst).Nodup) {v : β} :
    (m.applyWrites ws).get k = some v ↔
      (k, some v) ∈ ws ∨ k ∉ ws.map Prod.fst ∧ m.get k = some v := by
  rw [get_applyWrites]
  cases hlast : lastWrite k ws with
  | none =>
    have hk := lastWrite_eq_none_iff.mp hlast
    have hv : (k, some v) ∉ ws := fun hmem => hk (List.mem_map_of_mem hmem)
    simp [hk, hv]
  | some w =>
    have hmem := mem_of_lastWrite hlast
    have hk : k ∈ ws.map Prod.fst := List.mem_map_of_mem hmem
    rw [Option.getD_some, or_iff_left fun h => h.1 hk]
    exact ⟨fun heq => heq ▸ hmem, fun hv =>
      Option.some.inj (hlast.symm.trans (lastWrite_of_nodup hnodup hv))⟩

theorem lastWrite_map (f : α → Option β) (ks : List α) (k : α) :
    lastWrite k (ks.map fun k => (k, f k)) = if k ∈ ks then some (f k) else none := by
  induction ks with
  | nil => rfl
  | cons head rest ih =>
    rw [List.map_cons, ← List.singleton_append, lastWrite_append, lastWrite_singleton, ih]
    by_cases hrest : k ∈ rest
    · simp [hrest]
    · rw [if_neg hrest, Option.none_or]
      by_cases hhead : k = head
      · subst hhead
        simp
      · simp [hrest, hhead]

theorem applyWrites_deletes (m : SortedMap α β) (ks : List α) :
    m.applyWrites (ks.map fun k => (k, none)) = m.restrict fun k => k ∉ ks := by
  apply ext_get
  intro k
  rw [get_applyWrites, get_restrict, lastWrite_map fun _ => none]
  by_cases hk : k ∈ ks <;> simp [hk]

theorem get_applyWrites_congr (h : m.get k = n.get k) (ws : List (α × Option β)) :
    (m.applyWrites ws).get k = (n.applyWrites ws).get k := by
  rw [get_applyWrites, get_applyWrites, h]

/-! ## Scans after writes -/

theorem scan_congr (h : ∀ k, lo ≤ k → k < hi → m.get k = n.get k) :
    m.scan lo hi = n.scan lo hi := by
  apply entries_eq_of_mem_iff (m.scan_sorted lo hi) (n.scan_sorted lo hi)
  rintro ⟨k, v⟩
  rw [mem_scan, mem_scan]
  exact and_congr_left fun hrange => by rw [h k hrange.1 hrange.2]

theorem scan_applyWrites_append {rows : List (α × β)}
    (hsorted : (m.scan lo hi ++ rows).Pairwise fun a b => a.1 < b.1)
    (hrange : ∀ e ∈ rows, lo ≤ e.1 ∧ e.1 < hi) :
    (m.applyWrites (rows.map fun e => (e.1, some e.2))).scan lo hi = m.scan lo hi ++ rows := by
  apply entries_eq_of_mem_iff (scan_sorted ..) hsorted
  rw [List.pairwise_append] at hsorted
  obtain ⟨-, hrows, hbehind⟩ := hsorted
  have hnodup : ((rows.map fun e => (e.1, some e.2)).map Prod.fst).Nodup := by
    rw [List.map_map, List.Nodup, List.pairwise_map]
    exact hrows.imp fun hlt => hlt.ne
  rintro ⟨k, v⟩
  rw [mem_scan, get_applyWrites, List.mem_append, mem_scan]
  by_cases hk : k ∈ rows.map Prod.fst
  · obtain ⟨⟨k, w⟩, hmem, rfl⟩ := List.mem_map.mp hk
    have hlast := lastWrite_of_nodup hnodup (List.mem_map_of_mem hmem)
    have hrow : (k, v) ∈ rows ↔ w = v :=
      ⟨fun hv => Option.some.inj ((find_eq_some_iff hrows).mpr hmem ▸
        (find_eq_some_iff hrows).mpr hv), fun heq => heq ▸ hmem⟩
    rw [hlast, Option.getD_some, Option.some.injEq, hrow]
    have hnot : ¬ (m.get k = some v ∧ lo ≤ k ∧ k < hi) := fun h =>
      lt_irrefl k (hbehind _ (mem_scan.mpr h) _ hmem)
    exact ⟨fun h => Or.inr h.1, fun h => ⟨h.resolve_left hnot, hrange _ hmem⟩⟩
  · have hlast : lastWrite k (rows.map fun e => (e.1, some e.2)) = none := by
      rw [lastWrite_eq_none_iff]
      simpa using hk
    have hnot : (k, v) ∉ rows := fun hmem => hk (List.mem_map_of_mem hmem)
    rw [hlast, Option.getD_none]
    exact ⟨Or.inl, fun h => h.resolve_right hnot⟩

theorem scan_applyWrites_deletes (m : SortedMap α β) (lo hi lo' hi' : α) :
    (m.applyWrites ((m.scanKeys lo' hi').map fun k => (k, none))).scan lo hi =
      (m.scan lo hi).filter fun e => !(lo' ≤ e.1 && e.1 < hi') := by
  rw [applyWrites_deletes]
  simp only [scan, restrict, List.filter_filter]
  refine List.filter_congr fun e he => ?_
  have hsome : (m.get e.1).isSome := m.get_isSome_iff.mpr (List.mem_map_of_mem he)
  simp [mem_scanKeys, hsome, ← not_lt, Bool.and_comm]

theorem scan_behind {last : α} (hnext : ∀ k, next ≤ k ↔ last < k) (hlo : lo ≤ last) :
    m.scan next hi = (m.scan lo hi).filter fun e => last < e.1 := by
  rw [scan, scan, List.filter_filter]
  refine List.filter_congr fun e _ => ?_
  simp only [hnext, ← Bool.decide_and, decide_eq_decide]
  constructor
  · rintro ⟨hgt, hhi⟩
    exact ⟨hgt, hlo.trans hgt.le, hhi⟩
  · rintro ⟨hgt, -, hhi⟩
    exact ⟨hgt, hhi⟩

theorem scan_next {last : α} (hnext : ∀ k, next ≤ k ↔ last < k)
    (h : m.scan lo hi = first ++ (last, v) :: rest) : m.scan next hi = rest := by
  have hlast : lo ≤ last := (mem_scan.mp (h ▸ by simp : (last, v) ∈ m.scan lo hi)).2.1
  rw [scan_behind hnext hlast]
  exact (filter_of_split (m.scan_sorted lo hi) h).2

theorem scan_before {last : α} (h : m.scan lo hi = first ++ (last, v) :: rest) :
    m.scan lo last = first := by
  have hlast : last < hi := (mem_scan.mp (h ▸ by simp : (last, v) ∈ m.scan lo hi)).2.2
  rw [← (filter_of_split (m.scan_sorted lo hi) h).1, scan, scan, List.filter_filter]
  refine List.filter_congr fun e _ => ?_
  simp only [← Bool.decide_and, decide_eq_decide]
  exact ⟨fun ⟨hlo, hlt⟩ => ⟨hlt, hlo, hlt.trans hlast⟩, fun ⟨hlt, hlo, _⟩ => ⟨hlo, hlt⟩⟩

/-! ## Iterators -/

def entriesFrom (m : SortedMap α β) (k : α) : List (α × β) := m.entries.filter fun e => k ≤ e.1

def dropFront (m : SortedMap α β) (p : α × β → Bool) : SortedMap α β :=
  ⟨m.entries.dropWhile p, m.sorted.sublist (List.dropWhile_sublist p)⟩

theorem mem_entriesFrom : e ∈ m.entriesFrom k ↔ e ∈ m.entries ∧ k ≤ e.1 := by
  simp [entriesFrom]

theorem entries_eq_append_entriesFrom (m : SortedMap α β) (k : α) :
    m.entries = (m.entries.filter fun e => e.1 < k) ++ m.entriesFrom k := by
  have hsorted : ((m.entries.filter fun e => e.1 < k) ++ m.entriesFrom k).Pairwise
      fun a b => a.1 < b.1 := by
    refine List.pairwise_append.mpr ⟨m.sorted.filter _, m.sorted.filter _, ?_⟩
    intro a ha b hb
    have hlt : a.1 < k := by simpa using (List.mem_filter.mp ha).2
    exact hlt.trans_le (mem_entriesFrom.mp hb).2
  apply entries_eq_of_mem_iff m.sorted hsorted
  intro e
  rw [List.mem_append, mem_entriesFrom, List.mem_filter, ← and_or_left]
  simp [lt_or_ge]

theorem entries_put_of_forall_lt (h : ∀ e ∈ m.entries, e.1 < k) (v : β) :
    (m.put k v).entries = m.entries ++ [(k, v)] := by
  have hsorted : (m.entries ++ [(k, v)]).Pairwise fun a b => a.1 < b.1 :=
    List.pairwise_append.mpr ⟨m.sorted, List.pairwise_singleton .., by simpa using h⟩
  apply entries_eq_of_mem_iff (m.put k v).sorted hsorted
  rintro ⟨k', v'⟩
  rw [← get_eq_some_iff, get_put, List.mem_append, ← get_eq_some_iff, List.mem_singleton]
  by_cases hk : k' = k
  · subst hk
    have hnone : m.get k' ≠ some v' := fun hget =>
      lt_irrefl _ (h _ (m.get_eq_some_iff.mp hget))
    simp [hnone, eq_comm]
  · simp [hk]

theorem getLast?_entries_of_forall_le (hget : m.get k = some v) (hmax : ∀ e ∈ m.entries, e.1 ≤ k) :
    m.entries.getLast? = some (k, v) := by
  obtain ⟨before, after, hentries⟩ := List.append_of_mem (m.get_eq_some_iff.mp hget)
  have hafter := (filter_of_split m.sorted hentries).2
  rw [List.filter_eq_nil_iff.mpr fun e he => by simpa using hmax e he] at hafter
  simp [hentries, ← hafter]

theorem entriesFrom_of_split {before after : List (α × β)} (h : m.entries = before ++ e :: after) :
    m.entriesFrom e.1 = e :: after := by
  have hsplit := m.entries_eq_append_entriesFrom e.1
  rw [(filter_of_split m.sorted h).1, h] at hsplit
  exact (List.append_cancel_left hsplit).symm

theorem entriesFrom_of_get (h : m.get k = some v) : ∃ rest, m.entriesFrom k = (k, v) :: rest := by
  obtain ⟨before, after, hentries⟩ := List.append_of_mem (m.get_eq_some_iff.mp h)
  exact ⟨after, entriesFrom_of_split hentries⟩

theorem entriesFrom_succ {m : SortedMap ℕ β} {k : ℕ} {rest : List (ℕ × β)}
    (h : m.entriesFrom k = (k, v) :: rest) :
    m.entriesFrom (k + 1) = rest ∧ ∀ e ∈ rest, k < e.1 := by
  have hsorted : (m.entriesFrom k).Pairwise fun a b => a.1 < b.1 := m.sorted.filter _
  refine ⟨?_, (List.pairwise_cons.mp (h ▸ hsorted)).1⟩
  have hnil : m.entriesFrom k = [] ++ (k, v) :: rest := h
  rw [← (filter_of_split hsorted hnil).2, entriesFrom, entriesFrom, List.filter_filter]
  refine List.filter_congr fun e _ => ?_
  rw [← Bool.decide_and]
  exact decide_eq_decide.mpr (by omega)

theorem get_applyWrites_stores (m : SortedMap α β) (rows : List (α × β)) (k : α) :
    (m.applyWrites (rows.map fun e => (e.1, some e.2))).get k =
      (((∅ : SortedMap α β).applyWrites (rows.map fun e => (e.1, some e.2))).get k).or
        (m.get k) := by
  rw [get_applyWrites, get_applyWrites, get_empty]
  cases hlast : lastWrite k (rows.map fun e => (e.1, some e.2)) with
  | none => rfl
  | some value =>
    obtain ⟨e, -, heq⟩ := List.mem_map.mp (mem_of_lastWrite hlast)
    cases (Prod.mk.inj heq).2
    rfl

/-! ## Sums -/

def sumOf (f : α × β → ℕ) (m : SortedMap α β) : ℕ := (m.entries.map f).sum

theorem nodup_entries (m : SortedMap α β) : m.entries.Nodup :=
  m.sorted.imp fun hlt heq => hlt.ne (congrArg Prod.fst heq)

theorem sumOf_mono {f g : α × β → ℕ} (h : ∀ e, f e ≤ g e) (m : SortedMap α β) :
    m.sumOf f ≤ m.sumOf g :=
  List.sum_le_sum fun e _ => h e

theorem sumOf_restrict_add (m : SortedMap α β) (f : α × β → ℕ) {ks : List α} (hnodup : ks.Nodup) :
    (m.restrict fun k => k ∉ ks).sumOf f +
      (ks.map fun k => (m.get k).elim 0 fun v => f (k, v)).sum = m.sumOf f := by
  have hsum : ∀ ks : List α, (ks.map fun k => (m.get k).elim 0 fun v => f (k, v)).sum =
      ((ks.filterMap fun k => (m.get k).map fun v => (k, v)).map f).sum := by
    intro ks
    induction ks with
    | nil => rfl
    | cons k rest ih => cases hget : m.get k <;> simp [hget, ih]
  have hmem : ∀ e : α × β, e ∈ ks.filterMap (fun k => (m.get k).map fun v => (k, v)) ↔
      e.1 ∈ ks ∧ e ∈ m.entries := by
    rintro ⟨k, v⟩
    rw [← m.get_eq_some_iff, List.mem_filterMap]
    constructor
    · rintro ⟨k', hk', heq⟩
      obtain ⟨v', hget, heq⟩ := Option.map_eq_some_iff.mp heq
      cases heq
      exact ⟨hk', hget⟩
    · rintro ⟨hk, hget⟩
      exact ⟨k, hk, by rw [hget]; rfl⟩
  have hperm : ((m.restrict fun k => k ∉ ks).entries ++
      ks.filterMap fun k => (m.get k).map fun v => (k, v)).Perm m.entries := by
    refine (List.perm_ext_iff_of_nodup ?_ m.nodup_entries).mpr fun e => ?_
    · refine List.nodup_append.mpr ⟨(m.restrict _).nodup_entries, ?_, ?_⟩
      · refine hnodup.filterMap fun k k' e he he' => ?_
        obtain ⟨v, -, rfl⟩ := Option.map_eq_some_iff.mp he
        obtain ⟨v', -, heq⟩ := Option.map_eq_some_iff.mp he'
        exact (congrArg Prod.fst heq).symm
      · rintro e he _ he' rfl
        exact absurd ((hmem e).mp he').1 (by simpa using (List.mem_filter.mp he).2)
    · rw [List.mem_append, hmem, restrict, List.mem_filter]
      by_cases hk : e.1 ∈ ks <;> simp [hk]
  rw [hsum, sumOf, sumOf, ← List.sum_append, ← List.map_append]
  exact (hperm.map f).sum_eq

theorem sumOf_put (m : SortedMap α β) (f : α × β → ℕ) (k : α) (v : β) :
    (m.put k v).sumOf f + ((m.get k).elim 0 fun v' => f (k, v')) = m.sumOf f + f (k, v) := by
  have hrest : ((m.put k v).restrict fun k' => k' ∉ [k]) = m.restrict fun k' => k' ∉ [k] := by
    refine ext_get fun k' => ?_
    by_cases hk : k' = k <;> simp [hk]
  have hnew := sumOf_restrict_add (m.put k v) f (List.nodup_singleton k)
  have hold := sumOf_restrict_add m f (List.nodup_singleton k)
  rw [hrest] at hnew
  simp only [List.map_singleton, List.sum_singleton, get_put, if_true, Option.elim_some] at hnew hold
  omega

end SortedMap
