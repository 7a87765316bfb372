import Mathlib.Data.List.Induction
import Mathlib.Data.List.Sort
import Mathlib.Data.Prod.Lex

/-!
# Selections by a key
-/

namespace Sorting

variable {α κ : Type*}

section ByKey

variable [LinearOrder κ]

def byKey (key : α → κ) (items : List α) : List α :=
  items.insertionSort fun a b => key a ≤ key b

variable {key : α → κ} {items : List α} {a : α}

@[simp] theorem mem_byKey (key : α → κ) : a ∈ byKey key items ↔ a ∈ items := List.mem_insertionSort _

@[simp] theorem byKey_eq_nil : byKey key items = [] ↔ items = [] := by
  rw [← List.length_eq_zero_iff, ← List.length_eq_zero_iff, byKey, List.length_insertionSort]

theorem pairwise_byKey (key : α → κ) (items : List α) :
    (byKey key items).Pairwise fun a b => key a ≤ key b := by
  have : Std.Total fun a b : α => key a ≤ key b := ⟨fun a b => le_total (key a) (key b)⟩
  have : IsTrans α fun a b => key a ≤ key b := ⟨fun _ _ _ => le_trans⟩
  exact List.pairwise_insertionSort _ items

theorem pairwise_lt_byKey (hnodup : items.Nodup)
    (hinj : ∀ a ∈ items, ∀ b ∈ items, key a = key b → a = b) :
    (byKey key items).Pairwise fun a b => key a < key b := by
  have hdistinct : (byKey key items).Nodup := (List.perm_insertionSort ..).nodup_iff.mpr hnodup
  refine ((pairwise_byKey key items).and hdistinct).imp_of_mem fun {a b} ha hb hab => ?_
  exact lt_of_le_of_ne hab.1 fun heq =>
    hab.2 (hinj a ((mem_byKey key).mp ha) b ((mem_byKey key).mp hb) heq)

theorem first_spec (h : (byKey key items).head? = some a) :
    a ∈ items ∧ ∀ b ∈ items, key a ≤ key b := by
  obtain ⟨rest, hsorted⟩ := List.head?_eq_some_iff.mp h
  have hpairwise := pairwise_byKey key items
  rw [hsorted, List.pairwise_cons] at hpairwise
  refine ⟨(mem_byKey key).mp (hsorted ▸ List.mem_cons_self ..), fun b hb => ?_⟩
  rw [← mem_byKey key, hsorted, List.mem_cons] at hb
  rcases hb with rfl | hb
  · exact le_rfl
  · exact hpairwise.1 b hb

theorem exists_first (key : α → κ) (h : items ≠ []) :
    ∃ a, (byKey key items).head? = some a := by
  cases hsorted : byKey key items with
  | nil => exact absurd (byKey_eq_nil.mp hsorted) h
  | cons a rest => exact ⟨a, rfl⟩

theorem last_spec (h : (byKey key items).getLast? = some a) :
    a ∈ items ∧ ∀ b ∈ items, key b ≤ key a := by
  obtain ⟨earlier, hsorted⟩ := List.getLast?_eq_some_iff.mp h
  have hpairwise := pairwise_byKey key items
  rw [hsorted, List.pairwise_append] at hpairwise
  refine ⟨(mem_byKey key).mp (hsorted ▸ List.mem_append_right _ (List.mem_singleton_self a)),
    fun b hb => ?_⟩
  rw [← mem_byKey key, hsorted, List.mem_append, List.mem_singleton] at hb
  rcases hb with hb | rfl
  · exact hpairwise.2.2 b hb a (List.mem_singleton_self a)
  · exact le_rfl

theorem exists_last (key : α → κ) (h : items ≠ []) :
    ∃ a, (byKey key items).getLast? = some a := by
  have hne : byKey key items ≠ [] := mt byKey_eq_nil.mp h
  exact ⟨_, List.getLast?_eq_some_getLast hne⟩

end ByKey

section GroupBy

variable [DecidableEq κ] {groups : List (κ × List α)} {members : List α}

def push : List (κ × List α) → κ → α → List (κ × List α)
  | [], name, a => [(name, [a])]
  | (other, members) :: rest, name, a =>
    if other = name then (other, members ++ [a]) :: rest
    else (other, members) :: push rest name a

def groupBy (name : α → Option κ) (items : List α) : List (κ × List α) :=
  items.foldl (fun groups a =>
    match name a with
    | some n => push groups n a
    | none => groups) []

theorem map_fst_push (groups : List (κ × List α)) (name : κ) (a : α) :
    (push groups name a).map Prod.fst =
      if name ∈ groups.map Prod.fst then groups.map Prod.fst
      else groups.map Prod.fst ++ [name] := by
  induction groups with
  | nil => rfl
  | cons group rest ih =>
    obtain ⟨other, members⟩ := group
    by_cases heq : other = name
    · simp [push, heq]
    · simp only [push, if_neg heq, List.map_cons, ih, List.mem_cons, Ne.symm heq, false_or]
      split <;> rfl

theorem nodup_push (h : (groups.map Prod.fst).Nodup) (name : κ) (a : α) :
    ((push groups name a).map Prod.fst).Nodup := by
  rw [map_fst_push]
  split
  case isTrue => exact h
  case isFalse hnew =>
    rw [← List.concat_eq_append]
    exact h.concat hnew

theorem mem_push (h : (groups.map Prod.fst).Nodup) {name other : κ} {a : α} :
    (other, members) ∈ push groups name a ↔
      if other = name then
        (∃ old, (name, old) ∈ groups ∧ members = old ++ [a]) ∨
          (name ∉ groups.map Prod.fst ∧ members = [a])
      else (other, members) ∈ groups := by
  induction groups with
  | nil =>
    by_cases heq : other = name <;> simp [push, heq]
  | cons group rest ih =>
    obtain ⟨first, held⟩ := group
    rw [List.map_cons, List.nodup_cons] at h
    by_cases hfirst : first = name
    · subst hfirst
      by_cases heq : other = first
      · subst heq
        have hrest : ∀ old, (other, old) ∉ rest := fun old hmem =>
          h.1 (List.mem_map.mpr ⟨_, hmem, rfl⟩)
        simp [push, hrest]
      · simp [push, heq]
    · simp only [push, if_neg hfirst, List.mem_cons, Prod.mk.injEq, ih h.2, List.map_cons]
      by_cases heq : other = name
      · subst heq
        simp [Ne.symm hfirst]
      · simp [heq]

theorem mem_groupBy {name : α → Option κ} {items : List α} {n : κ} :
    (n, members) ∈ groupBy name items ↔
      members = items.filter (fun a => name a = some n) ∧ members ≠ [] := by
  suffices h : ((groupBy name items).map Prod.fst).Nodup ∧ ∀ n members,
      (n, members) ∈ groupBy name items ↔
        members = items.filter (fun a => name a = some n) ∧ members ≠ [] from h.2 n members
  induction items using List.reverseRecOn with
  | nil =>
    refine ⟨List.nodup_nil, fun n members => ?_⟩
    simp [groupBy]
  | append_singleton past a ih =>
    obtain ⟨hnodup, hgroups⟩ := ih
    have hfold : groupBy name (past ++ [a]) = match name a with
        | some n => push (groupBy name past) n a
        | none => groupBy name past := by
      rw [groupBy, List.foldl_append]
      rfl
    rw [hfold]
    cases hname : name a with
    | none =>
      refine ⟨hnodup, fun n members => ?_⟩
      simp [hgroups, hname]
    | some m =>
      refine ⟨nodup_push hnodup m a, fun n members => ?_⟩
      rw [mem_push hnodup]
      by_cases heq : n = m
      · subst heq
        have habsent : n ∉ (groupBy name past).map Prod.fst ↔
            past.filter (fun a => name a = some n) = [] := by
          constructor
          · intro hmem
            by_contra hne
            exact hmem (List.mem_map.mpr ⟨_, (hgroups n _).mpr ⟨rfl, hne⟩, rfl⟩)
          · rintro hnil hmem
            obtain ⟨⟨_, held⟩, hheld, rfl⟩ := List.mem_map.mp hmem
            obtain ⟨heq, hne⟩ := (hgroups _ held).mp hheld
            exact hne (heq.trans hnil)
        simp only [if_true, habsent, hgroups, List.filter_append]
        by_cases hnil : past.filter (fun a => name a = some n) = []
        · simp only [hnil, hname, List.nil_append, List.filter_cons, List.filter_nil]
          constructor
          · rintro (⟨old, ⟨rfl, hne⟩, -⟩ | ⟨-, rfl⟩)
            · exact absurd rfl hne
            · simp
          · rintro ⟨rfl, -⟩
            simp
        · simp only [hnil, hname, List.filter_cons, List.filter_nil]
          constructor
          · rintro (⟨old, ⟨rfl, -⟩, rfl⟩ | ⟨hfalse, -⟩)
            · simp
            · exact hfalse.elim
          · rintro ⟨rfl, -⟩
            exact Or.inl ⟨_, ⟨rfl, hnil⟩, by simp⟩
      · have hne : ¬ m = n := fun h => heq h.symm
        simp [heq, hne, hgroups, hname]

end GroupBy

end Sorting
