import CardanoIndexer.Lib.Run
import CardanoIndexer.Lib.Transaction

/-!
# Computations with an injected fault

`Except.Heals`: a computation fails with the error of the injected fault, or does what it does
without it.
-/

namespace Except

universe u v

variable {ε : Type u} {α β α' β' : Type v} {e : ε} {f : α → β} {x : Except ε α} {y : Except ε β}
  {k : α → Except ε α'} {g : α' → β'}

def Heals (e : ε) (f : α → β) (x : Except ε α) (y : Except ε β) : Prop :=
  x = .error e ∨ y = f <$> x

theorem heals_ok (e : ε) (f : α → β) (a : α) : Heals e f (.ok a) (.ok (f a)) := Or.inr rfl

theorem heals_error (e e' : ε) (f : α → β) : Heals e f (.error e') (.error e') := Or.inr rfl

theorem Heals.bind {l : β → Except ε β'} (h : Heals e f x y) (hk : ∀ a, Heals e g (k a) (l (f a))) :
    Heals e g (x >>= k) (y >>= l) := by
  rcases h with rfl | rfl
  · exact Or.inl rfl
  · cases x with
    | error e' => exact Or.inr rfl
    | ok a => exact hk a

theorem Heals.bind_same (x : Except ε α) {l : α → Except ε β'} (hk : ∀ a, Heals e g (k a) (l a)) :
    Heals e g (x >>= k) (x >>= l) := by
  cases x with
  | error e' => exact Or.inr rfl
  | ok a => exact hk a

end Except

namespace Txn

variable {α β : Type*} [LinearOrder α] {t' t : Txn α β} {keys : List α} {limit : ℕ}

def heal (t : Txn α β) : Txn α β := { t with failRead := none }

@[simp] theorem view_heal (t : Txn α β) : t.heal.view = t.view := rfl

@[simp] theorem heal_writeAll (t : Txn α β) (ws : List (α × Option β)) :
    (t.writeAll ws).heal = t.heal.writeAll ws := rfl

@[simp] theorem heal_start (snapshot : SortedMap α β) (failRead : Option ℕ) :
    (start snapshot failRead).heal = start snapshot none := rfl

theorem ReadFrom.heal_eq (h : ReadFrom t t') : t'.heal = t.heal :=
  Txn.ext h.base_eq h.mutations_eq rfl

theorem batchGetAll_heal (hlimit : 0 < limit) {kvs : SortedMap α β}
    (h : t.batchGetAll limit keys = some (kvs, t')) :
    t.heal.batchGetAll limit keys = some (kvs, t'.heal) := by
  obtain ⟨kvs', hhealed, -⟩ :=
    batchGetAll_of_faultless (t := t.heal) rfl hlimit keys
  rw [hhealed, (batchGetAll_eq_some hlimit hhealed).1, (batchGetAll_eq_some hlimit h).1,
    (batchGetAll_eq_some hlimit h).2.heal_eq, view_heal]

theorem deleteRange_heal (hlimit : 0 < limit) {lo hi : α}
    (h : t.deleteRange lo hi limit = some (t', keys)) :
    t.heal.deleteRange lo hi limit = some (t'.heal, keys) := by
  obtain ⟨rfl, hfrom⟩ := deleteRange_eq_some hlimit h
  rw [deleteRange_of_faultless (t := t.heal) rfl lo hi hlimit, hfrom.heal_eq, heal_writeAll,
    view_heal]

end Txn
