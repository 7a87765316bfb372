import Mathlib.Data.List.Basic
import Mathlib.Tactic

/-!
# Following cursors
-/

namespace Paging

variable {α β γ ε ρ : Type} {fuel : ℕ} {x : β}

def follow (server : ℕ → Option γ → Except ε (List α × Option γ)) :
    ℕ → ℕ → Option γ → Option (Except ε (List (List α)))
  | 0, _, _ => none
  | fuel + 1, n, cursor =>
    match server n cursor with
    | .error error => some (.error error)
    | .ok (page, none) => some (.ok [page])
    | .ok (page, some next) => (follow server fuel (n + 1) (some next)).map (·.map (page :: ·))

def Yields (E : ε → Prop) (all : List α) : Option (Except ε (List (List α))) → Prop
  | some (.ok pages) => pages.flatten = all
  | some (.error error) => E error
  | none => False

theorem Yields.cons {E : ε → Prop} {all : List α} {result : Option (Except ε (List (List α)))}
    (h : Yields E all result) (page : List α) :
    Yields E (page ++ all) (result.map (·.map (page :: ·))) := by
  match result, h with
  | some (.error error), h => exact h
  | some (.ok pages), h =>
    change (page :: pages).flatten = page ++ all
    rw [List.flatten_cons, show pages.flatten = all from h]

def IsPage (E : ε → Prop) (count : ℕ) (shown : β → α) (cursorOf : β → γ) (remaining : List β) :
    Except ε (List α × Option γ) → Prop
  | .error error => E error
  | .ok (page, next) => page = (remaining.take count).map shown ∧
      next = if count < remaining.length then remaining[count - 1]?.map cursorOf else none

theorem IsPage.mono {E E' : ε → Prop} {count : ℕ} {shown : β → α} {cursorOf : β → γ}
    {remaining : List β} {answer : Except ε (List α × Option γ)}
    (h : IsPage E count shown cursorOf remaining answer) (hE : ∀ error, E error → E' error) :
    IsPage E' count shown cursorOf remaining answer := by
  cases answer with
  | error error => exact hE error h
  | ok answer => exact h

theorem isPage_of_take_eq {E : ε → Prop} {count : ℕ} {shown : β → α} {cursorOf : β → γ}
    {found remaining : List β} (hcount : 0 < count)
    (h : found.take (count + 1) = remaining.take (count + 1)) :
    IsPage E count shown cursorOf remaining (.ok ((found.take count).map shown,
      if count < found.length then found[count - 1]?.map cursorOf else none)) := by
  have htake : found.take count = remaining.take count := by
    have hcongr := congrArg (List.take count) h
    rwa [List.take_take, List.take_take, Nat.min_eq_left (by omega)] at hcongr
  have hlast : found[count - 1]? = remaining[count - 1]? := by
    have hcongr := congrArg (fun l : List β => l[count - 1]?) h
    simpa only [List.getElem?_take_of_lt (show count - 1 < count + 1 by omega)] using hcongr
  have hlength : count < found.length ↔ count < remaining.length := by
    have hcongr := congrArg List.length h
    rw [List.length_take, List.length_take] at hcongr
    omega
  refine ⟨by rw [htake], ?_⟩
  rw [hlast]
  exact if_congr hlength rfl rfl

section Behind

variable (R : ρ → ρ → Prop) [DecidableRel R] (rank : β → ρ) {bound : Option ρ}

def behind (bound : ρ) (all : List β) : List β := all.filter fun x => R bound (rank x)

def remaining (bound : Option ρ) (all : List β) : List β :=
  match bound with
  | none => all
  | some bound => behind R rank bound all

variable {R rank}

theorem mem_remaining {all : List β} :
    x ∈ remaining R rank bound all ↔ x ∈ all ∧ ∀ b, bound = some b → R b (rank x) := by
  cases bound with
  | none => simp [remaining]
  | some b => simp [remaining, behind]

theorem pairwise_remaining {S : β → β → Prop} {all : List β} (h : all.Pairwise S) :
    (remaining R rank bound all).Pairwise S := by
  cases bound with
  | none => exact h
  | some b => exact h.filter _

theorem behind_of_split [IsTrans ρ R] [Std.Irrefl R] {first rest : List β}
    (hsorted : (first ++ x :: rest).Pairwise fun a b => R (rank a) (rank b)) :
    behind R rank (rank x) (first ++ x :: rest) = rest := by
  rw [List.pairwise_append, List.pairwise_cons] at hsorted
  obtain ⟨-, ⟨hrest, -⟩, hfirst⟩ := hsorted
  have hnone : first.filter (fun a => R (rank x) (rank a)) = [] := by
    rw [List.filter_eq_nil_iff]
    intro a ha hbehind
    have hlt := hfirst a ha x List.mem_cons_self
    exact irrefl (r := R) _ (trans_of R hlt (of_decide_eq_true hbehind))
  have hall : rest.filter (fun a => R (rank x) (rank a)) = rest := by
    rw [List.filter_eq_self]
    intro a ha
    exact decide_eq_true (hrest a ha)
  have hself : ¬ decide (R (rank x) (rank x)) = true := by
    simpa using irrefl (r := R) (rank x)
  rw [behind, List.filter_append, hnone,
    List.filter_cons_of_neg (p := fun a => decide (R (rank x) (rank a))) hself, hall,
    List.nil_append]

theorem behind_behind [IsTrans ρ R] {bound : ρ} {all : List β} (hx : R bound (rank x)) :
    behind R rank (rank x) (behind R rank bound all) = behind R rank (rank x) all := by
  rw [behind, behind, behind, List.filter_filter]
  refine List.filter_congr fun a _ => ?_
  rw [← Bool.decide_and, decide_eq_decide]
  exact and_iff_left_of_imp fun h => trans_of R hx h

end Behind

/-! ### Cutting before merging

Of several lists in one order, the first elements of each are enough for the first elements of
all of them. -/

section Cut

variable {R : ρ → ρ → Prop} [IsTrans ρ R] [Std.Irrefl R] {rank : β → ρ} {n : ℕ} {part : List β}

theorem eq_of_pairwise {l₁ l₂ : List β} (h₁ : l₁.Pairwise fun a b => R (rank a) (rank b))
    (h₂ : l₂.Pairwise fun a b => R (rank a) (rank b)) (hmem : ∀ x, x ∈ l₁ ↔ x ∈ l₂) : l₁ = l₂ := by
  have hnodup : ∀ {l : List β}, (l.Pairwise fun a b => R (rank a) (rank b)) → l.Nodup := by
    intro l h
    refine List.Pairwise.imp ?_ h
    rintro a b hlt rfl
    exact irrefl (r := R) _ hlt
  have hperm : l₁.Perm l₂ := (List.perm_ext_iff_of_nodup (hnodup h₁) (hnodup h₂)).mpr hmem
  refine hperm.eq_of_pairwise (fun a b _ _ hab hba => ?_) h₁ h₂
  exact absurd (trans_of R hab hba) (irrefl (r := R) _)

theorem eq_filter_append {all : List β} [DecidableEq β]
    (hall : all.Pairwise fun a b => R (rank a) (rank b))
    (hpart : part.Pairwise fun a b => R (rank a) (rank b)) (hsub : ∀ x ∈ part, x ∈ all) (n : ℕ) :
    part = (all.take n).filter (· ∈ part) ++ (all.drop n).filter (· ∈ part) := by
  rw [← List.filter_append, List.take_append_drop]
  exact eq_of_pairwise hpart (hall.filter _) fun y => by simpa using hsub y

theorem mem_take_of_subset {all : List β} (hall : all.Pairwise fun a b => R (rank a) (rank b))
    (hpart : part.Pairwise fun a b => R (rank a) (rank b)) (hsub : ∀ x ∈ part, x ∈ all)
    (hx : x ∈ all.take n) (hmem : x ∈ part) : x ∈ part.take n := by
  classical
  have hlength : ((all.take n).filter (· ∈ part)).length ≤ n :=
    (List.length_filter_le ..).trans (List.length_take_le ..)
  rw [eq_filter_append hall hpart hsub n, List.take_append, List.take_of_length_le hlength]
  exact List.mem_append_left _ (List.mem_filter.mpr ⟨hx, decide_eq_true hmem⟩)

theorem take_eq_take_of_subset {all : List β} (hall : all.Pairwise fun a b => R (rank a) (rank b))
    (hpart : part.Pairwise fun a b => R (rank a) (rank b)) (hsub : ∀ x ∈ part, x ∈ all)
    (hfirst : ∀ x ∈ all.take n, x ∈ part) : part.take n = all.take n := by
  classical
  have hself : (all.take n).filter (· ∈ part) = all.take n :=
    List.filter_eq_self.mpr fun x hx => decide_eq_true (hfirst x hx)
  rw [eq_filter_append hall hpart hsub n, hself, List.take_append, List.take_take, Nat.min_self]
  rcases le_total n all.length with hlong | hshort
  · rw [List.length_take, Nat.min_eq_left hlong, Nat.sub_self, List.take_zero, List.append_nil]
  · rw [List.drop_of_length_le hshort, List.filter_nil, List.take_nil, List.append_nil]

end Cut

variable {E : ε → Prop} {count : ℕ} {shown : β → α} {cursorOf : β → γ}
  {server : ℕ → Option γ → Except ε (List α × Option γ)} {n : ℕ}

theorem yields_step {remaining : List β} {cursor : Option γ}
    (hpage : IsPage E count shown cursorOf remaining (server n cursor))
    (hnext : ∀ x, remaining[count - 1]? = some x → count < remaining.length →
      Yields E ((remaining.drop count).map shown)
        (follow server fuel (n + 1) (some (cursorOf x)))) :
    Yields E (remaining.map shown) (follow server (fuel + 1) n cursor) := by
  rw [follow]
  match hserver : server n cursor with
  | .error error =>
    rw [hserver] at hpage
    exact hpage
  | .ok (page, next) =>
    rw [hserver] at hpage
    obtain ⟨hdata, hcursor⟩ := hpage
    subst hdata
    by_cases hmore : count < remaining.length
    · rw [if_pos hmore] at hcursor
      obtain ⟨x, hx⟩ : ∃ x, remaining[count - 1]? = some x :=
        ⟨_, List.getElem?_eq_getElem (by omega)⟩
      rw [hx] at hcursor
      subst hcursor
      have hyields := (hnext x hx hmore).cons ((remaining.take count).map shown)
      rw [← List.map_append, List.take_append_drop] at hyields
      exact hyields
    · rw [if_neg hmore] at hcursor
      subst hcursor
      change [(remaining.take count).map shown].flatten = _
      rw [List.flatten_singleton, List.take_of_length_le (by omega)]

theorem yields_follow {R : ρ → ρ → Prop} [DecidableRel R] [IsTrans ρ R] [Std.Irrefl R]
    {rank : β → ρ} {all : List β} (hsorted : all.Pairwise fun a b => R (rank a) (rank b))
    (hcount : 0 < count) (hfirst : ∀ n, IsPage E count shown cursorOf all (server n none))
    (hnext : ∀ n, ∀ x ∈ all,
      IsPage E count shown cursorOf (behind R rank (rank x) all) (server n (some (cursorOf x))))
    (hfuel : all.length < fuel) (n : ℕ) : Yields E (all.map shown) (follow server fuel n none) := by
  -- the list that remains is the list itself or what is behind one of its elements
  have hrun : ∀ (fuel n : ℕ) (cursor : Option γ) (remaining : List β),
      (cursor = none ∧ remaining = all ∨
        ∃ x ∈ all, cursor = some (cursorOf x) ∧ remaining = behind R rank (rank x) all) →
      remaining.length < fuel →
      Yields E (remaining.map shown) (follow server fuel n cursor) := by
    intro fuel
    induction fuel with
    | zero =>
      intro n cursor remaining _ hlt
      omega
    | succ fuel ih =>
      intro n cursor remaining hremaining hlt
      have hpage : IsPage E count shown cursorOf remaining (server n cursor) := by
        rcases hremaining with ⟨rfl, rfl⟩ | ⟨x, hx, rfl, rfl⟩
        · exact hfirst n
        · exact hnext n x hx
      refine yields_step hpage fun y hy hmore => ?_
      have hmem : y ∈ remaining := List.mem_of_getElem? hy
      have hsplit : remaining = remaining.take (count - 1) ++ y :: remaining.drop count := by
        have hdrop : remaining.drop (count - 1) = y :: remaining.drop (count - 1 + 1) :=
          List.drop_eq_getElem?_toList_append.trans (by rw [hy]; rfl)
        rw [show count - 1 + 1 = count by omega] at hdrop
        rw [← hdrop, List.take_append_drop]
      have hrest : behind R rank (rank y) all = remaining.drop count := by
        rcases hremaining with ⟨-, hall⟩ | ⟨x, hx, -, hbehind⟩
        · rw [← hall]
          conv_lhs => rw [hsplit]
          exact behind_of_split (by rwa [← hsplit, hall])
        · have hxy : R (rank x) (rank y) := by
            rw [hbehind] at hmem
            exact of_decide_eq_true (List.mem_filter.mp hmem).2
          rw [← behind_behind hxy, ← hbehind]
          conv_lhs => rw [hsplit]
          exact behind_of_split (by rw [← hsplit, hbehind]; exact hsorted.filter _)
      refine ih (n + 1) _ _ (Or.inr ⟨y, ?_, rfl, hrest.symm⟩) ?_
      · rcases hremaining with ⟨-, rfl⟩ | ⟨x, -, -, rfl⟩
        · exact hmem
        · exact List.mem_of_mem_filter hmem
      · rw [List.length_drop]
        omega
  exact hrun fuel n none all (Or.inl ⟨rfl, rfl⟩) hfuel

/-! ### Positions

Cursors may also be positions in a list of which only some elements are found. -/

def IsSearched (E : ε → Prop) (found : β → Option α) (positionOf : ℕ → γ) (items : List β)
    (start : ℕ) : Except ε (List α × Option γ) → Prop
  | .error error => E error
  | .ok (page, next) => ∃ seen ≤ (items.drop start).length,
      page = ((items.drop start).take seen).filterMap found ∧
        (next = none ∧ seen = (items.drop start).length ∨
          0 < seen ∧ next = some (positionOf (start + seen)))

theorem yields_follow_positions {found : β → Option α} (positionOf : ℕ → γ) {items : List β}
    (hfirst : ∀ n, IsSearched E found positionOf items 0 (server n none))
    (hnext : ∀ n start, start ≤ items.length →
      IsSearched E found positionOf items start (server n (some (positionOf start))))
    (hfuel : items.length < fuel) (n : ℕ) :
    Yields E (items.filterMap found) (follow server fuel n none) := by
  have hrun : ∀ (fuel n : ℕ) (cursor : Option γ) (start : ℕ),
      (cursor = none ∧ start = 0 ∨ cursor = some (positionOf start) ∧ start ≤ items.length) →
      (items.drop start).length < fuel →
      Yields E ((items.drop start).filterMap found) (follow server fuel n cursor) := by
    intro fuel
    induction fuel with
    | zero =>
      intro n cursor start _ hlt
      omega
    | succ fuel ih =>
      intro n cursor start hcursor hlt
      have hpage : IsSearched E found positionOf items start (server n cursor) := by
        rcases hcursor with ⟨rfl, rfl⟩ | ⟨rfl, hstart⟩
        · exact hfirst n
        · exact hnext n start hstart
      rw [follow]
      match hserver : server n cursor with
      | .error error =>
        rw [hserver] at hpage
        exact hpage
      | .ok (page, next) =>
        rw [hserver] at hpage
        obtain ⟨seen, hseen, rfl, ⟨rfl, hall⟩ | ⟨hpos, rfl⟩⟩ := hpage
        · change [_].flatten = _
          rw [List.flatten_singleton, List.take_of_length_le hall.ge]
        · have hdrop : items.drop (start + seen) = (items.drop start).drop seen :=
            (List.drop_drop ..).symm
          have hrest := ih (n + 1) (some (positionOf (start + seen))) (start + seen)
            (Or.inr ⟨rfl, by rw [List.length_drop] at hseen; omega⟩)
            (by rw [hdrop, List.length_drop]; omega)
          have hyields := hrest.cons (((items.drop start).take seen).filterMap found)
          rw [hdrop, ← List.filterMap_append, List.take_append_drop] at hyields
          exact hyields
  exact hrun fuel n none 0 (Or.inl ⟨rfl, rfl⟩) hfuel

theorem follow_eq_none {P : γ → Prop}
    (hnext : ∀ n cursor, P cursor →
      ∃ page next, server n (some cursor) = .ok (page, some next) ∧ P next)
    (fuel n : ℕ) {cursor : γ} (hcursor : P cursor) : follow server fuel n (some cursor) = none := by
  induction fuel generalizing n cursor with
  | zero => rfl
  | succ fuel ih =>
    obtain ⟨page, next, hserver, hP⟩ := hnext n cursor hcursor
    rw [follow, hserver]
    simp only [ih (n + 1) hP, Option.map_none]

/-! ### Lists in turn -/

def inTurn : ℕ → List (List β) → List (ℕ × β)
  | _, [] => []
  | n, list :: rest => list.map (fun x => (n, x)) ++ inTurn (n + 1) rest

theorem map_snd_inTurn (n : ℕ) (lists : List (List β)) :
    (inTurn n lists).map Prod.snd = lists.flatten := by
  induction lists generalizing n with
  | nil => rfl
  | cons list rest ih =>
    rw [inTurn, List.map_append, ih, List.map_map, List.flatten_cons]
    congr 1
    exact List.map_id list

theorem mem_inTurn {lists : List (List β)} {x : ℕ × β} :
    x ∈ inTurn n lists ↔ ∃ i list, lists[i]? = some list ∧ x.1 = n + i ∧ x.2 ∈ list := by
  induction lists generalizing n with
  | nil => simp [inTurn]
  | cons list rest ih =>
    rw [inTurn, List.mem_append, List.mem_map, ih]
    constructor
    · rintro (⟨y, hy, rfl⟩ | ⟨i, list', hlist, hx, hmem⟩)
      · exact ⟨0, list, rfl, rfl, hy⟩
      · exact ⟨i + 1, list', hlist, by omega, hmem⟩
    · rintro ⟨i, list', hlist, hx, hmem⟩
      cases i with
      | zero =>
        cases hlist
        exact Or.inl ⟨x.2, hmem, Prod.ext hx.symm rfl⟩
      | succ i => exact Or.inr ⟨i, list', hlist, by omega, hmem⟩

section InTurn

variable [LinearOrder ρ] {rank : β → ρ} {lists : List (List β)}

def turnRank (rank : β → ρ) (x : ℕ × β) : ℕ ×ₗ ρ := toLex (x.1, rank x.2)

theorem pairwise_inTurn (n : ℕ)
    (h : ∀ list ∈ lists, list.Pairwise fun a b => rank a < rank b) :
    (inTurn n lists).Pairwise fun a b => turnRank rank a < turnRank rank b := by
  induction lists generalizing n with
  | nil => exact List.Pairwise.nil
  | cons list rest ih =>
    obtain ⟨hlist, hrest⟩ := List.forall_mem_cons.mp h
    rw [inTurn, List.pairwise_append]
    refine ⟨?_, ih (n + 1) hrest, fun a ha b hb => ?_⟩
    · rw [List.pairwise_map]
      refine List.Pairwise.imp ?_ hlist
      intro a b hlt
      exact Prod.Lex.toLex_lt_toLex.mpr (Or.inr ⟨rfl, hlt⟩)
    · obtain ⟨y, -, rfl⟩ := List.mem_map.mp ha
      obtain ⟨i, -, -, hb, -⟩ := mem_inTurn.mp hb
      exact Prod.Lex.toLex_lt_toLex.mpr (Or.inl (by omega))

theorem behind_inTurn (rank : β → ρ) {i : ℕ} {list : List β} (hlist : lists[i]? = some list) (n : ℕ)
    (bound : ρ) :
    behind (fun a b => a < b) (turnRank rank) (toLex (n + i, bound)) (inTurn n lists) =
      (list.filter fun x => bound < rank x).map (fun x => (n + i, x)) ++
        inTurn (n + i + 1) (lists.drop (i + 1)) := by
  induction lists generalizing n i with
  | nil => cases hlist
  | cons first rest ih =>
    rw [inTurn, behind, List.filter_append]
    cases i with
    | zero =>
      cases hlist
      have hrest : (inTurn (n + 1) rest).filter
          (fun x => decide (toLex (n + 0, bound) < turnRank rank x)) = inTurn (n + 1) rest := by
        rw [List.filter_eq_self]
        intro x hx
        obtain ⟨j, -, -, hx, -⟩ := mem_inTurn.mp hx
        exact decide_eq_true (Prod.Lex.toLex_lt_toLex.mpr (Or.inl (by omega)))
      rw [hrest, List.filter_map]
      congr 2
      refine List.filter_congr fun x _ => ?_
      simp [turnRank, Prod.Lex.toLex_lt_toLex]
    | succ i =>
      have hfirst : (first.map fun x => (n, x)).filter
          (fun x => decide (toLex (n + (i + 1), bound) < turnRank rank x)) = [] := by
        rw [List.filter_eq_nil_iff]
        intro x hx
        obtain ⟨y, -, rfl⟩ := List.mem_map.mp hx
        simp only [turnRank, decide_eq_true_eq, Prod.Lex.toLex_lt_toLex]
        omega
      have hrest := ih hlist (n + 1)
      rw [show n + 1 + i = n + (i + 1) by omega] at hrest
      rw [hfirst, List.nil_append, List.drop_succ_cons]
      exact hrest

end InTurn

end Paging
