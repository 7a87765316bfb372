import Mathlib.Tactic

/-!
# Counters that are changed in batches

The moves of a batch are merged into one (`net`) and settled: going down stops at zero, and may
remove the counter there.
-/

namespace Counter

structure Move where
  up : Bool
  amount : ℕ
  deriving DecidableEq

namespace Move

def delta (move : Move) : ℤ := if move.up then move.amount else -move.amount

def merge (first second : Move) : Move :=
  if first.up = second.up then ⟨first.up, first.amount + second.amount⟩
  else if second.amount ≤ first.amount then ⟨first.up, first.amount - second.amount⟩
  else ⟨second.up, second.amount - first.amount⟩

theorem delta_merge (first second : Move) :
    (first.merge second).delta = first.delta + second.delta := by
  obtain ⟨up, amount⟩ := first
  obtain ⟨up', amount'⟩ := second
  unfold merge
  cases up <;> cases up' <;> simp only [delta, Bool.false_eq_true, reduceCtorEq, if_true, if_false]
  · push_cast
    ring
  · split
    case isTrue h => simp only [Bool.false_eq_true, if_false]; omega
    case isFalse h => simp only [if_true]; omega
  · split
    case isTrue h => simp only [if_true]; omega
    case isFalse h => simp only [Bool.false_eq_true, if_false]; omega
  · push_cast
    ring

theorem natAbs_delta (move : Move) : move.delta.natAbs = move.amount := by
  cases h : move.up <;> simp [delta, h]

end Move

def total (moves : List Move) : ℤ := (moves.map Move.delta).sum

@[simp] theorem total_nil : total [] = 0 := rfl

@[simp] theorem total_append (first second : List Move) :
    total (first ++ second) = total first + total second := by
  simp [total]

@[simp] theorem total_singleton (move : Move) : total [move] = move.delta := by
  simp [total]

def net : List Move → Option Move
  | [] => none
  | move :: rest => some (rest.foldl Move.merge move)

theorem net_concat (moves : List Move) (move : Move) :
    net (moves ++ [move]) = some ((net moves).elim move fun merged => merged.merge move) := by
  cases moves with
  | nil => rfl
  | cons first rest => simp [net]

variable {moves : List Move} {counter : Option ℕ} {merged : Move} {eager : Bool} {n : ℕ}

theorem net_eq_none_iff : net moves = none ↔ moves = [] := by
  cases moves <;> simp [net]

theorem delta_of_net (h : net moves = some merged) : merged.delta = total moves := by
  induction moves using List.reverseRecOn generalizing merged with
  | nil => cases h
  | append_singleton rest move ih =>
    rw [net_concat, Option.some.injEq] at h
    rw [total_append, total_singleton, ← h]
    cases hnet : net rest with
    | none => simp [net_eq_none_iff.mp hnet]
    | some before => rw [Option.elim_some, Move.delta_merge, ih hnet]

/-! ## Levels -/

def StaysIn (start : ℤ) (bound : ℕ) (moves : List Move) : Prop :=
  ∀ done, done <+: moves → 0 ≤ start + total done ∧ start + total done < bound

theorem StaysIn.nil {start : ℤ} {bound : ℕ} (hstart : 0 ≤ start) (hbound : start < bound) :
    StaysIn start bound [] := by
  intro done hdone
  rw [List.prefix_nil.mp hdone, total_nil, add_zero]
  exact ⟨hstart, hbound⟩

theorem staysIn_append {start : ℤ} {bound : ℕ} {first second : List Move} :
    StaysIn start bound (first ++ second) ↔
      StaysIn start bound first ∧ StaysIn (start + total first) bound second := by
  constructor
  · intro h
    refine ⟨fun done hdone => h done (hdone.trans (List.prefix_append _ _)), fun done hdone => ?_⟩
    rw [add_assoc, ← total_append]
    exact h _ ((List.prefix_append_right_inj _).mpr hdone)
  · rintro ⟨hfirst, hsecond⟩ done hdone
    obtain ⟨rest, hrest⟩ := hdone
    rcases List.append_eq_append_iff.mp hrest with ⟨more, rfl, -⟩ | ⟨more, rfl, rfl⟩
    · exact hfirst done (List.prefix_append _ _)
    · rw [total_append, ← add_assoc]
      exact hsecond more (List.prefix_append _ _)

theorem StaysIn.final {start : ℤ} {bound : ℕ} (h : StaysIn start bound moves) :
    0 ≤ start + total moves ∧ start + total moves < bound :=
  h moves (List.prefix_refl _)

theorem StaysIn.start {start : ℤ} {bound : ℕ} (h : StaysIn start bound moves) :
    0 ≤ start ∧ start < bound := by
  simpa using h [] List.nil_prefix

theorem total_nonpos (h : ∀ move ∈ moves, move.up = false) : total moves ≤ 0 := by
  induction moves with
  | nil => exact le_refl 0
  | cons move rest ih =>
    have hrest := ih fun m hm => h m (List.mem_cons_of_mem _ hm)
    have hmove : move.delta ≤ 0 := by simp [Move.delta, h move List.mem_cons_self]
    rw [← List.singleton_append, total_append, total_singleton]
    omega

theorem total_nonneg (h : ∀ move ∈ moves, move.up = true) : 0 ≤ total moves := by
  refine List.sum_nonneg fun delta hdelta => ?_
  obtain ⟨move, hmove, rfl⟩ := List.mem_map.mp hdelta
  simp [Move.delta, h move hmove]

theorem StaysIn.of_down {start : ℤ} {bound : ℕ} (h : ∀ move ∈ moves, move.up = false)
    (hstart : start < bound) (hfinal : 0 ≤ start + total moves) : StaysIn start bound moves := by
  rintro done ⟨rest, rfl⟩
  have hdone := total_nonpos fun move hmove => h move (List.mem_append_left rest hmove)
  have hrest := total_nonpos fun move hmove => h move (List.mem_append_right done hmove)
  rw [total_append] at hfinal
  omega

theorem StaysIn.of_up {start : ℤ} {bound : ℕ} (h : ∀ move ∈ moves, move.up = true)
    (hstart : 0 ≤ start) (hfinal : start + total moves < bound) : StaysIn start bound moves := by
  rintro done ⟨rest, rfl⟩
  have hdone := total_nonneg fun move hmove => h move (List.mem_append_left rest hmove)
  have hrest := total_nonneg fun move hmove => h move (List.mem_append_right done hmove)
  rw [total_append] at hfinal
  omega

theorem StaysIn.of_length_le_one {start : ℤ} {bound : ℕ} (h : moves.length ≤ 1)
    (hstart : 0 ≤ start ∧ start < bound)
    (hfinal : 0 ≤ start + total moves ∧ start + total moves < bound) :
    StaysIn start bound moves := by
  intro done hdone
  rcases Nat.eq_zero_or_pos done.length with hzero | hpos
  · rw [List.eq_nil_of_length_eq_zero hzero, total_nil, add_zero]
    exact hstart
  · rw [hdone.eq_of_length_le (by omega)]
    exact hfinal

theorem StaysIn.up_of_net {bound : ℕ} (h : StaysIn 0 bound moves)
    (hamounts : ∀ move ∈ moves, move.amount ≠ 0) (hnet : net moves = some merged) :
    merged.up = true := by
  induction moves using List.reverseRecOn generalizing merged with
  | nil => cases hnet
  | append_singleton rest move ih =>
    have hmove := hamounts move (by simp)
    obtain ⟨hrest, -⟩ := staysIn_append.mp h
    have hlevel := h.final.1
    rw [zero_add, total_append, total_singleton] at hlevel
    rw [net_concat, Option.some.injEq] at hnet
    cases hbefore : net rest with
    | none =>
      rw [hbefore, Option.elim_none] at hnet
      rw [net_eq_none_iff.mp hbefore, total_nil, zero_add] at hlevel
      subst hnet
      cases hup : move.up with
      | true => rfl
      | false =>
        simp only [Move.delta, hup, Bool.false_eq_true, if_false] at hlevel
        omega
    | some before =>
      rw [hbefore, Option.elim_some] at hnet
      have hbeforeUp := ih hrest (fun m hm => hamounts m (by simp [hm])) hbefore
      rw [← delta_of_net hbefore, Move.delta, if_pos hbeforeUp] at hlevel
      subst hnet
      unfold Move.merge
      split
      · exact hbeforeUp
      · have hdown : move.up = false := by
          cases hup : move.up with
          | false => rfl
          | true => simp_all
        simp only [Move.delta, hdown, Bool.false_eq_true, if_false] at hlevel
        rw [if_pos (by omega)]
        exact hbeforeUp

/-! ## Settling a batch -/

def settle (removes eager : Bool) (move : Move) (counter : Option ℕ) : Option ℕ :=
  if move.amount = 0 ∧ eager = false then counter
  else if move.up then some (counter.getD 0 + move.amount)
  else counter.bind fun n =>
    if removes = true ∧ n ≤ move.amount then none else some (n - move.amount)

theorem settle_of_amount_eq_zero (removes : Bool) {move : Move} (h : move.amount = 0)
    (counter : Option ℕ) : settle removes false move counter = counter :=
  if_pos ⟨h, rfl⟩

theorem settle_of_amount_ne_zero (removes : Bool) {move : Move} (h : move.amount ≠ 0)
    (counter : Option ℕ) :
    settle removes false move counter = settle removes true move counter := by
  simp [settle, h]

structure Period where
  eager : Bool
  moves : List Move

variable (removes : Bool) {earlier : List Period} {period : Period}

def Period.settle (period : Period) (counter : Option ℕ) : Option ℕ :=
  (net period.moves).elim counter fun move => Counter.settle removes period.eager move counter

def run : List Period → Option ℕ
  | [] => none
  | period :: earlier => period.settle removes (run earlier)

def level (start : ℤ) : List Period → ℤ
  | [] => start
  | period :: earlier => level start earlier + total period.moves

variable {removes} {start : ℤ} {bound : ℕ} {periods : List Period}

def NonnegLevels (start : ℤ) : List Period → Prop
  | [] => 0 ≤ start
  | period :: earlier => 0 ≤ level start (period :: earlier) ∧ NonnegLevels start earlier

theorem NonnegLevels.nonneg (h : NonnegLevels start periods) : 0 ≤ level start periods := by
  cases periods with
  | nil => exact h
  | cons period earlier => exact h.1

def ReachesZero (start : ℤ) (periods : List Period) : Prop :=
  ∃ earlier, earlier <:+ periods ∧ level start earlier = 0

theorem reachesZero_nil : ReachesZero start [] ↔ start = 0 := by
  simp [ReachesZero, level]

theorem reachesZero_cons :
    ReachesZero start (period :: earlier) ↔
      level start (period :: earlier) = 0 ∨ ReachesZero start earlier := by
  simp only [ReachesZero, List.suffix_cons_iff, or_and_right, exists_or, exists_eq_left]

theorem getD_settle (eager : Bool) (move : Move) (counter : Option ℕ) :
    ((settle removes eager move counter).getD 0 : ℤ) = max 0 (counter.getD 0 + move.delta) := by
  unfold settle
  split
  case isTrue h => simp [Move.delta, h.1]
  case isFalse =>
    cases hup : move.up with
    | true => simp [Move.delta, hup]; omega
    | false =>
      simp only [Bool.false_eq_true, if_false, Move.delta, hup]
      cases counter with
      | none => simp
      | some n =>
        simp only [Option.bind_some, Option.getD_some]
        split
        case isTrue h => simp only [Option.getD_none]; omega
        case isFalse => simp only [Option.getD_some]; omega

theorem getD_period_settle (period : Period) (counter : Option ℕ) :
    ((period.settle removes counter).getD 0 : ℤ) =
      max 0 (counter.getD 0 + total period.moves) := by
  unfold Period.settle
  cases hnet : net period.moves with
  | none => simp [net_eq_none_iff.mp hnet]
  | some move => rw [Option.elim_some, getD_settle, delta_of_net hnet]

theorem run_le_level_and (h : NonnegLevels start periods) :
    ((run removes periods).getD 0 : ℤ) ≤ level start periods ∧
      (((run removes periods).getD 0 : ℤ) = level start periods ↔ ReachesZero start periods) := by
  induction periods with
  | nil =>
    have hstart : 0 ≤ start := h
    simp only [run, Option.getD_none, level, reachesZero_nil, Nat.cast_zero]
    omega
  | cons period earlier ih =>
    obtain ⟨hle, hiff⟩ := ih h.2
    have hlevel : 0 ≤ level start earlier + total period.moves := h.1
    simp only [run, getD_period_settle, level, reachesZero_cons, ← hiff]
    omega

theorem run_le_level (h : NonnegLevels start periods) :
    ((run removes periods).getD 0 : ℤ) ≤ level start periods :=
  (run_le_level_and h).1

theorem run_eq_level_iff (h : NonnegLevels start periods) :
    ((run removes periods).getD 0 : ℤ) = level start periods ↔ ReachesZero start periods :=
  (run_le_level_and h).2

/-! ## Counters at zero -/

def EndsEagerUp : List Period → Prop
  | [] => False
  | period :: earlier =>
    match net period.moves with
    | none => EndsEagerUp earlier
    | some move =>
      if period.eager then move.up = true else move.amount = 0 ∧ EndsEagerUp earlier

theorem settle_eq_zero_iff {move : Move} (hamount : (settle true eager move counter).getD 0 = 0) :
    settle true eager move counter = some 0 ↔
      if eager then move.up = true else move.amount = 0 ∧ counter = some 0 := by
  unfold settle at hamount ⊢
  by_cases hskip : move.amount = 0 ∧ eager = false
  · simp [hskip]
  · rw [if_neg hskip] at hamount ⊢
    -- a change that is not skipped leaves a zero only on its way up
    have hup : (if move.up then some (counter.getD 0 + move.amount)
        else counter.bind fun n => if true = true ∧ n ≤ move.amount then none
          else some (n - move.amount)) = some 0 ↔ move.up = true := by
      cases hup : move.up with
      | true =>
        rw [hup, if_pos rfl, Option.getD_some] at hamount
        simp [hamount]
      | false =>
        cases counter with
        | none => simp
        | some n =>
          simp only [Bool.false_eq_true, if_false, Option.bind_some, true_and, iff_false]
          split
          · exact Option.some_ne_none 0 ∘ Eq.symm
          · intro heq
            have := Option.some.inj heq
            omega
    rw [hup]
    cases eager with
    | true => simp
    | false =>
      have hne : move.amount ≠ 0 := fun h => hskip ⟨h, rfl⟩
      simp only [Bool.false_eq_true, if_false, hne, false_and, iff_false]
      intro hmove
      rw [hmove, if_pos rfl, Option.getD_some] at hamount
      omega

theorem run_eq_zero_iff (h : NonnegLevels start periods) (hzero : level start periods = 0) :
    run true periods = some 0 ↔ EndsEagerUp periods := by
  induction periods with
  | nil => simp [run, EndsEagerUp]
  | cons period earlier ih =>
    have hamount : (run true (period :: earlier)).getD 0 = 0 := by
      have hle : ((run true (period :: earlier)).getD 0 : ℤ) ≤ _ := run_le_level h
      omega
    rw [level] at hzero
    simp only [run, EndsEagerUp, Period.settle] at hamount ⊢
    cases hnet : net period.moves with
    | none =>
      rw [net_eq_none_iff.mp hnet, total_nil, add_zero] at hzero
      exact ih h.2 hzero
    | some move =>
      rw [← delta_of_net hnet] at hzero
      rw [hnet, Option.elim_some] at hamount
      rw [Option.elim_some, settle_eq_zero_iff hamount]
      cases period.eager with
      | true => rfl
      | false =>
        simp only [Bool.false_eq_true, if_false]
        refine and_congr_right fun hmove => ?_
        exact ih h.2 (by simpa [Move.delta, hmove] using hzero)

theorem run_eq_level_iff_of_removes (h : NonnegLevels start periods)
    (hlevel : level start periods = n) :
    (run true periods = if n = 0 then none else some n) ↔
      ReachesZero start periods ∧ (n = 0 → ¬ EndsEagerUp periods) := by
  have hle : ((run true periods).getD 0 : ℤ) ≤ level start periods := run_le_level h
  have hiff : ((run true periods).getD 0 : ℤ) = level start periods ↔ _ := run_eq_level_iff h
  rw [hlevel] at hle hiff
  by_cases hn : n = 0
  · subst hn
    have hzero : (run true periods).getD 0 = 0 := by omega
    have hreaches : ReachesZero start periods := ⟨periods, List.suffix_refl _, hlevel⟩
    rw [if_pos rfl, ← run_eq_zero_iff h hlevel]
    cases hrun : run true periods with
    | none => simp [hreaches]
    | some m =>
      rw [hrun, Option.getD_some] at hzero
      simp [hzero]
  · rw [if_neg hn, ← hiff]
    cases run true periods with
    | none => simp [hn, eq_comm]
    | some m => simp [hn]

def EverPresent (start : ℤ) (periods : List Period) : Prop :=
  (∃ period ∈ periods, period.eager = true ∧ period.moves ≠ []) ∨
    ∃ earlier, earlier <:+ periods ∧ 0 < level start earlier

theorem EverPresent.of_pos (h : 0 < level start periods) : EverPresent start periods :=
  Or.inr ⟨periods, List.suffix_refl _, h⟩

theorem everPresent_cons :
    EverPresent start (period :: earlier) ↔
      (period.eager = true ∧ period.moves ≠ []) ∨ 0 < level start (period :: earlier) ∨
        EverPresent start earlier := by
  simp only [EverPresent, List.mem_cons, List.suffix_cons_iff, or_and_right, exists_or,
    exists_eq_left]
  exact or_assoc.trans (or_congr_right or_left_comm)

theorem isSome_settle {move : Move} :
    (settle false eager move counter).isSome = true ↔
      counter.isSome = true ∨ move.up = true ∧ (eager = true ∨ move.amount ≠ 0) := by
  unfold settle
  by_cases hskip : move.amount = 0 ∧ eager = false
  · simp [hskip]
  · rw [if_neg hskip]
    have heffect : eager = true ∨ move.amount ≠ 0 := by
      cases eager with
      | true => exact Or.inl rfl
      | false => exact Or.inr fun h => hskip ⟨h, rfl⟩
    cases move.up with
    | true => simp [heffect]
    | false => cases counter <;> simp

def allMoves (periods : List Period) : List Move := periods.reverse.flatMap Period.moves

@[simp] theorem allMoves_cons (period : Period) (earlier : List Period) :
    allMoves (period :: earlier) = allMoves earlier ++ period.moves := by
  simp [allMoves]

theorem level_eq (start : ℤ) (periods : List Period) :
    level start periods = start + total (allMoves periods) := by
  induction periods with
  | nil => simp [level, allMoves]
  | cons period earlier ih => rw [level, ih, allMoves_cons, total_append, add_assoc]

theorem StaysIn.nonnegLevels (h : StaysIn start bound (allMoves periods)) :
    NonnegLevels start periods := by
  induction periods with
  | nil => exact h.start.1
  | cons period earlier ih =>
    refine ⟨?_, ?_⟩
    · rw [level_eq]
      exact h.final.1
    · rw [allMoves_cons, staysIn_append] at h
      exact ih h.1

theorem isSome_run_iff (h : StaysIn 0 bound (allMoves periods))
    (hamounts : ∀ move ∈ allMoves periods, move.amount ≠ 0) :
    (run false periods).isSome = true ↔ EverPresent 0 periods := by
  induction periods with
  | nil => simp [run, EverPresent, level]
  | cons period earlier ih =>
    rw [allMoves_cons] at h hamounts
    obtain ⟨hearlier, hperiod⟩ := staysIn_append.mp h
    have hlevel : 0 ≤ level 0 earlier := hearlier.nonnegLevels.nonneg
    have ih := ih hearlier fun move hmove => hamounts move (List.mem_append_left _ hmove)
    simp only [run, everPresent_cons, Period.settle, level]
    cases hnet : net period.moves with
    | none =>
      have hmoves := net_eq_none_iff.mp hnet
      simp only [Option.elim_none, hmoves, ne_eq, not_true_eq_false, and_false, false_or,
        total_nil, add_zero, ih]
      exact ⟨Or.inr, fun hor => hor.elim EverPresent.of_pos id⟩
    | some move =>
      have hmoves : period.moves ≠ [] := fun hnil => by
        rw [hnil] at hnet
        cases hnet
      rw [Option.elim_some, isSome_settle, ih, ← delta_of_net hnet]
      constructor
      · rintro (hearlier | ⟨hup, heager | hamount⟩)
        · exact Or.inr (Or.inr hearlier)
        · exact Or.inl ⟨heager, hmoves⟩
        · refine Or.inr (Or.inl ?_)
          rw [Move.delta, if_pos hup]
          omega
      · intro hpresent
        rcases hlevel.lt_or_eq with hpos | hzero
        · exact Or.inl (EverPresent.of_pos hpos)
        · -- from zero the batch can only have gone up
          have hstart : (0 : ℤ) + total (allMoves earlier) = 0 := by
            rw [← level_eq, ← hzero]
          rw [hstart] at hperiod
          have hup : move.up = true := hperiod.up_of_net
            (fun move hmove => hamounts move (List.mem_append_right _ hmove)) hnet
          rcases hpresent with ⟨heager, -⟩ | hpos | hearlier
          · exact Or.inr ⟨hup, Or.inl heager⟩
          · refine Or.inr ⟨hup, Or.inr fun hamount => ?_⟩
            rw [← hzero, Move.delta, if_pos hup, hamount] at hpos
            exact absurd hpos (by simp)
          · exact Or.inl hearlier

theorem not_endsEagerUp_of_allMoves (h : allMoves periods = []) : ¬ EndsEagerUp periods := by
  induction periods with
  | nil => exact id
  | cons period earlier ih =>
    rw [allMoves_cons, List.append_eq_nil_iff] at h
    rw [EndsEagerUp, h.2]
    exact ih h.1

theorem run_of_up (hup : ∀ move ∈ allMoves periods, move.up = true ∧ move.amount ≠ 0)
    (htotal : total (allMoves periods) = n) :
    run true periods = if n = 0 then none else some n := by
  have hlevel : level 0 periods = n := by rw [level_eq, htotal, zero_add]
  have hstays : StaysIn 0 (n + 1) (allMoves periods) :=
    StaysIn.of_up (fun move hmove => (hup move hmove).1) (le_refl 0) (by rw [htotal]; omega)
  rw [run_eq_level_iff_of_removes hstays.nonnegLevels hlevel]
  refine ⟨⟨[], List.nil_suffix, rfl⟩, fun hzero => not_endsEagerUp_of_allMoves ?_⟩
  -- a move up would show in the total
  cases hmoves : allMoves periods with
  | nil => rfl
  | cons move rest =>
    rw [hmoves] at hup htotal
    have hrest := total_nonneg fun other hother => (hup other (List.mem_cons_of_mem _ hother)).1
    obtain ⟨hmove, hamount⟩ := hup move List.mem_cons_self
    rw [← List.singleton_append, total_append, total_singleton, Move.delta, if_pos hmove] at htotal
    omega

end Counter
