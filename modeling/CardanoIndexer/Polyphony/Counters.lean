import CardanoIndexer.Lib.Counter
import CardanoIndexer.Polyphony.Batching

/-!
# Counters in batches

Executing a batch settles every counter (`exists_executedStore`); decrements may go below zero.
-/

namespace CardanoIndexer.Polyphony

open Counter

def StorageOp.move : StorageOp → Move
  | .incrementU64 d => ⟨true, d.toNat⟩
  | .decrementU64 d => ⟨false, d.toNat⟩
  | .incrementU128 d => ⟨true, d.toNat⟩
  | .decrementU128NoDelete d => ⟨false, d.toNat⟩
  | .set _ | .delete | .insert _ => ⟨false, 0⟩

def Kind.removes : Kind → Bool
  | .u64 => true
  | .u128 | .value => false

def movesAt (k : Key) (actions : List StorageAction) : List Move :=
  (opsAt k actions).map StorageOp.move

theorem movesAt_append (k : Key) (first second : List StorageAction) :
    movesAt k (first ++ second) = movesAt k first ++ movesAt k second := by
  simp [movesAt, opsAt_append]

theorem movesAt_concat (k : Key) (actions : List StorageAction) (a : StorageAction) :
    movesAt k (actions ++ [a]) =
      if a.key = k then movesAt k actions ++ [a.op.move] else movesAt k actions := by
  rw [movesAt_append, movesAt, movesAt, opsAt_singleton]
  split
  · rfl
  · simp

theorem movesAt_map {ω : Type} {action : ω → StorageAction} {p : ω → Prop} [DecidablePred p]
    {k : Key} {outputs : List ω} (hkey : ∀ output ∈ outputs, (action output).key = k ↔ p output) :
    movesAt k (outputs.map action) =
      (outputs.filter fun output => p output).map fun output => (action output).op.move := by
  have hfilter : outputs.filter ((fun a : StorageAction => decide (a.key = k)) ∘ action) =
      outputs.filter fun output => p output :=
    List.filter_congr fun output houtput => decide_eq_decide.mpr (hkey output houtput)
  rw [movesAt, opsAt, List.filter_map, List.map_map, List.map_map, hfilter]
  rfl

/-! ## Merging -/

theorem exists_merge_move {kind : Kind} (hkind : kind ≠ .value) {op₁ op₂ : StorageOp}
    (hop₁ : op₁.kind = kind) (hop₂ : op₂.kind = kind)
    (hlt : (op₁.move.merge op₂.move).amount < 256 ^ kind.width) :
    ∃ merged, op₁.merge op₂ = .ok merged ∧ merged.kind = kind ∧
      merged.move = op₁.move.merge op₂.move := by
  subst hop₁
  cases op₁ <;> simp only [StorageOp.kind, ne_eq, not_true_eq_false] at hkind <;>
    cases op₂ <;> simp only [StorageOp.kind, reduceCtorEq] at hop₂
  case incrementU64.incrementU64 pd nd | incrementU128.incrementU128 pd nd
      | decrementU64.decrementU64 pd nd
      | decrementU128NoDelete.decrementU128NoDelete pd nd =>
    simp only [StorageOp.move, Move.merge, if_true, StorageOp.kind, Kind.width] at hlt
    have hadd := addOrPanic_of_lt (a := pd) (b := nd) (by omega)
    have hnat := BitVec.toNat_add_of_lt (x := pd) (y := nd) (by omega)
    simp only [StorageOp.merge, hadd, Except.ok_bind, Except.pure_eq_ok, Except.ok.injEq,
      exists_eq_left', StorageOp.move, Move.merge, if_true, hnat, and_true]
    rfl
  case incrementU64.decrementU64 pd nd | incrementU128.decrementU128NoDelete pd nd
      | decrementU64.incrementU64 pd nd | decrementU128NoDelete.incrementU128 pd nd =>
    by_cases hle : nd ≤ pd
    · have hnat := BitVec.toNat_sub_of_le hle
      simp [StorageOp.merge, StorageOp.move, Move.merge, ge_iff_le, hle, BitVec.le_def.mp hle,
        hnat, StorageOp.kind]
    · have hlt' := BitVec.not_le.mp hle
      have hnat := BitVec.toNat_sub_of_le (BitVec.le_of_lt hlt')
      have hnot : ¬ nd.toNat ≤ pd.toNat := by
        have := BitVec.lt_def.mp hlt'
        omega
      simp [StorageOp.merge, StorageOp.move, Move.merge, ge_iff_le, hle, hnot, hnat,
        StorageOp.kind]

def Merged (kind : Kind) (batch : SortedMap Key StorageOp) (actions : List StorageAction) : Prop :=
  ∀ k, (∀ op, batch.get k = some op → op.kind = kind) ∧
    (batch.get k).map StorageOp.move = net (movesAt k actions)

def InRange (kind : Kind) (moves : List Move) : Prop :=
  ∀ done, done <+: moves → (total done).natAbs < 256 ^ kind.width

variable {moves : List Move} {store : Store}

theorem InRange.mono {kind : Kind} {more : List Move} (h : InRange kind (moves ++ more)) :
    InRange kind moves :=
  fun done hdone => h done (hdone.trans (List.prefix_append _ _))

theorem inRange_of_staysIn {kind : Kind} {start : ℤ} (h : StaysIn start (256 ^ kind.width) moves) :
    InRange kind moves := by
  intro done hdone
  have hdone := h done hdone
  have hstart := h.start
  omega

section Merged

variable {kind : Kind} {batcher : SyncBatcher} {past actions : List StorageAction}

theorem merged_empty : Merged kind ∅ [] := fun _ => ⟨fun _ h => (by cases h), rfl⟩

theorem Merged.pushAction (h : Merged kind batcher.batchActions past) (hkind : kind ≠ .value)
    {a : StorageAction} (hop : a.op.kind = kind)
    (hrange : InRange kind (movesAt a.key (past ++ [a]))) :
    ∃ batcher', batcher.pushAction a = .ok batcher' ∧
      Merged kind batcher'.batchActions (past ++ [a]) := by
  -- a push touches the entry of its own key only
  have hother : ∀ (op : StorageOp) (k : Key), k ≠ a.key →
      (∀ op', (batcher.batchActions.put a.key op).get k = some op' → op'.kind = kind) ∧
        ((batcher.batchActions.put a.key op).get k).map StorageOp.move =
          net (movesAt k (past ++ [a])) := by
    intro op k hk
    rw [SortedMap.get_put, if_neg hk, movesAt_concat, if_neg (Ne.symm hk)]
    exact h k
  obtain ⟨hprevKind, hprevMove⟩ := h a.key
  have hnet := net_concat (movesAt a.key past) a.op.move
  have hmoves := movesAt_concat a.key past a
  rw [if_pos rfl] at hmoves
  cases hget : batcher.batchActions.get a.key with
  | none =>
    refine ⟨_, by simp only [SyncBatcher.pushAction, hget]; rfl, fun k => ?_⟩
    rcases eq_or_ne k a.key with rfl | hk
    · rw [hget, Option.map_none] at hprevMove
      rw [SortedMap.get_put, if_pos rfl, hmoves, hnet, ← hprevMove]
      exact ⟨fun op hsome => Option.some.inj hsome ▸ hop, rfl⟩
    · exact hother a.op k hk
  | some prev =>
    rw [hget, Option.map_some] at hprevMove
    rw [← hprevMove, Option.elim_some] at hnet
    have hlt : (prev.move.merge a.op.move).amount < 256 ^ kind.width := by
      rw [← Move.natAbs_delta, delta_of_net hnet, ← hmoves]
      exact hrange _ (List.prefix_refl _)
    obtain ⟨merged, hmerge, hmergedKind, hmergedMove⟩ :=
      exists_merge_move hkind (hprevKind prev hget) hop hlt
    refine ⟨_, by simp only [SyncBatcher.pushAction, hget, hmerge]; rfl, fun k => ?_⟩
    rcases eq_or_ne k a.key with rfl | hk
    · rw [SortedMap.get_put, if_pos rfl, hmoves, hnet, Option.map_some, hmergedMove]
      exact ⟨fun op hsome => Option.some.inj hsome ▸ hmergedKind, rfl⟩
    · exact hother merged k hk

theorem Merged.foldlM_pushAction (h : Merged kind batcher.batchActions past)
    (hkind : kind ≠ .value) (hops : ∀ a ∈ actions, a.op.kind = kind)
    (hrange : ∀ k, InRange kind (movesAt k (past ++ actions))) :
    ∃ batcher', actions.foldlM SyncBatcher.pushAction batcher = .ok batcher' ∧
      Merged kind batcher'.batchActions (past ++ actions) := by
  induction actions generalizing batcher past with
  | nil => exact ⟨batcher, rfl, by rwa [List.append_nil]⟩
  | cons a rest ih =>
    have hcons : past ++ a :: rest = past ++ [a] ++ rest := by simp
    rw [hcons] at hrange ⊢
    have hrangeHead := hrange a.key
    rw [movesAt_append] at hrangeHead
    obtain ⟨mid, hmid, hmerged⟩ :=
      h.pushAction hkind (hops a List.mem_cons_self) hrangeHead.mono
    obtain ⟨batcher', hbatcher', hmerged'⟩ :=
      ih hmerged (fun b hb => hops b (List.mem_cons_of_mem _ hb)) hrange
    exact ⟨batcher', by rw [List.foldlM_cons, hmid]; exact hbatcher', hmerged'⟩

theorem Merged.pushActions (h : Merged kind batcher.batchActions past) (hkind : kind ≠ .value)
    (hops : ∀ a ∈ actions, a.op.kind = kind)
    (hrange : ∀ k, InRange kind (movesAt k (past ++ actions))) (point : Point) :
    ∃ batcher', batcher.pushActions point actions = .ok batcher' ∧
      Merged kind batcher'.batchActions (past ++ actions) := by
  obtain ⟨mid, hmid, hmerged⟩ := h.foldlM_pushAction hkind hops hrange
  exact ⟨{ mid with currentLen := mid.currentLen + 1, lastPoint := some point },
    by rw [SyncBatcher.pushActions, hmid]; rfl, hmerged⟩

end Merged

/-! ## Settling -/

def Kind.stored (kind : Kind) (counter : Option ℕ) : Option Value :=
  counter.map (Bytes.toBE kind.width)

theorem Kind.stored_eq_stored_iff {kind : Kind} {counter counter' : Option ℕ}
    (hlt : counter.getD 0 < 256 ^ kind.width) (hlt' : counter'.getD 0 < 256 ^ kind.width) :
    kind.stored counter = kind.stored counter' ↔ counter = counter' := by
  refine ⟨fun heq => ?_, congrArg kind.stored⟩
  cases counter with
  | none =>
    cases counter' with
    | none => rfl
    | some n' => cases heq
  | some n =>
    cases counter' with
    | none => cases heq
    | some n' => exact congrArg some (Bytes.toBE_injective hlt hlt' (Option.some.inj heq))

def writeWith (returnInverses : Bool) (prev : Option Value) (op : StorageOp) :
    Except WorkError (Option (Option Value)) :=
  if returnInverses then op.inverseWrite prev else op.plainWrite prev

variable {actions : List StorageAction}

theorem executedStore_eq {paranoidMode : Bool} (hnodup : (actions.map StorageAction.key).Nodup)
    (returnInverses : Bool) :
    executedStore paranoidMode store actions returnInverses =
      collectWrites (writeWith returnInverses) store.get actions >>= fun ws =>
        .ok (store.applyWrites ws) := by
  cases returnInverses with
  | true => exact executedStore_inverse hnodup
  | false => exact executedStore_plain (independent_of_nodup hnodup)

section Settle

variable {kind : Kind} {counter : Option ℕ} {op : StorageOp}

theorem readAmount_toBE {w n : ℕ} (hn : n < 256 ^ w) : readAmount w (Bytes.toBE w n) = .ok n := by
  rw [readAmount_of_length (Bytes.length_toBE ..), Bytes.ofBE_toBE_of_lt hn]

theorem incrementedValue_stored (hlt : counter.getD 0 < 256 ^ kind.width) {d : ℕ}
    (hsum : counter.getD 0 + d < 256 ^ kind.width) :
    incrementedValue kind.width d (kind.stored counter) =
      .ok (Bytes.toBE kind.width (counter.getD 0 + d)) := by
  cases counter with
  | none => simp [incrementedValue, Kind.stored]
  | some n =>
    rw [Option.getD_some] at hlt hsum
    simp [incrementedValue, Kind.stored, readAmount_toBE hlt, hsum]

theorem exists_inverseWrite_stored (hkind : kind ≠ .value) (hop : op.kind = kind)
    (hlt : counter.getD 0 < 256 ^ kind.width)
    (hup : op.move.up = true → counter.getD 0 + op.move.amount < 256 ^ kind.width) :
    ∃ w, op.inverseWrite (kind.stored counter) = .ok w ∧
      w.getD (kind.stored counter) =
        kind.stored (settle kind.removes true op.move counter) := by
  subst hop
  cases op with
  | set v | delete | insert v => exact absurd rfl hkind
  | incrementU64 d | incrementU128 d =>
    have hvalue := incrementedValue_stored hlt (hup rfl)
    simp only [StorageOp.kind, Kind.width, StorageOp.move] at hvalue
    refine ⟨_, by simp only [StorageOp.inverseWrite, hvalue, StorageOp.kind]; rfl, ?_⟩
    simp [settle, StorageOp.move, Kind.stored, StorageOp.kind, Kind.width]
  | decrementU64 d =>
    cases counter with
    | none => exact ⟨none, rfl, by simp [settle, StorageOp.move, Kind.stored]⟩
    | some n =>
      have hread : readAmount 8 (Bytes.toBE 8 n) = .ok n := readAmount_toBE hlt
      refine ⟨some (if n ≤ d.toNat then none else some (Bytes.toBE 8 (n - d.toNat))), ?_, ?_⟩
      · simp only [StorageOp.inverseWrite, Kind.stored, Option.map_some, StorageOp.kind,
          Kind.width, decrementedU64, hread, Except.ok_bind]
        split <;> rfl
      · by_cases hle : n ≤ d.toNat <;>
          simp [settle, StorageOp.move, Kind.stored, StorageOp.kind, Kind.removes, hle,
            Kind.width]
  | decrementU128NoDelete d =>
    cases counter with
    | none => exact ⟨none, rfl, by simp [settle, StorageOp.move, Kind.stored]⟩
    | some n =>
      have hread : readAmount 16 (Bytes.toBE 16 n) = .ok n := readAmount_toBE hlt
      refine ⟨some (some (Bytes.toBE 16 (n - d.toNat))), ?_, ?_⟩
      · simp [StorageOp.inverseWrite, Kind.stored, StorageOp.kind, Kind.width,
          decrementedU128NoDelete, hread]
      · simp [settle, StorageOp.move, Kind.stored, StorageOp.kind, Kind.removes, Kind.width]

theorem amount_move_eq_zero_iff (hkind : op.kind ≠ .value) :
    op.move.amount = 0 ↔ op.zeroDelta = true := by
  cases op <;> simp_all [StorageOp.move, StorageOp.zeroDelta, StorageOp.kind, BitVec.toNat_eq]

theorem exists_writeWith_stored (returnInverses : Bool) (hkind : kind ≠ .value)
    (hop : op.kind = kind) (hlt : counter.getD 0 < 256 ^ kind.width)
    (hup : op.move.up = true → counter.getD 0 + op.move.amount < 256 ^ kind.width) :
    ∃ w, writeWith returnInverses (kind.stored counter) op = .ok w ∧
      w.getD (kind.stored counter) =
        kind.stored (settle kind.removes returnInverses op.move counter) := by
  obtain ⟨w, hw, hstored⟩ := exists_inverseWrite_stored hkind hop hlt hup
  cases returnInverses with
  | true => exact ⟨w, hw, hstored⟩
  | false =>
    have hzero : op.move.amount = 0 ↔ op.zeroDelta = true :=
      amount_move_eq_zero_iff (by rwa [hop])
    cases hdelta : op.zeroDelta with
    | true =>
      refine ⟨none, plainWrite_of_zeroDelta hdelta _, ?_⟩
      rw [settle_of_amount_eq_zero _ (hzero.mpr hdelta), Option.getD_none]
    | false =>
      obtain ⟨w', hw', heq⟩ := exists_plainWrite_of_inverseWrite hdelta hw
      have hne : op.move.amount ≠ 0 := fun h => by
        rw [hzero.mp h] at hdelta
        cases hdelta
      refine ⟨w', hw', ?_⟩
      rw [heq, hstored, settle_of_amount_ne_zero _ hne]

theorem exists_executedStore (paranoidMode returnInverses : Bool) {counters : Key → Option ℕ}
    {batcher : SyncBatcher} (order : IterationOrder) (hkind : kind ≠ .value)
    (hstore : ∀ k, store.get k = kind.stored (counters k))
    (hmerged : Merged kind batcher.batchActions actions)
    (hlt : ∀ k, (counters k).getD 0 < 256 ^ kind.width)
    (hup : ∀ k move, net (movesAt k actions) = some move → move.up = true →
      (counters k).getD 0 + move.amount < 256 ^ kind.width) :
    ∃ store', executedStore paranoidMode store (order.arrange batcher.getBatchActions)
        returnInverses = .ok store' ∧
      ∀ k, store'.get k =
        kind.stored (Period.settle kind.removes ⟨returnInverses, movesAt k actions⟩ (counters k)) := by
  have hnodup := batcher.nodup_keys_arrange order
  have hwrite : ∀ a ∈ order.arrange batcher.getBatchActions,
      net (movesAt a.key actions) = some a.op.move ∧
        ∃ w, writeWith returnInverses (store.get a.key) a.op = .ok w ∧
          w.getD (store.get a.key) =
            kind.stored (settle kind.removes returnInverses a.op.move (counters a.key)) := by
    intro a ha
    obtain ⟨hop, hmove⟩ := hmerged a.key
    rw [SyncBatcher.mem_arrange.mp ha, Option.map_some] at hmove
    refine ⟨hmove.symm, ?_⟩
    rw [hstore]
    exact exists_writeWith_stored returnInverses hkind (hop _ (SyncBatcher.mem_arrange.mp ha))
      (hlt a.key) (hup a.key _ hmove.symm)
  obtain ⟨ws, hws⟩ := exists_collectWrites fun a ha => (hwrite a ha).2.imp fun _ h => h.1
  refine ⟨store.applyWrites ws, by rw [executedStore_eq hnodup, hws]; rfl, ?_⟩
  refine get_applyWrites_collectWrites (P := fun k stored => stored =
    kind.stored (Period.settle kind.removes ⟨returnInverses, movesAt k actions⟩ (counters k)))
      hnodup hws ?_ ?_
  · intro a ha w hw
    obtain ⟨hnet, w', hw', hstored⟩ := hwrite a ha
    cases hw.symm.trans hw'
    rw [hstored, Period.settle, hnet, Option.elim_some]
  · intro k hk
    have hnone : batcher.batchActions.get k = none := by
      cases hget : batcher.batchActions.get k with
      | none => rfl
      | some op =>
        exact absurd (List.mem_map.mpr ⟨⟨k, op⟩, SyncBatcher.mem_arrange.mpr hget, rfl⟩) hk
    have hnet := (hmerged k).2
    rw [hnone, Option.map_none] at hnet
    rw [hstore, Period.settle, ← hnet, Option.elim_none]

end Settle

end CardanoIndexer.Polyphony
