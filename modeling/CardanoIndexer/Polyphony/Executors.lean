import CardanoIndexer.Lib.Transaction
import CardanoIndexer.Lib.Run
import CardanoIndexer.Polyphony.Model

/-!
# Executing storage actions in a transaction
-/

namespace CardanoIndexer.Polyphony

abbrev Store := SortedMap Key Value

abbrev Writes := List (Key × Option Value)

/-! ## Counters -/

def readAmount (n : ℕ) (value : Value) : Except WorkError ℕ :=
  if n ≤ value.length then .ok (Bytes.ofBE (value.take n)) else .error .panic

def incrementedValue (n : ℕ) (d : ℕ) : Option Value → Except WorkError Value
  | some prevValue => do
    let prevAmount ← readAmount n prevValue
    if prevAmount + d < 256 ^ n then return Bytes.toBE n (prevAmount + d) else throw .panic
  | none => return Bytes.toBE n d

def decrementedU64 (d : ℕ) (prevValue : Value) : Except WorkError (Option Value) := do
  let prevAmount ← readAmount 8 prevValue
  -- `checked_sub`: zero and underflow both delete the key
  if prevAmount ≤ d then return none else return some (Bytes.toBE 8 (prevAmount - d))

def decrementedU128NoDelete (d : ℕ) (prevValue : Value) : Except WorkError Value := do
  let prevAmount ← readAmount 16 prevValue
  return Bytes.toBE 16 (prevAmount - d)

namespace StorageOp

def plainWrite (prev : Option Value) : StorageOp → Except WorkError (Option (Option Value))
  | .set v => return some (some v)
  | .delete => return some none
  | .insert v =>
    match prev with
    | some _ => return none
    | none => return some (some v)
  | .incrementU64 d =>
    if d = 0 then return none else return some (some (← incrementedValue 8 d.toNat prev))
  | .decrementU64 d =>
    if d = 0 then return none
    else
      match prev with
      | some prevValue => return some (← decrementedU64 d.toNat prevValue)
      | none => return none
  | .incrementU128 d =>
    if d = 0 then return none else return some (some (← incrementedValue 16 d.toNat prev))
  | .decrementU128NoDelete d =>
    if d = 0 then return none
    else
      match prev with
      | some prevValue => return some (some (← decrementedU128NoDelete d.toNat prevValue))
      | none => return none

def inverseWrite (prev : Option Value) : StorageOp → Except WorkError (Option (Option Value))
  | .set v =>
    match prev with
    | some prevValue => if prevValue = v then return none else return some (some v)
    | none => return some (some v)
  | .delete =>
    match prev with
    | some _ => return some none
    | none => return none
  | .insert v =>
    match prev with
    | some _ => return none
    | none => return some (some v)
  | .incrementU64 d => return some (some (← incrementedValue 8 d.toNat prev))
  | .decrementU64 d =>
    match prev with
    | some prevValue => return some (← decrementedU64 d.toNat prevValue)
    | none => return none
  | .incrementU128 d => return some (some (← incrementedValue 16 d.toNat prev))
  | .decrementU128NoDelete d =>
    match prev with
    | some prevValue => return some (some (← decrementedU128NoDelete d.toNat prevValue))
    | none => return none

def restore : Option Value → StorageOp
  | some prevValue => .set prevValue
  | none => .delete

def takesPrevious : StorageOp → Bool
  | .set _ | .delete => false
  | .insert _ => true
  | .incrementU64 d | .decrementU64 d => d ≠ 0
  | .incrementU128 d | .decrementU128NoDelete d => d ≠ 0

end StorageOp

/-! ## The executors -/

structure OpState where
  txn : Txn Key Value
  kvMap : SortedMap Key Value
  verificationOps : Option Writes

namespace OpState

def write (st : OpState) (k : Key) (w : Option (Option Value)) : OpState :=
  match w with
  | none => st
  | some v =>
    { st with txn := st.txn.write (k, v),
              verificationOps := st.verificationOps.map (· ++ [(k, v)]) }

def remove (st : OpState) (k : Key) : OpState := { st with kvMap := st.kvMap.erase k }

end OpState

def executeStorageOpInTxn (st : OpState) (action : StorageAction) : Except WorkError OpState := do
  let w ← action.op.plainWrite (st.kvMap.get action.key)
  let st := if action.op.takesPrevious then st.remove action.key else st
  return st.write action.key w

def executeStorageOpInTxnWithInverse (st : OpState) (action : StorageAction) :
    Except WorkError (OpState × Option StorageAction) := do
  let prev := st.kvMap.get action.key
  let w ← action.op.inverseWrite prev
  return ((st.remove action.key).write action.key w,
    w.map fun _ => ⟨action.key, StorageOp.restore prev⟩)

def executeAllWithInverse :
    OpState → List StorageAction → Except WorkError (OpState × List StorageAction)
  | st, [] => return (st, [])
  | st, action :: rest => do
    let (st, inverse) ← executeStorageOpInTxnWithInverse st action
    let (st, inverses) ← executeAllWithInverse st rest
    return (st, inverse.toList ++ inverses)

def orRestart {α : Type} : Option α → Except WorkError α
  | some a => .ok a
  | none => .error .restart

def batchGetRequiredKvsForBatch (txn : Txn Key Value) (actions : List StorageAction)
    (needInverses : Bool) : Except WorkError (SortedMap Key Value × Txn Key Value) :=
  let requiredKeys :=
    if needInverses then actions.map StorageAction.key
    else (actions.filter fun a => a.op.requiresPreviousValue).map StorageAction.key
  orRestart (txn.batchGetAll 1000 requiredKeys)

structure WorkTxn where
  txn : Txn Key Value
  pendingVerification : Option Writes

def applyActions (paranoidMode : Bool) (work : WorkTxn) (actions : List StorageAction)
    (returnInverses : Bool) : Except WorkError (WorkTxn × Option (List StorageAction)) := do
  let (kvMap, txn) ← batchGetRequiredKvsForBatch work.txn actions returnInverses
  let st : OpState := ⟨txn, kvMap, if paranoidMode then some [] else none⟩
  if returnInverses then
    let (st, inverses) ← executeAllWithInverse st actions
    return (⟨st.txn, st.verificationOps.or work.pendingVerification⟩, some inverses)
  else
    let st ← actions.foldlM executeStorageOpInTxn st
    return (⟨st.txn, st.verificationOps.or work.pendingVerification⟩, none)

/-! ## The writes of a list of actions -/

def collectWrites (write : Option Value → StorageOp → Except WorkError (Option (Option Value)))
    (prev : Key → Option Value) : List StorageAction → Except WorkError Writes
  | [] => return []
  | action :: rest => do
    let w ← write (prev action.key) action.op
    let ws ← collectWrites write prev rest
    return (w.map fun v => (action.key, v)).toList ++ ws

variable {prev' : Key → Option Value} {paranoidMode : Bool} {st : OpState}

section collectWrites

variable {write : Option Value → StorageOp → Except WorkError (Option (Option Value))}
  {prev : Key → Option Value} {actions : List StorageAction} {ws : Writes}

theorem keys_collectWrites (h : collectWrites write prev actions = .ok ws) :
    (ws.map Prod.fst).Sublist (actions.map StorageAction.key) := by
  induction actions generalizing ws with
  | nil => cases h; exact List.Sublist.refl _
  | cons action rest ih =>
    obtain ⟨w, -, h⟩ := Except.bind_eq_ok.mp h
    obtain ⟨ws', hws', h⟩ := Except.bind_eq_ok.mp h
    cases h
    cases w with
    | none => exact (ih hws').cons _
    | some v => simpa using ih hws'

theorem lastWrite_collectWrites_of_not_mem (h : collectWrites write prev actions = .ok ws)
    {k : Key} (hk : k ∉ actions.map StorageAction.key) : SortedMap.lastWrite k ws = none :=
  SortedMap.lastWrite_eq_none_iff.mpr fun hmem => hk ((keys_collectWrites h).subset hmem)

theorem lastWrite_collectWrites (hnodup : (actions.map StorageAction.key).Nodup)
    (h : collectWrites write prev actions = .ok ws) {action : StorageAction}
    (hmem : action ∈ actions) :
    write (prev action.key) action.op = .ok (SortedMap.lastWrite action.key ws) := by
  induction actions generalizing ws with
  | nil => simp at hmem
  | cons head rest ih =>
    rw [List.map_cons, List.nodup_cons] at hnodup
    obtain ⟨w, hw, h⟩ := Except.bind_eq_ok.mp h
    obtain ⟨ws', hws', h⟩ := Except.bind_eq_ok.mp h
    cases h
    rw [SortedMap.lastWrite_append]
    rcases List.mem_cons.mp hmem with rfl | hmem
    · rw [lastWrite_collectWrites_of_not_mem hws' hnodup.1, hw]
      cases w <;> simp [SortedMap.lastWrite_singleton]
    · have hne : action.key ≠ head.key := fun heq =>
        hnodup.1 (List.mem_map.mpr ⟨action, hmem, heq⟩)
      rw [ih hnodup.2 hws' hmem]
      cases w <;> simp [SortedMap.lastWrite_singleton, hne]

theorem collectWrites_congr (h : ∀ action ∈ actions,
      write (prev action.key) action.op = write (prev' action.key) action.op) :
    collectWrites write prev actions = collectWrites write prev' actions := by
  induction actions with
  | nil => rfl
  | cons action rest ih =>
    simp only [collectWrites]
    rw [h action (List.mem_cons_self ..), ih fun a ha => h a (List.mem_cons_of_mem _ ha)]

theorem exists_collectWrites
    (h : ∀ action ∈ actions, ∃ w, write (prev action.key) action.op = .ok w) :
    ∃ ws, collectWrites write prev actions = .ok ws := by
  induction actions with
  | nil => exact ⟨[], rfl⟩
  | cons action rest ih =>
    obtain ⟨w, hw⟩ := h action (List.mem_cons_self ..)
    obtain ⟨ws, hws⟩ := ih fun a ha => h a (List.mem_cons_of_mem _ ha)
    exact ⟨_, by simp only [collectWrites, hw, hws, Except.ok_bind]; rfl⟩

end collectWrites

@[simp] theorem OpState.write_txn (st : OpState) (k : Key) (w : Option (Option Value)) :
    (st.write k w).txn = st.txn.writeAll (w.map fun v => (k, v)).toList := by
  cases w <;> simp [OpState.write, Txn.write_eq_writeAll]

@[simp] theorem OpState.write_verificationOps (st : OpState) (k : Key)
    (w : Option (Option Value)) :
    (st.write k w).verificationOps =
      st.verificationOps.map (· ++ (w.map fun v => (k, v)).toList) := by
  cases w <;> simp [OpState.write]

@[simp] theorem OpState.write_kvMap (st : OpState) (k : Key) (w : Option (Option Value)) :
    (st.write k w).kvMap = st.kvMap := by
  cases w <;> rfl

theorem OpState.removeIf_eq (st : OpState) (k : Key) (takes : Bool) :
    (if takes then st.remove k else st) =
      { st with kvMap := if takes then st.kvMap.erase k else st.kvMap } := by
  cases takes <;> rfl

def Independent (actions : List StorageAction) : Prop :=
  actions.Pairwise fun a b => a.op.takesPrevious = true → b.key ≠ a.key

variable {actions : List StorageAction}

theorem independent_of_nodup (hnodup : (actions.map StorageAction.key).Nodup) :
    Independent actions :=
  (List.pairwise_map.mp hnodup).imp fun hne _ => hne.symm

theorem foldlM_executeStorageOpInTxn (hindep : Independent actions) :
    actions.foldlM executeStorageOpInTxn st =
      collectWrites StorageOp.plainWrite st.kvMap.get actions >>= fun ws =>
        .ok ⟨st.txn.writeAll ws,
          actions.foldl (fun m a => if a.op.takesPrevious then m.erase a.key else m) st.kvMap,
          st.verificationOps.map (· ++ ws)⟩ := by
  induction actions generalizing st with
  | nil => simp [collectWrites]
  | cons action rest ih =>
    obtain ⟨hfirst, hrest⟩ := List.pairwise_cons.mp hindep
    simp only [List.foldlM_cons, List.foldl_cons, collectWrites, executeStorageOpInTxn]
    cases hw : action.op.plainWrite (st.kvMap.get action.key) with
    | error e => rfl
    | ok w =>
      simp only [Except.ok_bind, Except.pure_eq_ok, OpState.removeIf_eq]
      set kvMap := if action.op.takesPrevious then st.kvMap.erase action.key else st.kvMap
        with hkv
      -- later actions do not miss what the first one took
      have hmap : collectWrites StorageOp.plainWrite kvMap.get rest =
          collectWrites StorageOp.plainWrite st.kvMap.get rest := by
        refine collectWrites_congr fun a ha => ?_
        rw [hkv]
        split
        case isTrue htakes => simp [hfirst a ha htakes]
        case isFalse => rfl
      rw [ih hrest, OpState.write_kvMap, hmap]
      cases collectWrites StorageOp.plainWrite st.kvMap.get rest with
      | error e => rfl
      | ok ws => simp [Txn.writeAll_writeAll, Function.comp_def]

def inversesOf (prev : Key → Option Value) (ws : Writes) : List StorageAction :=
  ws.map fun w => ⟨w.1, StorageOp.restore (prev w.1)⟩

theorem inversesOf_congr {prev : Key → Option Value} {ws : Writes}
    (h : ∀ k ∈ ws.map Prod.fst, prev k = prev' k) : inversesOf prev ws = inversesOf prev' ws :=
  List.map_congr_left fun w hw => by rw [h w.1 (List.mem_map_of_mem hw)]

theorem executeAllWithInverse_eq (hnodup : (actions.map StorageAction.key).Nodup) :
    executeAllWithInverse st actions =
      collectWrites StorageOp.inverseWrite st.kvMap.get actions >>= fun ws =>
        .ok (⟨st.txn.writeAll ws, actions.foldl (fun m a => m.erase a.key) st.kvMap,
          st.verificationOps.map (· ++ ws)⟩, inversesOf st.kvMap.get ws) := by
  induction actions generalizing st with
  | nil => simp [executeAllWithInverse, collectWrites, inversesOf]
  | cons action rest ih =>
    rw [List.map_cons, List.nodup_cons] at hnodup
    simp only [executeAllWithInverse, collectWrites, executeStorageOpInTxnWithInverse,
      List.foldl_cons]
    cases hw : action.op.inverseWrite (st.kvMap.get action.key) with
    | error e => rfl
    | ok w =>
      have hget : ∀ k ∈ rest.map StorageAction.key,
          (st.kvMap.erase action.key).get k = st.kvMap.get k := by
        intro k hk
        have hne : k ≠ action.key := fun heq => hnodup.1 (heq ▸ hk)
        simp [hne]
      have hmap : collectWrites StorageOp.inverseWrite (st.kvMap.erase action.key).get rest =
          collectWrites StorageOp.inverseWrite st.kvMap.get rest :=
        collectWrites_congr fun a ha => by rw [hget _ (List.mem_map_of_mem ha)]
      simp only [Except.ok_bind, Except.pure_eq_ok]
      rw [ih hnodup.2, OpState.write_kvMap, OpState.remove, hmap]
      cases hws : collectWrites StorageOp.inverseWrite st.kvMap.get rest with
      | error e => rfl
      | ok ws =>
        have hinv : inversesOf (st.kvMap.erase action.key).get ws =
            inversesOf st.kvMap.get ws :=
          inversesOf_congr fun k hk => hget k ((keys_collectWrites hws).subset hk)
        rw [Except.ok_bind, hinv]
        cases w <;> simp [Txn.writeAll_writeAll, Function.comp_def, inversesOf]

theorem plainWrite_of_not_requires {op : StorageOp} (h : op.requiresPreviousValue = false)
    (prev prev' : Option Value) : op.plainWrite prev = op.plainWrite prev' := by
  cases op <;> simp_all [StorageOp.requiresPreviousValue, StorageOp.plainWrite]

theorem batchGetRequiredKvsForBatch_of_faultless {txn : Txn Key Value}
    (hfault : txn.failRead = none) (actions : List StorageAction) (needInverses : Bool) :
    ∃ kvMap, batchGetRequiredKvsForBatch txn actions needInverses = .ok (kvMap, txn) ∧
      ∀ a ∈ actions, needInverses || a.op.requiresPreviousValue →
        kvMap.get a.key = txn.view.get a.key := by
  obtain ⟨kvMap, hbatch, hget⟩ := Txn.batchGetAll_of_faultless hfault (by norm_num : 0 < 1000)
    (if needInverses then actions.map StorageAction.key
      else (actions.filter fun a => a.op.requiresPreviousValue).map StorageAction.key)
  refine ⟨kvMap, by rw [batchGetRequiredKvsForBatch, hbatch]; rfl, fun a ha hreq => ?_⟩
  refine hget a.key ?_
  cases needInverses with
  | true => exact List.mem_map_of_mem ha
  | false => exact List.mem_map_of_mem (List.mem_filter.mpr ⟨ha, by simpa using hreq⟩)

theorem applyActions_plain (work : WorkTxn) (hfault : work.txn.failRead = none)
    (hindep : Independent actions) :
    applyActions paranoidMode work actions false =
      collectWrites StorageOp.plainWrite work.txn.view.get actions >>= fun ws =>
        .ok (⟨work.txn.writeAll ws,
          if paranoidMode then some ws else work.pendingVerification⟩, none) := by
  obtain ⟨kvMap, hbatch, hget⟩ :=
    batchGetRequiredKvsForBatch_of_faultless hfault actions false
  have hmap : collectWrites StorageOp.plainWrite kvMap.get actions =
      collectWrites StorageOp.plainWrite work.txn.view.get actions := by
    refine collectWrites_congr fun a ha => ?_
    cases hreq : a.op.requiresPreviousValue with
    | false => exact plainWrite_of_not_requires hreq _ _
    | true => rw [hget a ha hreq]
  simp only [applyActions, hbatch, Bool.false_eq_true, if_false, Except.ok_bind,
    Except.pure_eq_ok, foldlM_executeStorageOpInTxn hindep, hmap]
  cases collectWrites StorageOp.plainWrite work.txn.view.get actions with
  | error e => rfl
  | ok ws => cases paranoidMode <;> simp

theorem applyActions_inverse (work : WorkTxn) (hfault : work.txn.failRead = none)
    (hnodup : (actions.map StorageAction.key).Nodup) :
    applyActions paranoidMode work actions true =
      collectWrites StorageOp.inverseWrite work.txn.view.get actions >>= fun ws =>
        .ok (⟨work.txn.writeAll ws,
          if paranoidMode then some ws else work.pendingVerification⟩,
          some (inversesOf work.txn.view.get ws)) := by
  obtain ⟨kvMap, hbatch, hget⟩ :=
    batchGetRequiredKvsForBatch_of_faultless hfault actions true
  have hmap : collectWrites StorageOp.inverseWrite kvMap.get actions =
      collectWrites StorageOp.inverseWrite work.txn.view.get actions :=
    collectWrites_congr fun a ha => by rw [hget a ha rfl]
  simp only [applyActions, hbatch, if_true, Except.ok_bind, Except.pure_eq_ok,
    executeAllWithInverse_eq hnodup, hmap]
  cases hws : collectWrites StorageOp.inverseWrite work.txn.view.get actions with
  | error e => rfl
  | ok ws =>
    have hinv : inversesOf kvMap.get ws = inversesOf work.txn.view.get ws := by
      refine inversesOf_congr fun k hk => ?_
      obtain ⟨a, ha, rfl⟩ := List.mem_map.mp ((keys_collectWrites hws).subset hk)
      exact hget a ha rfl
    rw [Except.ok_bind, Except.ok_bind, Except.ok_bind, hinv]
    cases paranoidMode <;> simp

end CardanoIndexer.Polyphony
