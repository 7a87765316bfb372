import CardanoIndexer.Timbre.Keys

/-!
# Storage actions and the messages of the storage stage

The source's seven variants of `StorageAction` all carry their key, which is factored out here.
-/

namespace CardanoIndexer.Polyphony

open Timbre

abbrev Key := Bytes
abbrev Value := Bytes

inductive WorkError where
  | restart
  | panic
  deriving DecidableEq

inductive StorageOp where
  | set (value : Value)
  | delete
  | insert (value : Value)
  | incrementU64 (delta : U64)
  | decrementU64 (delta : U64)
  | incrementU128 (delta : U128)
  | decrementU128NoDelete (delta : U128)
  deriving DecidableEq

structure StorageAction where
  key : Key
  op : StorageOp
  deriving DecidableEq

def addOrPanic {w : ℕ} (a b : BitVec w) : Except WorkError (BitVec w) :=
  if a.toNat + b.toNat < 2 ^ w then .ok (a + b) else .error .panic

namespace StorageOp

def requiresPreviousValue : StorageOp → Bool
  | .set _ | .delete => false
  | .insert _ | .incrementU64 _ | .decrementU64 _ | .incrementU128 _
  | .decrementU128NoDelete _ => true

/-- The single operation that stands for `self` followed by `other`; operations
that cannot be merged panic. -/
def merge : StorageOp → StorageOp → Except WorkError StorageOp
  | .incrementU64 pd, .incrementU64 nd => return .incrementU64 (← addOrPanic pd nd)
  | .incrementU64 pd, .decrementU64 nd =>
    if pd ≥ nd then return .incrementU64 (pd - nd) else return .decrementU64 (nd - pd)
  | .incrementU64 _, _ => throw .panic
  | .decrementU64 pd, .decrementU64 nd => return .decrementU64 (← addOrPanic pd nd)
  | .decrementU64 pd, .incrementU64 nd =>
    if pd ≥ nd then return .decrementU64 (pd - nd) else return .incrementU64 (nd - pd)
  | .decrementU64 _, _ => throw .panic
  | .incrementU128 pd, .incrementU128 nd => return .incrementU128 (← addOrPanic pd nd)
  | .incrementU128 pd, .decrementU128NoDelete nd =>
    if pd ≥ nd then return .incrementU128 (pd - nd)
    else return .decrementU128NoDelete (nd - pd)
  | .incrementU128 _, _ => throw .panic
  | .decrementU128NoDelete pd, .decrementU128NoDelete nd =>
    return .decrementU128NoDelete (← addOrPanic pd nd)
  | .decrementU128NoDelete pd, .incrementU128 nd =>
    if pd ≥ nd then return .decrementU128NoDelete (pd - nd)
    else return .incrementU128 (nd - pd)
  | .decrementU128NoDelete _, _ => throw .panic
  -- overwrite SET with SET/DEL, but not with an INS
  | .set _, .set v => return .set v
  | .set _, .delete => return .delete
  | .set v, .insert _ => return .set v
  | .set _, _ => throw .panic
  -- a delete followed by an insert is a set, because the value is cleared
  | .delete, .insert v => return .set v
  | .delete, .set v => return .set v
  | .delete, .delete => return .delete
  | .delete, _ => throw .panic
  -- overwrite INS with SET/DEL, but not with another INS
  | .insert _, .set v => return .set v
  | .insert _, .delete => return .delete
  | .insert v, .insert _ => return .insert v
  | .insert _, _ => throw .panic

end StorageOp

def StorageAction.size (action : StorageAction) : ℕ :=
  match action.op with
  | .set v => action.key.length + v.length
  | .delete => action.key.length
  | .insert v => action.key.length + v.length
  | .incrementU64 _ | .decrementU64 _ => action.key.length + 8
  | .incrementU128 _ | .decrementU128NoDelete _ => action.key.length + 16

/-! ## What the reducers send -/

structure DataOp where
  tag : Byte
  body : Bytes
  op : StorageOp
  deriving DecidableEq

def DataOp.toAction (enc : KeyEncoder) (dataOp : DataOp) : StorageAction :=
  ⟨enc.encodeDataKey dataOp.tag dataOp.body, dataOp.op⟩

inductive ReducerOutput where
  | data (ops : List DataOp)
  | cursor (point : Point) (height : U64)
  deriving DecidableEq

inductive StorageActionPayload where
  | rollForward (point : Point) (outputs : List ReducerOutput) (isMutable : Bool)
  | rollBack (point : Point)
  deriving DecidableEq

def reduceBlock (point : Point) (number : U64) (outputs : List ReducerOutput)
    (isMutable : Bool) : StorageActionPayload :=
  .rollForward point (outputs ++ [.cursor point number]) isMutable

def StorageActionPayload.endsWithCursor : StorageActionPayload → Bool
  | .rollForward point outputs _ =>
    match outputs.getLast? with
    | some (.cursor q _) => q = point
    | _ => false
  | .rollBack _ => true

def reducerOutputToStorageOps (enc : KeyEncoder) (currentTs : U64) :
    ReducerOutput → List StorageAction
  | .data ops => ops.map (DataOp.toAction enc)
  | .cursor point height =>
    let cursorValue := encodeCursorValue point height
    let infoValue := encodeInfoValue point height currentTs
    match point with
    | .origin => [⟨enc.encodeCursorKey, .set cursorValue⟩]
    | .specific _ _ =>
      [⟨enc.encodeCursorKey, .set cursorValue⟩, ⟨enc.encodeInfoKey, .set infoValue⟩]

def storageOps (enc : KeyEncoder) (currentTs : U64) (outputs : List ReducerOutput) :
    List StorageAction :=
  outputs.flatMap (reducerOutputToStorageOps enc currentTs)

variable {outputs : List ReducerOutput}

theorem endsWithCursor_rollForward {point : Point} {isMutable : Bool} :
    (StorageActionPayload.rollForward point outputs isMutable).endsWithCursor = true ↔
      ∃ number rest, StorageActionPayload.rollForward point outputs isMutable =
        reduceBlock point number rest isMutable := by
  simp only [StorageActionPayload.endsWithCursor, reduceBlock,
    StorageActionPayload.rollForward.injEq, true_and, and_true]
  induction outputs using List.reverseRecOn with
  | nil => simp
  | append_singleton rest last =>
    rw [List.getLast?_concat]
    cases last with
    | data ops => simp
    | cursor q number =>
      simp only [decide_eq_true_eq, List.append_singleton_inj]
      constructor
      · rintro rfl
        exact ⟨number, rest, rfl, rfl⟩
      · rintro ⟨number', rest', -, hcursor⟩
        exact (ReducerOutput.cursor.inj hcursor).1

theorem indexKey_of_mem_storageOps {enc : KeyEncoder} {currentTs : U64} {action : StorageAction}
    (hmem : action ∈ storageOps enc currentTs outputs) : enc.IndexKey action.key := by
  obtain ⟨output, -, hmem⟩ := List.mem_flatMap.mp hmem
  cases output with
  | data ops =>
    obtain ⟨dataOp, -, rfl⟩ := List.mem_map.mp hmem
    exact KeyEncoder.indexKey_data dataOp.tag dataOp.body
  | cursor point height =>
    cases point with
    | origin =>
      simp only [reducerOutputToStorageOps, List.mem_singleton] at hmem
      subst hmem
      exact KeyEncoder.indexKey_cursor
    | specific slot hash =>
      simp only [reducerOutputToStorageOps, List.mem_cons, List.not_mem_nil,
        or_false] at hmem
      rcases hmem with rfl | rfl
      · exact KeyEncoder.indexKey_cursor
      · exact KeyEncoder.indexKey_info

end CardanoIndexer.Polyphony
