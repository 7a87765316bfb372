import Mathlib.Data.List.Basic
import Mathlib.Tactic

/-!
# Registers
-/

namespace Register

variable {α : Type*}

inductive Op (α : Type*) where
  | set (a : α)
  | clear
  | insert (a : α)

def Op.apply : Op α → Option α → Option α
  | .set a, _ => some a
  | .clear, _ => none
  | .insert a, held => some (held.getD a)

def run (ops : List (Op α)) (held : Option α) : Option α :=
  ops.foldl (fun held op => op.apply held) held

@[simp] theorem run_nil (held : Option α) : run [] held = held := rfl

theorem run_append (first second : List (Op α)) (held : Option α) :
    run (first ++ second) held = run second (run first held) :=
  List.foldl_append ..

theorem run_concat (ops : List (Op α)) (op : Op α) (held : Option α) :
    run (ops ++ [op]) held = op.apply (run ops held) :=
  run_append ops [op] held

variable {ops : List (Op α)}

theorem isSome_run_iff (hclear : Op.clear ∉ ops) : (run ops none).isSome ↔ ops ≠ [] := by
  induction ops using List.reverseRecOn with
  | nil => simp
  | append_singleton ops op _ =>
    rw [run_concat]
    cases op with
    | set a => simp [Op.apply]
    | clear => simp at hclear
    | insert a => simp [Op.apply]

theorem exists_set_of_run (hclear : Op.clear ∉ ops) {a : α} (hset : Op.set a ∈ ops)
    (held : Option α) : ∃ b, Op.set b ∈ ops ∧ run ops held = some b := by
  induction ops using List.reverseRecOn with
  | nil => cases hset
  | append_singleton ops op ih =>
    rw [run_concat]
    rw [List.mem_append, List.mem_singleton, not_or] at hclear
    cases op with
    | set b => exact ⟨b, by simp, rfl⟩
    | clear => exact absurd rfl hclear.2
    | insert b =>
      have hset : Op.set a ∈ ops := by simpa using hset
      obtain ⟨c, hc, hrun⟩ := ih hclear.1 hset
      exact ⟨c, List.mem_append_left _ hc, by rw [hrun]; rfl⟩

theorem run_map_insert (values : List α) : run (values.map .insert) none = values.head? := by
  induction values using List.reverseRecOn with
  | nil => rfl
  | append_singleton values a ih =>
    rw [List.map_append, List.map_singleton, run_concat, ih]
    cases values <;> simp [Op.apply]

theorem run_map_set (values : List α) : run (values.map .set) none = values.getLast? := by
  induction values using List.reverseRecOn with
  | nil => rfl
  | append_singleton values a _ =>
    rw [List.map_append, List.map_singleton, run_concat, List.getLast?_concat]
    rfl

end Register
