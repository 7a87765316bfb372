import Mathlib.Tactic

/-!
# What a program that may fail leaves as it was

A program over a state ends or fails, and leaves a state behind either way (`after`).
-/

namespace Effect

variable {ε σ α β γ : Type} {rest : α → EStateM ε σ β} {program : EStateM ε σ α} {xs : List α}
  {P : α → Prop} {b : β}

def after (program : EStateM ε σ α) (s : σ) : σ :=
  match program s with
  | .ok _ s' => s'
  | .error _ s' => s'

def Keeps (view : σ → γ) (program : EStateM ε σ α) : Prop := ∀ s, view (after program s) = view s

def Returns (P : α → Prop) (program : EStateM ε σ α) : Prop :=
  ∀ s a s', program s = .ok a s' → P a

variable {view : σ → γ}

theorem bind_apply (program : EStateM ε σ α) (rest : α → EStateM ε σ β) (s : σ) :
    (program >>= rest) s = match program s with
      | .ok a s' => rest a s'
      | .error error s' => .error error s' :=
  rfl

theorem returns_pure {a : α} (h : P a) : Returns P (pure a : EStateM ε σ α) := by
  intro s b s' heq
  cases heq
  exact h

theorem returns_throw (P : α → Prop) (error : ε) : Returns P (throw error : EStateM ε σ α) := by
  intro s a s' heq
  cases heq

theorem Returns.bind {P : β → Prop} (h : ∀ a, Returns P (rest a)) :
    Returns P (program >>= rest) := by
  intro s b s' heq
  rw [bind_apply] at heq
  cases hresult : program s with
  | ok a s'' =>
    rw [hresult] at heq
    exact h a s'' b s' heq
  | error error s'' =>
    rw [hresult] at heq
    cases heq

theorem Returns.foldlM {P : β → Prop} {program : β → α → EStateM ε σ β} (hb : P b)
    (h : ∀ b, ∀ x ∈ xs, P b → Returns P (program b x)) : Returns P (xs.foldlM program b) := by
  induction xs generalizing b with
  | nil => exact returns_pure hb
  | cons x rest ih =>
    rw [List.foldlM_cons]
    intro s c s' heq
    rw [bind_apply] at heq
    cases hresult : program b x s with
    | ok b' s'' =>
      rw [hresult] at heq
      have hb' := h b x List.mem_cons_self hb s b' s'' hresult
      exact ih hb' (fun b y hy => h b y (List.mem_cons_of_mem _ hy)) s'' c s' heq
    | error error s'' =>
      rw [hresult] at heq
      cases heq

/-! ## What is kept -/

theorem keeps_pure (a : α) : Keeps view (pure a : EStateM ε σ α) := fun _ => rfl

theorem keeps_throw (error : ε) : Keeps view (throw error : EStateM ε σ α) := fun _ => rfl

theorem keeps_get : Keeps view (get : EStateM ε σ σ) := fun _ => rfl

theorem Keeps.bind_of_returns (h : Keeps view program) (hreturns : Returns P program)
    (hrest : ∀ a, P a → Keeps view (rest a)) : Keeps view (program >>= rest) := by
  intro s
  have hfirst := h s
  cases hresult : program s with
  | ok a s' =>
    rw [after, hresult] at hfirst
    rw [after, bind_apply, hresult]
    exact (hrest a (hreturns s a s' hresult) s').trans hfirst
  | error error s' =>
    rw [after, hresult] at hfirst
    rw [after, bind_apply, hresult]
    exact hfirst

theorem Keeps.bind (h : Keeps view program) (hrest : ∀ a, Keeps view (rest a)) :
    Keeps view (program >>= rest) :=
  h.bind_of_returns (P := fun _ => True) (fun _ _ _ _ => trivial) fun a _ => hrest a

theorem Keeps.forM {program : α → EStateM ε σ PUnit} (h : ∀ x ∈ xs, Keeps view (program x)) :
    Keeps view (xs.forM program) := by
  induction xs with
  | nil => exact keeps_pure _
  | cons x rest ih =>
    exact (h x List.mem_cons_self).bind fun _ => ih fun y hy => h y (List.mem_cons_of_mem _ hy)

theorem Keeps.foldlM {program : β → α → EStateM ε σ β} (h : ∀ b x, Keeps view (program b x)) :
    Keeps view (xs.foldlM program b) := by
  induction xs generalizing b with
  | nil => exact keeps_pure _
  | cons x rest ih =>
    rw [List.foldlM_cons]
    exact (h b x).bind fun _ => ih

end Effect
