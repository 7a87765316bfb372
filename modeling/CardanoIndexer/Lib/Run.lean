import Mathlib.Data.List.Basic
import Mathlib.Tactic

/-!
# Runs of a fallible step function

`Run.invariant`: an invariant may speak of the inputs so far, and one step has to preserve it only
from states reached by a run.
-/

namespace Except

universe u v

variable {ε : Type u} {α β : Type v} {x : Except ε α}

@[simp] theorem ok_bind (a : α) (f : α → Except ε β) : (Except.ok a >>= f) = f a := rfl

@[simp] theorem error_bind (e : ε) (f : α → Except ε β) :
    ((Except.error e : Except ε α) >>= f) = .error e := rfl

@[simp] theorem pure_eq_ok (a : α) : (pure a : Except ε α) = .ok a := rfl

@[simp] theorem throw_eq_error (e : ε) : (throw e : Except ε α) = .error e := rfl

theorem bind_eq_ok {f : α → Except ε β} {b : β} :
    (x >>= f) = .ok b ↔ ∃ a, x = .ok a ∧ f a = .ok b := by
  cases x with
  | error e => simp
  | ok a => simp

theorem bind_eq_error {f : α → Except ε β} {e : ε} :
    (x >>= f) = .error e ↔ x = .error e ∨ ∃ a, x = .ok a ∧ f a = .error e := by
  cases x with
  | error e' => simp
  | ok a => simp

section MapM

variable {f : α → Except ε β} {xs : List α} {ys : List β}

theorem mapM_cons_eq_ok {x : α} :
    (x :: xs).mapM f = .ok ys ↔
      ∃ y rest, f x = .ok y ∧ xs.mapM f = .ok rest ∧ ys = y :: rest := by
  simp only [List.mapM_cons, bind_eq_ok, pure_eq_ok, Except.ok.injEq]
  constructor
  · rintro ⟨y, hy, rest, hrest, rfl⟩
    exact ⟨y, rest, hy, hrest, rfl⟩
  · rintro ⟨y, rest, hy, hrest, rfl⟩
    exact ⟨y, hy, rest, hrest, rfl⟩

theorem mem_of_mapM_eq_ok (h : xs.mapM f = .ok ys) {y : β} :
    y ∈ ys ↔ ∃ x ∈ xs, f x = .ok y := by
  induction xs generalizing ys with
  | nil =>
    cases h
    simp
  | cons x xs ih =>
    obtain ⟨z, rest, hz, hrest, rfl⟩ := mapM_cons_eq_ok.mp h
    rw [List.mem_cons, ih hrest]
    simp [hz, eq_comm]

theorem exists_mapM_eq_ok (h : ∀ x ∈ xs, ∃ y, f x = .ok y) : ∃ ys, xs.mapM f = .ok ys := by
  induction xs with
  | nil => exact ⟨[], rfl⟩
  | cons x xs ih =>
    obtain ⟨⟨y, hy⟩, hrest⟩ := List.forall_mem_cons.mp h
    obtain ⟨rest, hmapM⟩ := ih hrest
    exact ⟨y :: rest, mapM_cons_eq_ok.mpr ⟨y, rest, hy, hmapM, rfl⟩⟩

theorem mapM_eq_ok_map {g : α → β} (h : ∀ x ∈ xs, f x = .ok (g x)) :
    xs.mapM f = .ok (xs.map g) := by
  induction xs with
  | nil => rfl
  | cons x xs ih =>
    obtain ⟨hx, hrest⟩ := List.forall_mem_cons.mp h
    exact mapM_cons_eq_ok.mpr ⟨g x, xs.map g, hx, ih hrest, rfl⟩

theorem exists_ok_of_mapM (h : xs.mapM f = .ok ys) {x : α} (hx : x ∈ xs) :
    ∃ y, f x = .ok y := by
  induction xs generalizing ys with
  | nil => cases hx
  | cons z xs ih =>
    obtain ⟨y, rest, hy, hrest, rfl⟩ := mapM_cons_eq_ok.mp h
    rcases List.mem_cons.mp hx with rfl | hx
    · exact ⟨y, hy⟩
    · exact ih hrest hx

theorem getElem?_of_mapM_eq_ok (h : xs.mapM f = .ok ys) {i : ℕ} {x : α} (hx : xs[i]? = some x) :
    ∃ y, ys[i]? = some y ∧ f x = .ok y := by
  induction xs generalizing ys i with
  | nil => cases hx
  | cons z xs ih =>
    obtain ⟨y, rest, hy, hrest, rfl⟩ := mapM_cons_eq_ok.mp h
    cases i with
    | zero =>
      cases hx
      exact ⟨y, rfl, hy⟩
    | succ i => exact ih hrest hx

theorem length_of_mapM_eq_ok (h : xs.mapM f = .ok ys) : ys.length = xs.length := by
  induction xs generalizing ys with
  | nil =>
    cases h
    rfl
  | cons x xs ih =>
    obtain ⟨y, rest, -, hrest, rfl⟩ := mapM_cons_eq_ok.mp h
    rw [List.length_cons, List.length_cons, ih hrest]

theorem nodup_of_mapM_eq_ok (h : xs.mapM f = .ok ys) (hnodup : xs.Nodup)
    (hinj : ∀ x ∈ xs, ∀ x' ∈ xs, ∀ y, f x = .ok y → f x' = .ok y → x = x') : ys.Nodup := by
  induction xs generalizing ys with
  | nil =>
    cases h
    exact List.nodup_nil
  | cons x xs ih =>
    obtain ⟨y, rest, hy, hrest, rfl⟩ := mapM_cons_eq_ok.mp h
    rw [List.nodup_cons] at hnodup
    refine List.nodup_cons.mpr ⟨fun hmem => ?_, ih hrest hnodup.2 fun x hx x' hx' =>
      hinj x (List.mem_cons_of_mem _ hx) x' (List.mem_cons_of_mem _ hx')⟩
    obtain ⟨x', hx', hy'⟩ := (mem_of_mapM_eq_ok hrest).mp hmem
    obtain rfl := hinj x List.mem_cons_self x' (List.mem_cons_of_mem _ hx') y hy hy'
    exact hnodup.1 hx'

theorem exists_mapM_flatten {f : α → Except ε (List β)} {γ : Type*} {w : β → γ}
    {g : α → List γ} (h : ∀ x ∈ xs, ∃ ys, f x = .ok ys ∧ ys.map w = g x) :
    ∃ yss, xs.mapM f = .ok yss ∧ yss.flatten.map w = xs.flatMap g := by
  induction xs with
  | nil => exact ⟨[], rfl, rfl⟩
  | cons x xs ih =>
    obtain ⟨⟨ys, hys, hw⟩, hrest⟩ := List.forall_mem_cons.mp h
    obtain ⟨yss, hyss, hws⟩ := ih hrest
    refine ⟨ys :: yss, mapM_cons_eq_ok.mpr ⟨ys, yss, hys, hyss, rfl⟩, ?_⟩
    rw [List.flatten_cons, List.map_append, hw, hws, List.flatMap_cons]

end MapM

instance decEq [DecidableEq ε] [DecidableEq α] : DecidableEq (Except ε α)
  | .ok a, .ok b => decidable_of_iff (a = b) (by simp)
  | .error e, .error e' => decidable_of_iff (e = e') (by simp)
  | .ok _, .error _ => isFalse (by simp)
  | .error _, .ok _ => isFalse (by simp)

theorem exists_ok_of_any {p : α → Bool} (h : x.toOption.any p = true) :
    ∃ a, x = .ok a ∧ p a = true := by
  cases x with
  | error e => cases h
  | ok a => exact ⟨a, rfl, h⟩

theorem eq_ok_get (h : x.toOption.isSome = true) : x = .ok (x.toOption.get h) := by
  cases x with
  | error e => cases h
  | ok a => rfl

section Avoids

variable {e : ε} {P : α → Prop} {Q : β → Prop}

def Avoids (e : ε) (P : α → Prop) (x : Except ε α) : Prop :=
  x ≠ .error e ∧ ∀ a, x = .ok a → P a

theorem Avoids.ok {a : α} (h : P a) : Avoids e P (.ok a) := by
  constructor
  · intro heq
    cases heq
  · intro b hb
    cases hb
    exact h

theorem Avoids.error {e' : ε} (h : e' ≠ e) : Avoids e P (.error e') := by
  constructor
  · intro heq
    cases heq
    exact h rfl
  · intro a ha
    cases ha

theorem Avoids.bind {f : α → Except ε β} (hx : Avoids e P x)
    (hf : ∀ a, x = .ok a → P a → Avoids e Q (f a)) : Avoids e Q (x >>= f) := by
  cases x with
  | error e' => exact .error fun heq => hx.1 (heq ▸ rfl)
  | ok a => exact hf a rfl (hx.2 a rfl)

theorem Avoids.mono {R : α → Prop} (hx : Avoids e P x) (h : ∀ a, P a → R a) : Avoids e R x :=
  ⟨hx.1, fun a ha => h a (hx.2 a ha)⟩

theorem Avoids.mapM {f : α → Except ε β} {xs : List α}
    (h : ∀ x ∈ xs, Avoids e (fun _ => True) (f x)) :
    Avoids e (fun ys => ∀ y ∈ ys, ∃ x ∈ xs, f x = .ok y) (xs.mapM f) := by
  refine ⟨?_, fun ys hys y hy => (mem_of_mapM_eq_ok hys).mp hy⟩
  induction xs with
  | nil =>
    intro heq
    cases heq
  | cons x xs ih =>
    obtain ⟨hx, hxs⟩ := List.forall_mem_cons.mp h
    rw [List.mapM_cons]
    intro heq
    rcases bind_eq_error.mp heq with heq | ⟨y, -, heq⟩
    · exact hx.1 heq
    · rcases bind_eq_error.mp heq with heq | ⟨ys, -, heq⟩
      · exact ih hxs heq
      · cases heq

end Avoids

end Except

namespace Run

variable {σ ι ε : Type*} (step : σ → ι → Except ε σ) {inputs past : List ι} {cond : σ → ι → Bool}
  {I : List ι → σ → Prop} {s s' mid : σ} {i : ι}

def run (s : σ) (inputs : List ι) : Except ε σ := inputs.foldlM step s

@[simp] theorem run_nil (s : σ) : run step s [] = .ok s := rfl

@[simp] theorem run_cons (s : σ) (i : ι) (inputs : List ι) :
    run step s (i :: inputs) = step s i >>= fun s' => run step s' inputs :=
  List.foldlM_cons ..

theorem run_append (s : σ) (first second : List ι) :
    run step s (first ++ second) = run step s first >>= fun s' => run step s' second := by
  induction first generalizing s with
  | nil => rfl
  | cons i first ih =>
    simp only [List.cons_append, run_cons]
    cases step s i with
    | error e => rfl
    | ok s' => exact ih s'

theorem exists_run_eq_ok {step : σ → ι → Except ε σ} (Inv : List ι → σ → Prop)
    (hstep : ∀ seen i rest s, seen ++ i :: rest = inputs → Inv seen s →
      ∃ s', step s i = .ok s' ∧ Inv (seen ++ [i]) s') (h : Inv [] s) :
    ∃ s', run step s inputs = .ok s' ∧ Inv inputs s' := by
  have hrun : ∀ rest seen s, seen ++ rest = inputs → Inv seen s →
      ∃ s', run step s rest = .ok s' ∧ Inv inputs s' := by
    intro rest
    induction rest with
    | nil =>
      intro seen s hsplit hinv
      rw [List.append_nil] at hsplit
      exact ⟨s, rfl, hsplit ▸ hinv⟩
    | cons i rest ih =>
      intro seen s hsplit hinv
      obtain ⟨mid, hmid, hinv⟩ := hstep seen i rest s hsplit hinv
      obtain ⟨s', hs', hinv⟩ := ih (seen ++ [i]) mid (by rw [← hsplit]; simp) hinv
      exact ⟨s', by rw [run_cons, hmid, Except.ok_bind, hs'], hinv⟩
  exact hrun inputs [] s rfl h

theorem run_concat_eq_ok :
    run step s (inputs ++ [i]) = .ok s' ↔
      ∃ mid, run step s inputs = .ok mid ∧ step mid i = .ok s' := by
  rw [run_append, Except.bind_eq_ok]
  constructor
  · rintro ⟨mid, hmid, hstep⟩
    obtain ⟨last, hlast, hnil⟩ := Except.bind_eq_ok.mp (by simpa using hstep)
    cases hnil
    exact ⟨mid, hmid, hlast⟩
  · rintro ⟨mid, hmid, hstep⟩
    exact ⟨mid, hmid, by simp [hstep]⟩

def lastAt (mark : ι → Bool) : σ → Option σ → List ι → Option σ
  | _, acc, [] => acc
  | s, acc, i :: rest =>
    match step s i with
    | .error _ => acc
    | .ok s' => lastAt mark s' (if mark i then some s' else acc) rest

variable {step}

theorem lastAt_concat {mark : ι → Bool} (hrun : run step s past = .ok mid)
    (hstep : step mid i = .ok s') (acc : Option σ) :
    lastAt step mark s acc (past ++ [i]) =
      if mark i then some s' else lastAt step mark s acc past := by
  induction past generalizing s acc with
  | nil =>
    cases hrun
    simp [lastAt, hstep]
  | cons j past ih =>
    obtain ⟨next, hnext, hrest⟩ := Except.bind_eq_ok.mp (by simpa using hrun)
    simp only [List.cons_append, lastAt, hnext]
    exact ih hrest _

def meets (step : σ → ι → Except ε σ) (cond : σ → ι → Bool) : σ → List ι → Bool
  | _, [] => true
  | s, i :: rest =>
    cond s i && match step s i with
      | .error _ => true
      | .ok s' => meets step cond s' rest

theorem meets_and {cond' : σ → ι → Bool} :
    meets step (fun s i => cond s i && cond' s i) s inputs =
      (meets step cond s inputs && meets step cond' s inputs) := by
  induction inputs generalizing s with
  | nil => rfl
  | cons i rest ih =>
    simp only [meets]
    cases hnext : step s i with
    | error e => simp
    | ok s' =>
      simp only [ih]
      cases cond s i <;> cases cond' s i <;> simp

theorem meets_append (hrun : run step s past = .ok mid) :
    meets step cond s (past ++ inputs) = (meets step cond s past && meets step cond mid inputs) := by
  induction past generalizing s with
  | nil =>
    cases hrun
    rfl
  | cons j past ih =>
    obtain ⟨next, hnext, hrest⟩ := Except.bind_eq_ok.mp (by simpa using hrun)
    simp only [List.cons_append, meets, hnext, ih hrest, Bool.and_assoc]

theorem meets_concat (hrun : run step s past = .ok mid) :
    meets step cond s (past ++ [i]) = (meets step cond s past && cond mid i) := by
  rw [meets_append hrun]
  cases hstep : step mid i <;> simp [meets, hstep]

theorem exists_step_of_run_eq_error {e : ε} (h : run step s inputs = .error e) :
    ∃ mid i, i ∈ inputs ∧ step mid i = .error e := by
  induction inputs generalizing s with
  | nil => cases h
  | cons i rest ih =>
    rw [run_cons, Except.bind_eq_error] at h
    rcases h with hstep | ⟨mid, -, hrest⟩
    · exact ⟨s, i, List.mem_cons_self .., hstep⟩
    · obtain ⟨mid', j, hj, hstep⟩ := ih hrest
      exact ⟨mid', j, List.mem_cons_of_mem _ hj, hstep⟩

theorem invariant (hinit : I [] s)
    (hstep : ∀ past mid i s', run step s past = .ok mid → I past mid → step mid i = .ok s' →
      I (past ++ [i]) s') : ∀ {inputs s'}, run step s inputs = .ok s' → I inputs s' := by
  intro inputs
  induction inputs using List.reverseRecOn with
  | nil =>
    intro s' hrun
    cases hrun
    exact hinit
  | append_singleton past i ih =>
    intro s' hrun
    obtain ⟨mid, hmid, hlast⟩ := (run_concat_eq_ok step).mp hrun
    exact hstep past mid i s' hmid (ih hmid) hlast

theorem invariant_of_meets (hinit : I [] s)
    (hstep : ∀ past mid i s', run step s past = .ok mid → I past mid → cond mid i = true →
      step mid i = .ok s' → I (past ++ [i]) s') (hmeets : meets step cond s inputs = true)
    (hrun : run step s inputs = .ok s') : I inputs s' := by
  refine invariant (I := fun past mid => meets step cond s past = true → I past mid)
    (fun _ => hinit) ?_ hrun hmeets
  intro past mid i s' hmid hinv hlast hmeets
  rw [meets_concat hmid, Bool.and_eq_true] at hmeets
  exact hstep past mid i s' hmid (hinv hmeets.1) hmeets.2 hlast

theorem forall_reached_iff_meets {I P : σ → Prop}
    (hinv : ∀ mid i next, i ∈ inputs → I mid → step mid i = .ok next → I next)
    (hiff : ∀ mid i next, i ∈ inputs → I mid → P mid → step mid i = .ok next →
      (P next ↔ cond mid i = true)) (hI : I s) (hP : P s) (hrun : run step s inputs = .ok s') :
    (∀ past mid, past <+: inputs → run step s past = .ok mid → P mid) ↔
      meets step cond s inputs = true := by
  induction inputs generalizing s with
  | nil =>
    simp only [List.prefix_nil, meets, iff_true]
    rintro past mid rfl hmid
    cases hmid
    exact hP
  | cons i rest ih =>
    obtain ⟨next, hnext, hrest⟩ := Except.bind_eq_ok.mp (by simpa using hrun)
    have hhead := hiff s i next (List.mem_cons_self ..) hI hP hnext
    have hnextI := hinv s i next (List.mem_cons_self ..) hI hnext
    have htail := fun hPnext => ih
      (fun mid j next hj => hinv mid j next (List.mem_cons_of_mem _ hj))
      (fun mid j next hj => hiff mid j next (List.mem_cons_of_mem _ hj)) hnextI hPnext hrest
    simp only [meets, hnext, Bool.and_eq_true]
    constructor
    · intro h
      have hPnext : P next := h [i] next (by simp) (by simp [hnext])
      refine ⟨hhead.mp hPnext, (htail hPnext).mp fun past mid hpast hmid => ?_⟩
      exact h (i :: past) mid (List.cons_prefix_cons.mpr ⟨rfl, hpast⟩) (by simp [hnext, hmid])
    · rintro ⟨hcond, hmeets⟩ past mid hpast hmid
      cases past with
      | nil =>
        cases hmid
        exact hP
      | cons j past =>
        obtain ⟨rfl, hbehind⟩ := List.cons_prefix_cons.mp hpast
        exact (htail (hhead.mpr hcond)).mpr hmeets past mid hbehind
          (by simpa [hnext] using hmid)

end Run
