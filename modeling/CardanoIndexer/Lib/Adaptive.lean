import Mathlib.Data.List.Basic
import Mathlib.Tactic

/-!
# Loops over pages of adaptive size

A page that is too large to be answered is asked for again at half the size.
-/

namespace Adaptive

variable {σ α ε : Type} {contents : List α} {attempt fuel : ℕ} {state : σ} {error : ε}

inductive Answer (ε : Type) where
  | page
  | tooLarge
  | retry
  | failed (error : ε)

structure Answers (α ε : Type) where
  answer : ℕ → ℕ → List α → Answer ε
  nothing_fits : ∀ n page, answer n 0 page ≠ .tooLarge

inductive Response where
  | page
  | tooLarge
  | error

def Response.read (error : ε) : Response → Answer ε
  | .page => .page
  | .tooLarge => .tooLarge
  | .error => .failed error

variable {response : Response}

theorem Response.eq_of_read_tooLarge (h : response.read error = .tooLarge) :
    response = .tooLarge := by
  cases response with
  | tooLarge => rfl
  | page => cases h
  | error => cases h

theorem Response.read_ne_retry (error : ε) (response : Response) :
    response.read error ≠ .retry := by
  cases response <;> simp [Response.read]

theorem Response.eq_of_read_failed {error' : ε} (h : response.read error = .failed error') :
    response = .error ∧ error' = error := by
  cases response with
  | tooLarge => cases h
  | page => cases h
  | error =>
    cases h
    exact ⟨rfl, rfl⟩

structure Responses (α : Type) where
  respond : ℕ → ℕ → List α → Response
  nothing_fits : ∀ n page, respond n 0 page ≠ .tooLarge

def Responses.answers (responses : Responses α) (read : ℕ → Response → Answer ε)
    (hread : ∀ n response, read n response = .tooLarge → response = .tooLarge) :
    Answers α ε where
  answer n size page := read n (responses.respond n size page)
  nothing_fits n page h := responses.nothing_fits n page (hread n _ h)

inductive Verdict (σ ε : Type) where
  | stop (state : σ)
  | go (state : σ)
  | fail (error : ε)

structure Loop (σ α ε : Type) where
  fetch : σ → ℕ → List α
  onPage : ℕ → List α → σ → Verdict σ ε

def Loop.run (loop : Loop σ α ε) (answers : Answers α ε) :
    ℕ → ℕ → ℕ → σ → Option (Except ε σ)
  | 0, _, _, _ => none
  | fuel + 1, attempt, size, state =>
    match answers.answer attempt size (loop.fetch state size) with
    | .tooLarge => run loop answers fuel (attempt + 1) (size / 2) state
    | .retry => run loop answers fuel (attempt + 1) size state
    | .failed error => some (.error error)
    | .page => match loop.onPage size (loop.fetch state size) state with
        | .stop state' => some (.ok state')
        | .go state' => run loop answers fuel (attempt + 1) size state'
        | .fail error => some (.error error)

def Loop.last (loop : Loop σ α ε) (answers : Answers α ε) : ℕ → ℕ → ℕ → σ → σ
  | 0, _, _, state => state
  | fuel + 1, attempt, size, state =>
    match answers.answer attempt size (loop.fetch state size) with
    | .tooLarge => last loop answers fuel (attempt + 1) (size / 2) state
    | .retry => last loop answers fuel (attempt + 1) size state
    | .failed _ => state
    | .page => match loop.onPage size (loop.fetch state size) state with
        | .stop state' => state'
        | .go state' => last loop answers fuel (attempt + 1) size state'
        | .fail _ => state

def Responses.OneFits (responses : Responses α) : Prop :=
  ∀ n page, responses.respond n 1 page ≠ .tooLarge

namespace Answers

def OneFits (answers : Answers α ε) : Prop := ∀ n page, answers.answer n 1 page ≠ .tooLarge

def Reports (answers : Answers α ε) (error : ε) : Prop :=
  ∃ n size page, answers.answer n size page = .failed error

theorem two_le_of_tooLarge {answers : Answers α ε} (h : answers.OneFits) {n size : ℕ}
    {page : List α} (hanswer : answers.answer n size page = .tooLarge) : 2 ≤ size := by
  match size with
  | 0 => exact absurd hanswer (answers.nothing_fits n page)
  | 1 => exact absurd hanswer (h n page)
  | size + 2 => omega

end Answers

theorem Responses.OneFits.answers {responses : Responses α} (h : responses.OneFits)
    {read : ℕ → Response → Answer ε}
    (hread : ∀ n response, read n response = .tooLarge → response = .tooLarge) :
    (responses.answers read hread).OneFits :=
  fun n page htoo => h n page (hread n _ htoo)

theorem eq_nil_of_getLast?_take {size : ℕ} (hsize : 0 < size)
    (h : (contents.take size).getLast? = none) : contents = [] := by
  have hnil : contents.take size = [] := by simpa using h
  exact (List.take_eq_nil_iff.mp hnil).resolve_left (by omega)

theorem exists_split_of_getLast?_take {size : ℕ} {last : α}
    (h : (contents.take size).getLast? = some last) :
    ∃ first, contents = first ++ last :: contents.drop size := by
  obtain ⟨first, hpage⟩ := List.getLast?_eq_some_iff.mp h
  refine ⟨first, ?_⟩
  conv_lhs => rw [← List.take_append_drop size contents, hpage]
  simp

theorem drop_eq_nil_of_length_take_lt {size : ℕ} (h : (contents.take size).length < size) :
    contents.drop size = [] := by
  rw [List.length_take] at h
  exact List.drop_eq_nil_of_le (by omega)

/-- A page of the list `contents` is handled as it should be: the loop stops as described, or
goes on behind a page that was not empty. -/
def Verdict.Meets (contents : σ → List α) (I Q : σ → Prop) (size : ℕ) (state : σ) :
    Verdict σ ε → Prop
  | .stop state' => Q state'
  | .go state' => I state' ∧ contents state ≠ [] ∧ contents state' = (contents state).drop size
  | .fail _ => False

def Answers.Ends (answers : Answers α ε) (Q : σ → Prop) : Option (Except ε σ) → Prop
  | some (.ok state) => Q state
  | some (.error error) => answers.Reports error
  | none => False

variable {loop : Loop σ α ε}

theorem Loop.run_rule {answers : Answers α ε} (contents : σ → List α) (I : σ → Prop) {Q : σ → Prop}
    (hfetch : ∀ s size, I s → loop.fetch s size = (contents s).take size)
    (hpage : ∀ s size, 0 < size → I s →
      (loop.onPage size ((contents s).take size) s).Meets contents I Q size s)
    (hone : answers.OneFits) (last : ℕ)
    (hretry : ∀ n size page, last ≤ n → answers.answer n size page ≠ .retry) (hstate : I state)
    {size : ℕ} (hsize : 0 < size)
    (hfuel : (last - attempt) + (contents state).length + size < fuel) :
    answers.Ends Q (loop.run answers fuel attempt size state) := by
  induction fuel generalizing attempt size state with
  | zero => omega
  | succ fuel ih =>
    unfold Loop.run
    cases hanswer : answers.answer attempt size (loop.fetch state size) with
    | tooLarge =>
      have htwo := Answers.two_le_of_tooLarge hone hanswer
      exact ih hstate (by omega) (by omega)
    | retry =>
      have hlast : attempt < last := by
        by_contra hge
        exact hretry attempt size _ (by omega) hanswer
      exact ih hstate hsize (by omega)
    | failed error => exact ⟨attempt, size, _, hanswer⟩
    | page =>
      have hmeets := hpage state size hsize hstate
      rw [← hfetch state size hstate] at hmeets
      cases hverdict : loop.onPage size (loop.fetch state size) state with
      | stop state' =>
        rw [hverdict] at hmeets
        exact hmeets
      | go state' =>
        rw [hverdict] at hmeets
        obtain ⟨hstate', hne, hdrop⟩ := hmeets
        have hpos := List.length_pos_of_ne_nil hne
        refine ih hstate' hsize ?_
        rw [hdrop, List.length_drop]
        omega
      | fail error =>
        rw [hverdict] at hmeets
        exact hmeets.elim

theorem Loop.last_of_run {answers : Answers α ε} {size : ℕ} {state' : σ}
    (h : loop.run answers fuel attempt size state = some (.ok state')) :
    loop.last answers fuel attempt size state = state' := by
  induction fuel generalizing attempt size state with
  | zero => cases h
  | succ fuel ih =>
    unfold Loop.run at h
    unfold Loop.last
    cases hanswer : answers.answer attempt size (loop.fetch state size) with
    | tooLarge =>
      rw [hanswer] at h
      exact ih h
    | retry =>
      rw [hanswer] at h
      exact ih h
    | failed error =>
      rw [hanswer] at h
      cases h
    | page =>
      rw [hanswer] at h
      cases hverdict : loop.onPage size (loop.fetch state size) state with
      | stop state' =>
        simp only [hverdict] at h
        cases h
        rfl
      | go state' =>
        simp only [hverdict] at h
        exact ih h
      | fail error =>
        simp only [hverdict] at h
        cases h

theorem Loop.last_rule {answers : Answers α ε} (I : σ → Prop)
    (hpage : ∀ s s' size, I s → loop.onPage size (loop.fetch s size) s = .stop s' ∨
      loop.onPage size (loop.fetch s size) s = .go s' → I s') {size : ℕ} (hstate : I state) :
    I (loop.last answers fuel attempt size state) := by
  induction fuel generalizing attempt size state with
  | zero => exact hstate
  | succ fuel ih =>
    unfold Loop.last
    cases answers.answer attempt size (loop.fetch state size) with
    | tooLarge => exact ih hstate
    | retry => exact ih hstate
    | failed error => exact hstate
    | page =>
      cases hverdict : loop.onPage size (loop.fetch state size) state with
      | stop state' => exact hpage state state' size hstate (Or.inl hverdict)
      | go state' => exact ih (hpage state state' size hstate (Or.inr hverdict))
      | fail error => exact hstate

end Adaptive
