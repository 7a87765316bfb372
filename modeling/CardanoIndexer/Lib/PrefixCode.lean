import Mathlib.Data.List.Basic

/-!
# Prefix codes

A code word can be split off what follows in one way only, also if the encoding forgets something.
-/

variable {α β γ : Type*}

def IsPrefixCode (enc : α → List γ) : Prop :=
  ∀ ⦃a b : α⦄ ⦃s t : List γ⦄, enc a ++ s = enc b ++ t → enc a = enc b ∧ s = t

namespace IsPrefixCode

variable {enc : α → List γ}

theorem of_length (width : ℕ) (h : ∀ a, (enc a).length = width) : IsPrefixCode enc :=
  fun a b _ _ heq => List.append_inj heq ((h a).trans (h b).symm)

theorem of_take (n : ℕ) (hle : ∀ a, n ≤ (enc a).length)
    (hlength : ∀ a b, (enc a).take n = (enc b).take n → (enc a).length = (enc b).length) :
    IsPrefixCode enc := by
  intro a b s t heq
  refine List.append_inj heq (hlength a b ?_)
  have htake := congrArg (List.take n) heq
  rwa [List.take_append_of_le_length (hle a), List.take_append_of_le_length (hle b)] at htake

theorem append {body : α → List γ} (henc : IsPrefixCode enc) (hbody : IsPrefixCode body) :
    IsPrefixCode fun a => enc a ++ body a := by
  intro a b s t heq
  simp only [List.append_assoc] at heq
  obtain ⟨hheader, hrest⟩ := henc heq
  obtain ⟨hsame, hst⟩ := hbody hrest
  exact ⟨by simp only [hheader, hsame], hst⟩

theorem comp (henc : IsPrefixCode enc) (f : β → α) : IsPrefixCode fun b => enc (f b) :=
  fun _ _ _ _ heq => henc heq

end IsPrefixCode
