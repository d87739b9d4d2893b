import Mathlib

/-!
# Ordered fallback

A chain of attempts over a state: each one either answers or declines, and a
declined attempt hands the state it left to the next.  The chain ends with a
fallback that always answers.
-/

namespace CloverVM.Machine.Fallback

variable {σ ρ : Type}

/-- What one attempt does. -/
inductive Attempt (σ ρ : Type) where
  | declined (s : σ)
  | answered (r : ρ) (s : σ)

/-- The first answer of a chain of attempts. -/
def firstAnswer (fallback : σ → ρ × σ) : List (σ → Attempt σ ρ) → σ → ρ × σ
  | [], s => fallback s
  | attempt :: rest, s =>
      match attempt s with
      | .answered r s' => (r, s')
      | .declined s' => firstAnswer fallback rest s'

@[simp] theorem firstAnswer_nil (fallback : σ → ρ × σ) (s : σ) :
    firstAnswer fallback [] s = fallback s := rfl

theorem firstAnswer_cons_declined {fallback : σ → ρ × σ}
    {attempt : σ → Attempt σ ρ} {s s' : σ} (h : attempt s = .declined s')
    (rest : List (σ → Attempt σ ρ)) :
    firstAnswer fallback (attempt :: rest) s = firstAnswer fallback rest s' := by
  rw [firstAnswer, h]

theorem firstAnswer_cons_answered {fallback : σ → ρ × σ}
    {attempt : σ → Attempt σ ρ} {s s' : σ} {r : ρ}
    (h : attempt s = .answered r s') (rest : List (σ → Attempt σ ρ)) :
    firstAnswer fallback (attempt :: rest) s = (r, s') := by
  rw [firstAnswer, h]

/-- An attempt that declines at once in every state the one before it leaves
can be dropped. -/
theorem firstAnswer_cons_idle {fallback : σ → ρ × σ}
    {attempt idle : σ → Attempt σ ρ} {s : σ}
    (h : ∀ s', attempt s = .declined s' → idle s' = .declined s')
    (rest : List (σ → Attempt σ ρ)) :
    firstAnswer fallback (attempt :: idle :: rest) s =
      firstAnswer fallback (attempt :: rest) s := by
  cases hs : attempt s with
  | declined s' =>
      rw [firstAnswer_cons_declined hs, firstAnswer_cons_declined hs,
        firstAnswer_cons_declined (h s' hs)]
  | answered r s' =>
      rw [firstAnswer_cons_answered hs, firstAnswer_cons_answered hs]

/-- What an attempt leaves behind. -/
def Attempt.state : Attempt σ ρ → σ
  | .declined s => s
  | .answered _ s => s

/-- A fallback that keeps the state leaves behind what two attempts do. -/
theorem firstAnswer_pair_state {fallback : σ → ρ × σ}
    (hFallback : ∀ s, (fallback s).2 = s) (x y : σ → Attempt σ ρ) (s : σ) :
    (firstAnswer fallback [x, y] s).2 = (x s).state ∨
      (firstAnswer fallback [x, y] s).2 = (y (x s).state).state := by
  cases hx : x s with
  | answered r s' =>
      rw [firstAnswer_cons_answered hx]
      exact Or.inl rfl
  | declined s' =>
      rw [firstAnswer_cons_declined hx]
      right
      cases hy : y s' with
      | answered r s'' =>
          rw [firstAnswer_cons_answered hy]
          simp only [Attempt.state, hy]
      | declined s'' =>
          rw [firstAnswer_cons_declined hy, firstAnswer_nil, hFallback]
          simp only [Attempt.state, hy]

section Related

variable {R : σ → σ → Prop}

/-- Two attempts agree up to a relation on states: they answer alike or
decline alike, in related states. -/
def AttemptsAgree (R : σ → σ → Prop) : Attempt σ ρ → Attempt σ ρ → Prop
  | .declined s, .declined t => R s t
  | .answered r s, .answered r' t => r = r' ∧ R s t
  | _, _ => False

/-- Chains of agreeing attempts give the same answer in related states. -/
theorem firstAnswer_agrees {fallback : σ → ρ × σ}
    (hFallback : ∀ s t, R s t →
      (fallback s).1 = (fallback t).1 ∧ R (fallback s).2 (fallback t).2)
    {xs ys : List (σ → Attempt σ ρ)}
    (h : List.Forall₂ (fun x y => ∀ s t, R s t → AttemptsAgree R (x s) (y t))
      xs ys) :
    ∀ s t, R s t →
      (firstAnswer fallback xs s).1 = (firstAnswer fallback ys t).1 ∧
        R (firstAnswer fallback xs s).2 (firstAnswer fallback ys t).2 := by
  induction h with
  | nil => exact hFallback
  | @cons x y xs ys hxy _ ih =>
      intro s t hst
      have hAgree := hxy s t hst
      cases hx : x s with
      | declined s' =>
          cases hy : y t with
          | declined t' =>
              rw [hx, hy] at hAgree
              rw [firstAnswer_cons_declined hx, firstAnswer_cons_declined hy]
              exact ih s' t' hAgree
          | answered r t' =>
              rw [hx, hy] at hAgree
              exact hAgree.elim
      | answered r s' =>
          cases hy : y t with
          | declined t' =>
              rw [hx, hy] at hAgree
              exact hAgree.elim
          | answered r' t' =>
              rw [hx, hy] at hAgree
              rw [firstAnswer_cons_answered hx, firstAnswer_cons_answered hy]
              exact hAgree

end Related

end CloverVM.Machine.Fallback
