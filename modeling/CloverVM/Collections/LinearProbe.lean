import Mathlib.Data.Int.ModEq
import Mathlib.Data.Nat.Bitwise

/-!
# Linear probing on a ring of slots

An open-addressing table is searched from a start position, one position after
the other, on a ring.  This file has the positions of such a walk, the chain
condition under which a walk finds what was placed, and the rule for a search
loop: an invariant that counts the steps, and a bound on them, give the answer
of the loop.  Nothing here knows what the slots hold.
-/

namespace CloverVM.Collections.LinearProbe

section Loop

variable {σ β : Type}

/-- A loop that carries a state until its body answers, cut off after `fuel`
rounds. -/
def loop (body : σ → σ ⊕ β) : Nat → σ → Option β
  | 0, _ => none
  | fuel + 1, s =>
      match body s with
      | .inl s' => loop body fuel s'
      | .inr b => some b

theorem loop_continue {body : σ → σ ⊕ β} {s s' : σ} (fuel : Nat)
    (h : body s = .inl s') : loop body (fuel + 1) s = loop body fuel s' := by
  simp only [loop, h]

theorem loop_answer {body : σ → σ ⊕ β} {s : σ} {b : β} (fuel : Nat)
    (h : body s = .inr b) : loop body (fuel + 1) s = some b := by
  simp only [loop, h]

/-- The rule for a search loop.  `Inv i s` is what holds after `i` rounds; it
is never true from round `bound` on, each round keeps it or answers, and every
answer satisfies `Post`. -/
theorem loop_spec {body : σ → σ ⊕ β} {Inv : Nat → σ → Prop}
    {Post : β → Prop} {bound : Nat} (hbound : ∀ i s, Inv i s → i < bound)
    (hbody : ∀ i s, Inv i s →
      (∃ s', body s = .inl s' ∧ Inv (i + 1) s') ∨
        ∃ b, body s = .inr b ∧ Post b) :
    ∀ (fuel i : Nat) (s : σ), bound ≤ i + fuel → Inv i s →
      ∃ b, loop body fuel s = some b ∧ Post b := by
  intro fuel
  induction fuel with
  | zero =>
      intro i s hfuel hinv
      have := hbound i s hinv
      omega
  | succ fuel ih =>
      intro i s hfuel hinv
      rcases hbody i s hinv with ⟨s', hs', hinv'⟩ | ⟨b, hb, hpost⟩
      · rw [loop_continue fuel hs']
        exact ih (i + 1) s' (by omega) hinv'
      · exact ⟨b, loop_answer fuel hb, hpost⟩

end Loop

/-- The position `i` steps after `start` on a ring of `size` positions. -/
def position (size start i : Nat) : Nat := (start + i) % size

theorem position_lt {size : Nat} (start i : Nat) (h : 0 < size) :
    position size start i < size :=
  Nat.mod_lt _ h

theorem position_zero {size start : Nat} (h : start < size) :
    position size start 0 = start :=
  Nat.mod_eq_of_lt h

theorem position_succ (size start i : Nat) :
    position size start (i + 1) = (position size start i + 1) % size := by
  unfold position
  rw [Nat.mod_add_mod, Nat.add_assoc]

/-- On a table whose size is a power of two the step is a mask. -/
theorem position_succ_mask {size : Nat} (start i : Nat)
    (h : ∃ k, size = 2 ^ k) :
    (position size start i + 1) &&& (size - 1) =
      position size start (i + 1) := by
  obtain ⟨k, rfl⟩ := h
  rw [Nat.and_two_pow_sub_one_eq_mod, position_succ]

/-- A walk of `size` steps meets every position. -/
theorem exists_position {size p : Nat} (start : Nat) (hp : p < size) :
    ∃ i < size, position size start i = p := by
  refine ⟨(p + (size - start % size)) % size, Nat.mod_lt _ (by omega), ?_⟩
  have hstart : start % size < size := Nat.mod_lt _ (by omega)
  unfold position
  rw [Nat.add_mod_mod, ← Nat.mod_add_mod,
    show start % size + (p + (size - start % size)) = p + size by omega,
    Nat.add_mod_right, Nat.mod_eq_of_lt hp]

/-- The walk from `start` comes to `p` over occupied positions only. -/
def Reaches (occupied : Nat → Prop) (size start p : Nat) : Prop :=
  ∃ i < size, position size start i = p ∧
    ∀ j < i, occupied (position size start j)

variable {occupied : Nat → Prop} {size start p : Nat}

theorem Reaches.mono {occupied' : Nat → Prop}
    (h : Reaches occupied size start p)
    (hsub : ∀ q, occupied q → occupied' q) :
    Reaches occupied' size start p := by
  obtain ⟨i, hi, hp, hchain⟩ := h
  exact ⟨i, hi, hp, fun j hj => hsub _ (hchain j hj)⟩

/-- A chain from `start` ends at the latest where the walk from `start` first
meets a free position. -/
theorem Reaches.before_free {i : Nat} (h : Reaches occupied size start p)
    (hfree : ¬ occupied (position size start i)) :
    ∃ j ≤ i, position size start j = p := by
  obtain ⟨j, hj, hp, hchain⟩ := h
  refine ⟨j, ?_, hp⟩
  by_contra hlt
  exact hfree (hchain i (by omega))

/-- After `i` steps from `start` a walk is at `p`, and all positions before
were such that it went on. -/
structure Walked (passed : Nat → Prop) (size start i p : Nat) : Prop where
  place : position size start i = p
  before : ∀ j < i, passed (position size start j)

section Walk

variable {passed : Nat → Prop} {i : Nat}

theorem walked_start (h : start < size) : Walked passed size start 0 start :=
  { place := position_zero h
    before := fun _ hj => absurd hj (Nat.not_lt_zero _) }

theorem Walked.advance (h : Walked passed size start i p)
    (hsize : ∃ k, size = 2 ^ k) (hp : passed p) :
    Walked passed size start (i + 1) ((p + 1) &&& (size - 1)) := by
  refine { place := ?_, before := ?_ }
  · rw [← h.place, position_succ_mask start i hsize]
  · intro j hj
    rcases Nat.lt_succ_iff_lt_or_eq.mp hj with hlt | rfl
    · exact h.before j hlt
    · rw [h.place]
      exact hp

theorem Walked.mono {passed' : Nat → Prop} (h : Walked passed size start i p)
    (hsub : ∀ q, passed q → passed' q) : Walked passed' size start i p :=
  { place := h.place
    before := fun j hj => hsub _ (h.before j hj) }

/-- A walk does not go around when some position stops it. -/
theorem Walked.lt_size (h : Walked passed size start i p)
    (hstop : ∃ q < size, ¬ passed q) : i < size := by
  obtain ⟨q, hq, hnot⟩ := hstop
  obtain ⟨m, hm, rfl⟩ := exists_position start hq
  by_contra hle
  exact hnot (h.before m (by omega))

theorem Walked.reaches (h : Walked passed size start i p) (hi : i < size) :
    Reaches passed size start p :=
  ⟨i, hi, h.place, h.before⟩

/-- What a chain comes to was passed, or is where the walk stands, when the
walk stands at a free position. -/
theorem Walked.passed_of_reaches {q : Nat}
    (h : Walked passed size start i p) (hfree : ¬ occupied p)
    (hq : Reaches occupied size start q) (hne : q ≠ p) : passed q := by
  rw [← h.place] at hfree hne
  obtain ⟨j, hj, rfl⟩ := hq.before_free hfree
  apply h.before
  rcases Nat.lt_or_eq_of_le hj with hlt | rfl
  · exact hlt
  · exact absurd rfl hne

end Walk

end CloverVM.Collections.LinearProbe
