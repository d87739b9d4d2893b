import Mathlib.Data.Int.ModEq
import Mathlib.Tactic.Ring
import Mathlib.Tactic.Linarith

/-!
# Modular inverses by the extended Euclidean algorithm

The algorithm on a modulus and a number, with one coefficient for each
residue: a residue is its coefficient times the number, modulo the modulus.
The coefficients are kept reduced, so that they are never greater than the
modulus.
-/

namespace CloverVM.Machine.ModularInverse

/-- Two residues in a row and their coefficients. -/
structure Euclid where
  oldR : Nat
  r : Nat
  oldT : Int
  t : Int

/-- The residues at the start: the modulus and the number reduced. -/
def Euclid.start (m : Nat) (b : Int) : Euclid := ⟨m, (b % m).toNat, 0, 1⟩

/-- A round: the next residue is the remainder of the two. -/
def Euclid.next (m : Nat) (s : Euclid) : Euclid :=
  ⟨s.r, s.oldR % s.r, s.t, (s.oldT - (s.oldR / s.r : Nat) * s.t) % m⟩

structure Invariant (m : Nat) (b : Int) (s : Euclid) : Prop where
  gcd : Nat.gcd s.oldR s.r = Int.gcd b m
  old_modEq : (s.oldR : Int) ≡ s.oldT * b [ZMOD m]
  modEq : (s.r : Int) ≡ s.t * b [ZMOD m]
  oldR_le : s.oldR ≤ m
  r_le : s.r ≤ m
  oldT_range : 0 ≤ s.oldT ∧ s.oldT < m
  t_range : 0 ≤ s.t ∧ s.t < m

variable {m : Nat} {b : Int} {s : Euclid}

theorem invariant_start (hm : 1 < m) : Invariant m b (Euclid.start m b) := by
  have hPos : (0 : Int) < m := by omega
  have hLow := Int.emod_nonneg b hPos.ne'
  have hHigh := Int.emod_lt_of_pos b hPos
  have hReduced : ((b % m).toNat : Int) = b % m := Int.toNat_of_nonneg hLow
  refine ⟨?_, ?_, ?_, le_refl m, ?_, ⟨le_refl _, hPos⟩,
    ⟨Int.zero_le_ofNat 1, ?_⟩⟩
  · have hGcd : Int.gcd (m : Int) (b % m) = Int.gcd b m := by
      rw [Int.gcd_comm, Int.gcd_emod]
    rw [← hReduced] at hGcd
    exact hGcd
  · change (m : Int) ≡ 0 * b [ZMOD m]
    rw [Int.zero_mul]
    exact Int.modEq_zero_iff_dvd.mpr dvd_rfl
  · change (((b % m).toNat : Nat) : Int) ≡ 1 * b [ZMOD m]
    rw [hReduced, one_mul]
    exact Int.mod_modEq b m
  · change (b % m).toNat ≤ m
    omega
  · change (1 : Int) < m
    omega

theorem Invariant.next (h : Invariant m b s) (hm : 1 < m) (hr : 0 < s.r) :
    Invariant m b (s.next m) ∧ (s.next m).r < s.r := by
  have hPos : (0 : Int) < m := by omega
  have hLess : s.oldR % s.r < s.r := Nat.mod_lt _ hr
  have hRemainder : ((s.oldR % s.r : Nat) : Int) =
      s.oldR - (s.oldR / s.r : Nat) * s.r := by
    have hDivision := Nat.div_add_mod s.oldR s.r
    have hCast : (((s.r * (s.oldR / s.r) + s.oldR % s.r : Nat)) : Int) =
        s.oldR := by rw [hDivision]
    push_cast at hCast ⊢
    linarith
  refine ⟨⟨?_, h.modEq, ?_, h.r_le, hLess.le.trans h.r_le, h.t_range, ?_, ?_⟩,
    hLess⟩
  · change Nat.gcd s.r (s.oldR % s.r) = _
    rw [Nat.gcd_comm, ← Nat.gcd_rec, Nat.gcd_comm, h.gcd]
  · change ((s.oldR % s.r : Nat) : Int) ≡
      (s.oldT - (s.oldR / s.r : Nat) * s.t) % m * b [ZMOD m]
    rw [hRemainder]
    have hCombined : (s.oldR : Int) - (s.oldR / s.r : Nat) * s.r ≡
        (s.oldT - (s.oldR / s.r : Nat) * s.t) * b [ZMOD m] := by
      have hScaled := h.old_modEq.sub (h.modEq.mul_left (s.oldR / s.r : Nat))
      have hFactor : s.oldT * b - (s.oldR / s.r : Nat) * (s.t * b) =
          (s.oldT - (s.oldR / s.r : Nat) * s.t) * b := by ring
      rwa [hFactor] at hScaled
    exact hCombined.trans ((Int.mod_modEq _ _).symm.mul_right b)
  · exact Int.emod_nonneg _ hPos.ne'
  · exact Int.emod_lt_of_pos _ hPos

/-- The last residue and its coefficient. -/
theorem Invariant.finish (h : Invariant m b s) (hr : s.r = 0) :
    s.oldR = Int.gcd b m ∧ (Int.gcd b m : Int) ≡ s.oldT * b [ZMOD m] := by
  have hGcd := h.gcd
  rw [hr, Nat.gcd_zero_right] at hGcd
  refine ⟨hGcd, ?_⟩
  rw [← hGcd]
  exact h.old_modEq

end CloverVM.Machine.ModularInverse
