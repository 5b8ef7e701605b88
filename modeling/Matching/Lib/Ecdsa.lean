import Mathlib.Algebra.Module.Basic
import Mathlib.Data.Nat.ModEq
import Mathlib.Data.Nat.Prime.Basic
import Mathlib.Data.Int.GCD
import Mathlib.Tactic.Ring

/-! The digital signature algorithm over any group: what a signature is, what is accepted as one,
    and that what is signed is accepted. `n` is the prime order of the base point, and `f` the
    number of an element, if it has one. -/

namespace Matching.Ecdsa

variable {G : Type} [AddCommGroup G] {n : ℕ} {B Q : G} {f : G → Option ℕ} {d z r s : ℕ}

/-- Both numbers of a signature are reduced, and not zero. -/
structure Range (n r s : ℕ) : Prop where
  r_pos : 0 < r
  r_lt : r < n
  s_pos : 0 < s
  s_lt : s < n

/-- A signature of `z` under the private key `d`, from some number `k`. -/
def Signs (n : ℕ) (B : G) (f : G → Option ℕ) (d z r s : ℕ) : Prop :=
  Range n r s ∧ ∃ k, f (k • B) = some r ∧ k * s ≡ z + r * d [MOD n]

/-- What is accepted as a signature of `z` under the public key `Q`. -/
def Accepts (n : ℕ) (B : G) (f : G → Option ℕ) (Q : G) (z r s : ℕ) : Prop :=
  Range n r s ∧ ∃ w, w * s ≡ 1 [MOD n] ∧ f ((z * w) • B + (r * w) • Q) = some r

/-- Multiples are those of the residues. -/
theorem nsmul_congr {P : G} (hP : n • P = 0) {i j : ℕ} (h : i ≡ j [MOD n]) : i • P = j • P := by
  have hmod : ∀ m : ℕ, m • P = (m % n) • P := fun m => by
    conv_lhs =>
      rw [← Nat.div_add_mod m n, add_nsmul, Nat.mul_comm, mul_nsmul', hP, nsmul_zero, zero_add]
  rw [hmod i, hmod j, h]

/-- Which inverse of `s` is taken makes no difference. -/
theorem accepts_iff (hB : n • B = 0) (hQ : n • Q = 0) {w : ℕ} (hw : w * s ≡ 1 [MOD n]) :
    Accepts n B f Q z r s ↔ Range n r s ∧ f ((z * w) • B + (r * w) • Q) = some r := by
  refine and_congr_right fun _ => ⟨?_, fun h => ⟨w, hw, h⟩⟩
  rintro ⟨v, hv, h⟩
  have hvw : v ≡ w [MOD n] := calc
    v ≡ v * (w * s) [MOD n] := by simpa using hw.symm.mul_left v
    _ = w * (v * s) := by ring
    _ ≡ w [MOD n] := by simpa using hv.mul_left w
  rwa [nsmul_congr hB (hvw.mul_left z), nsmul_congr hQ (hvw.mul_left r)] at h

/-- A reduced number that is not zero has an inverse. -/
theorem exists_inverse (hn : n.Prime) (hpos : 0 < s) (hlt : s < n) : ∃ w, w * s ≡ 1 [MOD n] := by
  have hcoprime : s.Coprime n := (Nat.coprime_of_lt_prime hpos.ne' hlt hn).symm
  obtain ⟨w, -, hw⟩ := Nat.exists_mul_mod_eq_one_of_coprime hcoprime hn.one_lt
  exact ⟨w, by rw [Nat.ModEq, Nat.mul_comm, hw, Nat.mod_eq_of_lt hn.one_lt]⟩

/-- What is signed is accepted. -/
theorem Signs.accepts (hn : n.Prime) (hB : n • B = 0) (h : Signs n B f d z r s) :
    Accepts n B f (d • B) z r s := by
  obtain ⟨hrange, k, hk, heq⟩ := h
  obtain ⟨w, hw⟩ := exists_inverse hn hrange.s_pos hrange.s_lt
  refine ⟨hrange, w, hw, ?_⟩
  have hsum : z * w + r * w * d ≡ k [MOD n] := calc
    z * w + r * w * d = w * (z + r * d) := by ring
    _ ≡ w * (k * s) [MOD n] := heq.symm.mul_left w
    _ = k * (w * s) := by ring
    _ ≡ k [MOD n] := by simpa using hw.mul_left k
  rw [← mul_nsmul', ← add_nsmul, nsmul_congr hB hsum, hk]

/-- If an element and its opposite have one number, a signature is accepted with the
    opposite of `s` as well. -/
theorem accepts_mirror (hB : n • B = 0) (hQ : n • Q = 0) (hf : ∀ P, f (-P) = f P)
    (h : Accepts n B f Q z r s) :
    Accepts n B f Q z r (n - s) := by
  obtain ⟨⟨hr, hrn, hs, hsn⟩, w, hw, hx⟩ := h
  obtain ⟨m, rfl⟩ : ∃ m, n = m + 1 := ⟨n - 1, by omega⟩
  have hneg : ∀ {P : G}, (m + 1) • P = 0 → ∀ i : ℕ, (m * i) • P = -(i • P) := fun hP i => by
    refine eq_neg_of_add_eq_zero_left ?_
    rw [← add_nsmul, ← Nat.succ_mul, mul_nsmul, hP, nsmul_zero]
  refine ⟨⟨hr, hrn, by omega, by omega⟩, m * w, ?_, ?_⟩
  · have hleft : m * w * (m + 1 - s) + m * w * s = (m + 1) * (m * w) := by
      rw [← Nat.mul_add, Nat.sub_add_cancel hsn.le, Nat.mul_comm]
    have hright : w * s + m * w * s = (m + 1) * (w * s) := by ring
    refine Nat.ModEq.trans (Nat.ModEq.add_right_cancel' (m * w * s) ?_) hw
    rw [hleft, hright, Nat.ModEq, Nat.mul_mod_right, Nat.mul_mod_right]
  · rw [Nat.mul_left_comm, hneg hB, Nat.mul_left_comm, hneg hQ, ← neg_add, hf, hx]

end Matching.Ecdsa
