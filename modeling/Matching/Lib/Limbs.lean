import Mathlib.Data.Nat.Digits.Lemmas
import Mathlib.Tactic.Ring

/-! Natural numbers of a fixed number of machine words, the lowest first, and loops over their bits
    from the highest on. -/

namespace Matching

variable {W l : ℕ}

/-- `l` limbs of `W` bits. -/
abbrev Limbs (W l : ℕ) := Vector (BitVec W) l

/-- The number of a list of limbs. -/
def limbsValue (v : List (BitVec W)) : ℕ := Nat.ofDigits (2 ^ W) (v.map BitVec.toNat)

@[simp] theorem limbsValue_nil : limbsValue ([] : List (BitVec W)) = 0 := rfl

@[simp] theorem limbsValue_cons (w : BitVec W) (v : List (BitVec W)) :
    limbsValue (w :: v) = w.toNat + 2 ^ W * limbsValue v := by
  simp [limbsValue, Nat.ofDigits_cons]

theorem limbsValue_lt (v : List (BitVec W)) : limbsValue v < 2 ^ (W * v.length) := by
  induction v with
  | nil => simp
  | cons w v ih =>
    have hw := w.isLt
    rw [limbsValue_cons, List.length_cons, Nat.mul_succ, Nat.add_comm (W * v.length), Nat.pow_add]
    calc w.toNat + 2 ^ W * limbsValue v < 2 ^ W * (limbsValue v + 1) := by rw [Nat.mul_succ]; omega
      _ ≤ 2 ^ W * 2 ^ (W * v.length) := Nat.mul_le_mul_left _ ih

theorem limbsValue_replicate_zero (l : ℕ) : limbsValue (List.replicate l (0 : BitVec W)) = 0 := by
  induction l with
  | zero => rfl
  | succ l ih => rw [List.replicate_succ, limbsValue_cons, ih]; rfl

theorem limbsValue_set : ∀ {v : List (BitVec W)} {i : ℕ} (hi : i < v.length) (w : BitVec W),
    limbsValue (v.set i w) + 2 ^ (W * i) * v[i].toNat = limbsValue v + 2 ^ (W * i) * w.toNat
  | a :: v, 0, _, w => by
    simp only [List.set_cons_zero, limbsValue_cons, List.getElem_cons_zero,
      Nat.mul_zero, Nat.pow_zero]
    omega
  | a :: v, i + 1, hi, w => by
    have hv : i < v.length := Nat.lt_of_succ_lt_succ hi
    have h := limbsValue_set hv w
    simp only [List.set_cons_succ, limbsValue_cons, List.getElem_cons_succ]
    calc a.toNat + 2 ^ W * limbsValue (v.set i w) + 2 ^ (W * (i + 1)) * v[i].toNat
        = a.toNat + 2 ^ W * (limbsValue (v.set i w) + 2 ^ (W * i) * v[i].toNat) := by ring
      _ = a.toNat + 2 ^ W * limbsValue v + 2 ^ (W * (i + 1)) * w.toNat := by rw [h]; ring

namespace Limbs

def value (v : Limbs W l) : ℕ := limbsValue v.toList

theorem value_lt (v : Limbs W l) : v.value < 2 ^ (W * l) := by
  have h := limbsValue_lt v.toList
  rwa [Vector.length_toList] at h

def zero (W l : ℕ) : Limbs W l := Vector.replicate l 0

@[simp] theorem value_zero : (zero W l).value = 0 := limbsValue_replicate_zero l

/-- The limbs of a number, with what does not fit left out. -/
def ofValue (W l n : ℕ) : Limbs W l := Vector.ofFn fun i => BitVec.ofNat W (n / 2 ^ (W * i.val))

theorem value_ofValue (W l n : ℕ) : (ofValue W l n).value = n % 2 ^ (W * l) := by
  rw [value, ofValue, Vector.toList_ofFn]
  induction l generalizing n with
  | zero => simp [Nat.mod_one]
  | succ l ih =>
    have hshift (i : Fin l) : n / 2 ^ (W * (i.succ : ℕ)) = n / 2 ^ W / 2 ^ (W * i.val) := by
      rw [Nat.div_div_eq_div_mul, ← Nat.pow_add, Fin.val_succ, Nat.mul_succ, Nat.add_comm W]
    rw [List.ofFn_succ, limbsValue_cons]
    simp only [hshift]
    rw [ih (n / 2 ^ W), Nat.mul_succ, Nat.add_comm (W * l), Nat.pow_add, Nat.mod_mul,
      BitVec.toNat_ofNat]
    simp

theorem value_ofValue_of_lt {n : ℕ} (h : n < 2 ^ (W * l)) : (ofValue W l n).value = n := by
  rw [value_ofValue, Nat.mod_eq_of_lt h]

/-- The lowest limb, and the others. -/
theorem value_low (v : Limbs W l) (hl : 0 < l) : v.value = v[0].toNat + 2 ^ W * value v.tail := by
  obtain ⟨⟨ws⟩, hws⟩ := v
  cases ws with
  | nil => exact absurd hws (by simpa using hl.ne)
  | cons w ws =>
    subst hws
    simp [value, Vector.toList]

/-- The limb that `setIfInBounds` replaces. -/
theorem value_set (v : Limbs W l) {i : ℕ} (hi : i < l) (w : BitVec W) :
    value (v.setIfInBounds i w) + 2 ^ (W * i) * v[i].toNat = v.value + 2 ^ (W * i) * w.toNat := by
  have h := limbsValue_set (v := v.toList) (by simpa using hi) w
  rwa [Vector.getElem_toList, ← Vector.toList_setIfInBounds] at h

end Limbs

/-! ### Loops over bits -/

variable {σ : Type}

/-- `j` turns of a loop that takes the highest bit off a word. -/
def wordLoop (f : σ → Bool → σ) : ℕ → BitVec W → σ → σ
  | 0, _, s => s
  | j + 1, w, s => wordLoop f j (w <<< 1) (f s w.msb)

/-- The loop over all bits, limb by limb. -/
def bitLoop (f : σ → Bool → σ) (n : Limbs W l) (s : σ) : σ :=
  n.toList.foldr (fun w s => wordLoop f W w s) s

section

variable {f : σ → Bool → σ} {P : ℕ → σ → Prop}

theorem msb_toNat {k : ℕ} (w : BitVec (k + 1)) : w.msb.toNat = w.toNat / 2 ^ k := by
  have hw := w.isLt
  rw [Nat.pow_succ] at hw
  rw [BitVec.msb_eq_decide, Nat.add_sub_cancel]
  by_cases h : 2 ^ k ≤ w.toNat
  · rw [decide_eq_true h, Nat.div_eq_of_lt_le (k := 1) (by omega) (by omega)]
    rfl
  · rw [decide_eq_false h, Nat.div_eq_of_lt (by omega)]
    rfl

/-- A bit moves from the word to the number in front of it. -/
theorem msb_shiftLeft {j : ℕ} (hj : j < W) (w : BitVec W) (m : ℕ) :
    (2 * m + w.msb.toNat) * 2 ^ j + (w <<< 1).toNat / 2 ^ (W - j) = m * 2 ^ (j + 1) + w.toNat / 2 ^
      (W - (j + 1)) := by
  obtain ⟨k, rfl⟩ : ∃ k, W = k + j + 1 := ⟨W - (j + 1), by omega⟩
  have hk : k + j + 1 - j = k + 1 := by omega
  have hk' : k + j + 1 - (j + 1) = k := by omega
  rw [hk, hk', msb_toNat, BitVec.toNat_shiftLeft, Nat.shiftLeft_eq, Nat.pow_one, Nat.pow_succ,
    Nat.mul_mod_mul_right, Nat.pow_succ 2 k, Nat.mul_div_mul_right _ _ (by decide)]
  have hsplit := Nat.div_add_mod w.toNat (2 ^ (k + j))
  rw [Nat.pow_add] at hsplit ⊢
  conv_rhs => rw [← hsplit, Nat.mul_assoc, Nat.mul_add_div (Nat.two_pow_pos k)]
  ring

theorem wordLoop_induct (hstep : ∀ m s b, P m s → P (2 * m + b.toNat) (f s b)) :
    ∀ {j : ℕ} {w : BitVec W} {m : ℕ} {s : σ},
    j ≤ W → P m s → P (m * 2 ^ j + w.toNat / 2 ^ (W - j)) (wordLoop f j w s)
  | 0, w, m, s, _, h => by
    rw [Nat.pow_zero, Nat.mul_one, Nat.sub_zero, Nat.div_eq_of_lt w.isLt]
    exact h
  | j + 1, w, m, s, hj, h => by
    rw [← msb_shiftLeft hj]
    exact wordLoop_induct hstep (Nat.le_of_succ_le hj) (hstep m s w.msb h)

/-- What holds of zero, and of a longer number when it holds of the one without its last bit, holds
    of the whole number after the loop. -/
theorem bitLoop_induct (hstep : ∀ m s b, P m s → P (2 * m + b.toNat) (f s b)) (n : Limbs W l)
    {s : σ} (h : P 0 s) :
    P n.value (bitLoop f n s) := by
  rw [bitLoop, Limbs.value]
  induction n.toList with
  | nil => exact h
  | cons w v ih =>
    have hloop := wordLoop_induct hstep (w := w) le_rfl ih
    rw [Nat.sub_self, Nat.pow_zero, Nat.div_one, Nat.mul_comm, Nat.add_comm] at hloop
    rw [limbsValue_cons]
    exact hloop

end

section

variable {τ : Type} {f : σ → Bool → σ} {f' : τ → Bool → τ} {R : σ → τ → Prop}

theorem wordLoop_rel (h : ∀ s t b, R s t → R (f s b) (f' t b)) :
    ∀ (j : ℕ) (w : BitVec W) {s : σ} {t : τ}, R s t →
    R (wordLoop f j w s) (wordLoop f' j w t)
  | 0, _, _, _, hst => hst
  | j + 1, w, _, _, hst => wordLoop_rel h j (w <<< 1) (h _ _ w.msb hst)

/-- Two loops whose turns keep a relation end in it. -/
theorem bitLoop_rel (h : ∀ s t b, R s t → R (f s b) (f' t b)) (n : Limbs W l) {s : σ} {t : τ}
    (hst : R s t) :
    R (bitLoop f n s) (bitLoop f' n t) := by
  rw [bitLoop, bitLoop]
  induction n.toList with
  | nil => exact hst
  | cons w v ih => exact wordLoop_rel h W w ih

end

end Matching
