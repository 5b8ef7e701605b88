import Matching.Lib.Memory
import Mathlib.Data.Nat.Size

/-! Numbers behind a length: words whose first byte begins with as many ones as bytes follow it. The
    codes of one length hold the numbers from one start to the next, so that no number has two of
    them; negative numbers are coded in two's complement and moved away from zero. -/

namespace Matching

variable {L L' p p' q : ℕ} {s rest rest' : List UInt8}

/-- The number of bytes a first byte announces: one more than the ones it begins with. -/
def announced (b : UInt8) : ℕ := 9 - Nat.size (255 - b.toNat)

/-- How many words of `L` bytes there are. -/
def room (L : ℕ) : ℕ := 2 ^ (8 - L) * 256 ^ (L - 1)

/-- The word of `L` bytes with payload `p`. -/
def code (L p : ℕ) : List UInt8 := bigEndian L (256 ^ (L - 1) * (256 - 2 ^ (9 - L)) + p)

@[simp] theorem length_code (L p : ℕ) : (code L p).length = L := length_bigEndian _ _

theorem announced_first :
    ∀ L < 10, 1 ≤ L → ∀ q < 2 ^ (8 - L), announced (UInt8.ofNat (256 - 2 ^ (9 - L) + q)) = L := by
  decide

theorem first_announced (b : UInt8) :
    1 ≤ announced b ∧ announced b ≤ 9 ∧ 256 - 2 ^ (9 - announced b) ≤ b.toNat ∧
    b.toNat - (256 - 2 ^ (9 - announced b)) < 2 ^ (8 - announced b) := by
  have hall : ∀ n < 256, 1 ≤ 9 - Nat.size (255 - n) ∧ 9 - Nat.size (255 - n) ≤ 9 ∧
      256 - 2 ^ (9 - (9 - Nat.size (255 - n))) ≤ n ∧
      n - (256 - 2 ^ (9 - (9 - Nat.size (255 - n)))) < 2 ^ (8 - (9 - Nat.size (255 - n))) := by
    decide +kernel
  exact hall b.toNat b.toNat_lt

/-- The payload begins in the first byte. -/
theorem code_eq (hL : 1 ≤ L) (p : ℕ) :
    code L p = UInt8.ofNat (256 - 2 ^ (9 - L) + p / 256 ^ (L - 1)) :: bigEndian (L - 1) p := by
  obtain ⟨k, rfl⟩ : ∃ k, L = k + 1 := ⟨L - 1, by omega⟩
  have hmod : (256 ^ k * (256 - 2 ^ (9 - (k + 1))) + p) % 256 ^ k = p % 256 ^ k :=
    Nat.mul_add_mod _ _ _
  have hdiv :=
    Nat.mul_add_div (show 0 < 256 ^ k from Nat.pow_pos (by decide)) (256 - 2 ^ (9 - (k + 1))) p
  rw [code, bigEndian_succ, Nat.add_sub_cancel, hdiv, ← bigEndian_mod, hmod, bigEndian_mod]

theorem code_split {n : ℕ} (hL : 1 ≤ L) (hn : n < 256 ^ (L - 1)) (q : ℕ) :
    code L (q * 256 ^ (L - 1) + n) = UInt8.ofNat (256 - 2 ^ (9 - L) + q) :: bigEndian
      (L - 1) n := by
  have hdiv : (q * 256 ^ (L - 1) + n) / 256 ^ (L - 1) = q := by
    rw [Nat.mul_comm, Nat.mul_add_div (Nat.pow_pos (by decide)), Nat.div_eq_of_lt hn, Nat.add_zero]
  have hmod : (q * 256 ^ (L - 1) + n) % 256 ^ (L - 1) = n := by
    rw [Nat.mul_comm, Nat.mul_add_mod, Nat.mod_eq_of_lt hn]
  rw [code_eq hL, hdiv, ← bigEndian_mod, hmod]

theorem div_lt_of_lt_room (hp : p < room L) : p / 256 ^ (L - 1) < 2 ^ (8 - L) :=
  Nat.div_lt_of_lt_mul (by rwa [room, Nat.mul_comm] at hp)

theorem announced_head? (hL : 1 ≤ L) (hL9 : L ≤ 9) (hp : p < room L) :
    (code L p).head?.map announced = some L := by
  rw [code_eq hL, List.head?_cons, Option.map_some,
    announced_first L (by omega) hL _ (div_lt_of_lt_room hp)]

/-- Every byte string long enough begins with a word of the length its first byte announces. -/
theorem exists_code (b : UInt8) (h : announced b - 1 ≤ s.length) :
    ∃ p < room (announced b), b :: s = code (announced b) p ++ s.drop (announced b - 1) := by
  obtain ⟨hL, -, hlow, hq⟩ := first_announced b
  generalize announced b = L at hL hlow hq h ⊢
  have hlen : (s.take (L - 1)).length = L - 1 := List.length_take_of_le h
  have hrest : ofBigEndian (s.take (L - 1)) < 256 ^ (L - 1) := by
    rw [← congrArg (256 ^ ·) hlen]
    exact ofBigEndian_lt _
  refine ⟨(b.toNat - (256 - 2 ^ (9 - L))) * 256 ^ (L - 1) + ofBigEndian (s.take (L - 1)), ?_, ?_⟩
  · calc _ < (b.toNat - (256 - 2 ^ (9 - L))) * 256 ^ (L - 1) + 256 ^ (L - 1) := by omega
      _ = (b.toNat - (256 - 2 ^ (9 - L)) + 1) * 256 ^ (L - 1) := by rw [Nat.succ_mul]
      _ ≤ room L := Nat.mul_le_mul_right _ hq
  · rw [code_split hL hrest, bigEndian_ofBigEndian hlen, Nat.add_sub_cancel' hlow,
      UInt8.ofNat_toNat, List.cons_append, List.take_append_drop]

/-- A byte string ends too early, or begins with a word. -/
theorem short_or_code (s : List UInt8) : (s = [] ∨ ∃ b t, s = b :: t ∧ t.length + 1 < announced b) ∨
    ∃ L p rest, 1 ≤ L ∧ L ≤ 9 ∧ p < room L ∧ s = code L p ++ rest := by
  rcases s with _ | ⟨b, t⟩
  · exact .inl (.inl rfl)
  rcases Nat.lt_or_ge (t.length + 1) (announced b) with hshort | hlong
  · exact .inl (.inr ⟨b, t, rfl, hshort⟩)
  · obtain ⟨hL, hL9, -⟩ := first_announced b
    obtain ⟨p, hp, heq⟩ := exists_code (s := t) b (by omega)
    exact .inr ⟨_, p, _, hL, hL9, hp, heq⟩

theorem announced_of_head? {b : UInt8} (hL : 1 ≤ L) (hL9 : L ≤ 9) (hp : p < room L)
    (h : (code L p ++ rest).head? = some b) :
    announced b = L := by
  have hhead := announced_head? hL hL9 hp
  rw [code_eq hL] at h hhead
  rw [List.cons_append, List.head?_cons, Option.some_inj] at h
  rwa [List.head?_cons, h, Option.map_some, Option.some_inj] at hhead

theorem ofBigEndian_code (hL : 1 ≤ L) (p : ℕ) (rest : List UInt8) :
    ofBigEndian (((code L p ++ rest).drop 1).take (L - 1)) = p % 256 ^ (L - 1) := by
  rw [code_eq hL, List.cons_append, List.drop_succ_cons, List.drop_zero,
    List.take_left' (length_bigEndian _ _), ofBigEndian_bigEndian]

/-- No word is the beginning of another. -/
theorem code_append_inj (hL : 1 ≤ L) (hL9 : L ≤ 9) (hp : p < room L) (hL' : 1 ≤ L')
    (hL9' : L' ≤ 9) (hp' : p' < room L') (h : code L p ++ rest = code L' p' ++ rest') :
    L = L' ∧ p = p' ∧ rest = rest' := by
  have hhead := congrArg (fun xs => xs.head?.map announced) h
  simp only [code_eq hL, code_eq hL', List.cons_append, List.head?_cons, Option.map_some,
    Option.some.injEq, announced_first L (by omega) hL _ (div_lt_of_lt_room hp),
    announced_first L' (by omega) hL' _ (div_lt_of_lt_room hp')] at hhead
  subst hhead
  obtain ⟨hcode, hrest⟩ := List.append_inj h (by simp)
  rw [code_eq hL, code_eq hL, List.cons_eq_cons] at hcode
  have hlow := congrArg ofBigEndian hcode.2
  rw [ofBigEndian_bigEndian, ofBigEndian_bigEndian] at hlow
  have hfirst := congrArg UInt8.toNat hcode.1
  have hq := div_lt_of_lt_room hp
  have hq' := div_lt_of_lt_room hp'
  have hpow : 2 ^ (8 - L) ≤ 2 ^ (9 - L) := Nat.pow_le_pow_right (by decide) (by omega)
  have hmax : 2 ^ (9 - L) ≤ 2 ^ 8 := Nat.pow_le_pow_right (by decide) (by omega)
  rw [UInt8.toNat_ofNat', UInt8.toNat_ofNat', Nat.mod_eq_of_lt (by omega),
    Nat.mod_eq_of_lt (by omega)] at hfirst
  refine ⟨rfl, ?_, hrest⟩
  rw [← Nat.div_add_mod p (256 ^ (L - 1)), ← Nat.div_add_mod p' (256 ^ (L - 1)), hlow,
    Nat.add_left_cancel hfirst]

/-! ### Numbers in codes -/

/-- The first number of each length, when there are `size L` numbers of length `L`. -/
def start (size : ℕ → ℕ) : ℕ → ℕ
  | 0 => 0
  | 1 => 0
  | L + 2 => start size (L + 1) + size (L + 1)

theorem start_succ (size : ℕ → ℕ) (hL : 1 ≤ L) : start size (L + 1) = start size L + size L := by
  obtain ⟨k, rfl⟩ : ∃ k, L = k + 1 := ⟨L - 1, by omega⟩
  rfl

theorem start_mono (size : ℕ → ℕ) (hL : 1 ≤ L) (h : L ≤ L') : start size L ≤ start size L' := by
  induction h with
  | refl => exact le_rfl
  | step h ih =>
    have hL' := hL.trans h
    rw [start_succ size hL']
    omega

/-- A number lies behind one start only. -/
theorem length_unique {size : ℕ → ℕ} {m : ℕ} (hL : 1 ≤ L) (hL9 : L ≤ 9) (hL' : 1 ≤ L')
    (hL9' : L' ≤ 9) (h : start size L ≤ m) (hlt : L < 9 → m < start size L + size L)
    (h' : start size L' ≤ m) (hlt' : L' < 9 → m < start size L' + size L') : L = L' := by
  rcases Nat.lt_trichotomy L L' with hcmp | heq | hcmp
  · have hmono := start_mono size (show 1 ≤ L + 1 by omega) (show L + 1 ≤ L' from hcmp)
    rw [start_succ size hL] at hmono
    have := hlt (by omega)
    omega
  · exact heq
  · have hmono := start_mono size (show 1 ≤ L' + 1 by omega) (show L' + 1 ≤ L from hcmp)
    rw [start_succ size hL'] at hmono
    have := hlt' (by omega)
    omega

/-- Two's complement. -/
def signed (L p : ℕ) : ℤ := Int.bmod p (room L)

/-- Away from zero by `off`. -/
def away (y : ℤ) (off : ℕ) : ℤ := if y < 0 then y - off else y + off

/-- How far a number is from zero, the negative ones starting with `-1`. -/
def mag (z : ℤ) : ℕ := if z < 0 then (-1 - z).toNat else z.toNat

theorem mag_away (y : ℤ) (off : ℕ) : mag (away y off) = mag y + off := by
  simp only [mag, away]
  split <;> split <;> omega

theorem away_inj {y y' : ℤ} {off : ℕ} (h : away y off = away y' off) : y = y' := by
  simp only [away] at h
  split at h <;> split at h <;> omega

theorem two_dvd_room (hL : 1 ≤ L) : 2 ∣ room L := by
  rcases Nat.lt_or_ge 1 L with hlt | hge
  · exact Dvd.dvd.mul_left (Dvd.dvd.trans (by decide) (dvd_pow_self 256 (by omega))) _
  · obtain rfl : L = 1 := by omega
    decide

theorem mag_signed_lt (hL : 1 ≤ L) (p : ℕ) : mag (signed L p) < room L / 2 := by
  have hpos : 0 < room L := Nat.mul_pos (Nat.pow_pos (by decide)) (Nat.pow_pos (by decide))
  have hlow : -((room L : ℤ) / 2) ≤ signed L p := Int.le_bmod hpos
  have hhigh : signed L p < ((room L : ℤ) + 1) / 2 := Int.bmod_lt hpos
  have heven := two_dvd_room hL
  rw [mag]
  split <;> omega

theorem signed_inj (hp : p < room L) (hp' : p' < room L) (h : signed L p = signed L p') :
    p = p' := by
  have hmod := congrArg (· % (room L : ℤ)) h
  simp only [signed, Int.bmod_emod] at hmod
  rw [Int.emod_eq_of_lt (by omega) (by omega), Int.emod_eq_of_lt (by omega) (by omega)] at hmod
  omega

end Matching
