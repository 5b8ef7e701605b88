import Mathlib.Order.ConditionallyCompleteLattice.Basic
import Mathlib.Data.Nat.Prime.Basic
import Matching.Common.Sha
import Matching.Props.Hash

/-! The SHA classes are the secure hash standard: their `update` is its compression, the tables are
    the roots they come from, and `digest` is its hash of all that was written. -/

namespace Matching.Common

open Fips180

variable {w : ℕ}

/-! ### Words -/

/-- Words that are extended as a recurrence says are the terms of the recurrence. -/
theorem loadWords_eq {next : List (BitVec w) → ℕ → BitVec w} {block : List UInt8} {W : ℕ → BitVec w}
    (hfirst : ∀ t < 16, W t = Fips180.word w block t)
    (hnext : ∀ t, 16 ≤ t → next ((List.range t).map W) t = W t) (n : ℕ) (hn : 16 ≤ n) :
    loadWords w next n block = (List.range n).map W := by
  have hloop : ∀ k, (List.range' 16 k).foldl (fun words i => words ++ [next words i])
      ((List.range 16).map W) = (List.range (16 + k)).map W := by
    intro k
    induction k with
    | zero => rfl
    | succ k ih =>
      rw [List.range'_concat, List.foldl_append, ih, List.foldl_cons, List.foldl_nil, Nat.one_mul,
        hnext _ (by omega), ← Nat.add_assoc, List.range_succ, List.map_append, List.map_singleton]
  have hinput : (List.range 16).map (Fips180.word w block) = (List.range 16).map W :=
    List.map_congr_left fun t ht => (hfirst t (List.mem_range.mp ht)).symm
  rw [loadWords, hinput, hloop, Nat.add_sub_cancel' hn]

/-- A word that is there. -/
theorem getElem_words {W : ℕ → BitVec w} {n i : ℕ} (hi : i < n) :
    ((List.range n).map W)[i]! = W i := by
  rw [getElem!_pos _ i (by rwa [List.length_map, List.length_range]), List.getElem_map,
    List.getElem_range]

/-! ### The functions of the rounds -/

theorem choose_eq (x y z : BitVec w) : (z ^^^ y) &&& x ^^^ z = ch x y z := by
  refine BitVec.eq_of_getElem_eq fun i hi => ?_
  simp only [ch, BitVec.getElem_xor, BitVec.getElem_and, BitVec.getElem_not]
  cases x[i] <;> cases y[i] <;> cases z[i] <;> rfl

theorem majority_eq (x y z : BitVec w) : z &&& (y ^^^ x) ^^^ y &&& x = maj x y z := by
  refine BitVec.eq_of_getElem_eq fun i hi => ?_
  simp only [maj, BitVec.getElem_xor, BitVec.getElem_and]
  cases x[i] <;> cases y[i] <;> cases z[i] <;> rfl

theorem parity_eq (x y z : BitVec w) : z ^^^ y ^^^ x = parity x y z := by
  rw [parity, BitVec.xor_comm z y, BitVec.xor_comm _ x, ← BitVec.xor_assoc]

/-! ### SHA-2 -/

/-- The numbers in the text are those of a family of the standard. -/
structure Sha2Numbers.Are (p : Sha2Numbers w) (s : Sha2 w) : Prop where
  rounds : p.constants.length = s.rounds
  enough : 16 ≤ s.rounds
  constants : ∀ t < s.rounds, p.constants[t]! = Sha2.constant w t
  ofA : ∀ x : BitVec w,
    x.rotateRight p.ofA.1 ^^^ x.rotateRight p.ofA.2.1 ^^^ x.rotateRight p.ofA.2.2 = s.bigSigma0 x
  ofE : ∀ x : BitVec w,
    x.rotateRight p.ofE.1 ^^^ x.rotateRight p.ofE.2.1 ^^^ x.rotateRight p.ofE.2.2 = s.bigSigma1 x
  of15 : ∀ x : BitVec w, x.rotateRight p.of15.1 ^^^ x.rotateRight p.of15.2.1 ^^^ x >>> p.of15.2.2 =
    s.smallSigma0 x
  of2 : ∀ x : BitVec w, x.rotateRight p.of2.1 ^^^ x.rotateRight p.of2.2.1 ^^^ x >>> p.of2.2.2 =
    s.smallSigma1 x

section
variable {p : Sha2Numbers w} {s : Sha2 w}

theorem sha2Round_eq (h : p.Are s) (k x : BitVec w) (vars : List (BitVec w)) :
    sha2Round p k x vars = s.round k x vars := by
  unfold sha2Round Sha2.round
  split
  · next a b c d e f g last =>
    have ht1 : last + ch e f g + s.bigSigma1 e + k + x =
      last + s.bigSigma1 e + ch e f g + k + x := by ac_rfl
    have ht2 : maj a b c + s.bigSigma0 a = s.bigSigma0 a + maj a b c := BitVec.add_comm _ _
    simp only [choose_eq, majority_eq, h.ofA, h.ofE, ht1, ht2]
  · next hnot =>
    split
    · exact absurd rfl fun heq => hnot _ _ _ _ _ _ _ _ heq
    · rfl

theorem sha2Next_eq (h : p.Are s) (block : List UInt8) (t : ℕ) (ht : 16 ≤ t) :
    sha2Next p ((List.range t).map (s.schedule block)) t = s.schedule block t := by
  rw [sha2Next, getElem_words (by omega), getElem_words (by omega), getElem_words (by omega),
    getElem_words (by omega), h.of15, h.of2, Sha2.schedule.eq_1 s block t, if_neg (by omega)]
  ac_rfl

/-- `update` compresses a block. -/
theorem sha2Update_eq (h : p.Are s) (state : List (BitVec w)) (block : List UInt8) :
    sha2Update p state block = s.compress state block := by
  have hwords : loadWords w (sha2Next p) s.rounds block = (List.range s.rounds).map
      (s.schedule block) := by
    refine loadWords_eq (fun t ht => ?_) (sha2Next_eq h block) s.rounds h.enough
    rw [Sha2.schedule.eq_1, if_pos ht]
  rw [sha2Update, h.rounds, hwords, Sha2.compress]
  congr 1
  refine List.foldl_ext _ _ _ fun regs i hi => ?_
  have hlt := List.mem_range.mp hi
  rw [sha2Round_eq h, h.constants i hlt, getElem_words hlt]

end

/-! ### SHA-1 -/

theorem sha1Round_eq {f g : BitVec 32 → BitVec 32 → BitVec 32 → BitVec 32}
    (hf : ∀ x y z, f x y z = g x y z) (k x : BitVec 32) (vars : List (BitVec 32)) :
    sha1Round f k x vars = Sha1.round g k x vars := by
  unfold sha1Round Sha1.round
  split
  · next a b c d e =>
    have htemp : e + g b c d + a.rotateLeft 5 + k + x =
      a.rotateLeft 5 + g b c d + e + k + x := by ac_rfl
    simp only [hf, htemp]
  · next hnot =>
    split
    · exact absurd rfl fun heq => hnot _ _ _ _ _ heq
    · rfl

/-- One of the four loops runs twenty rounds. -/
theorem sha1Rounds_eq {f : BitVec 32 → BitVec 32 → BitVec 32 → BitVec 32} {k : BitVec 32}
    {words : List (BitVec 32)} {block : List UInt8} (first : ℕ)
    (hwords : words = (List.range 80).map (Sha1.schedule block)) (hlast : first + 20 ≤ 80)
    (hf : ∀ t, first ≤ t → t < first + 20 → ∀ x y z, f x y z = Sha1.f t x y z)
    (hk : ∀ t, first ≤ t → t < first + 20 → k = Sha1.constant t) (vars : List (BitVec 32)) :
    (List.range' first 20).foldl (fun vars i => sha1Round f k words[i]! vars) vars =
      (List.range' first 20).foldl
        (fun vars t => Sha1.round (Sha1.f t) (Sha1.constant t)
        (Sha1.schedule block t) vars) vars := by
  refine List.foldl_ext _ _ _ fun regs i hi => ?_
  obtain ⟨hle, hlt⟩ := List.mem_range'_1.mp hi
  rw [sha1Round_eq (hf i hle hlt), ← hk i hle hlt, hwords, getElem_words (by omega)]

/-- The constants of the four loops. -/
theorem sha1Constant_eq (t : ℕ) : Sha1.constant t =
    if t < 20 then 0x5a827999 else if t < 40 then 0x6ed9eba1 else if t < 60 then 0x8f1bbcdc
    else 0xca62c1d6 := by
  unfold Sha1.constant
  split
  · rw [root_eq (x := 0x5a827999) two_ne_zero (by norm_num) (by norm_num)]
    rfl
  split
  · rw [root_eq (x := 0x6ed9eba1) two_ne_zero (by norm_num) (by norm_num)]
    rfl
  split
  · rw [root_eq (x := 0x8f1bbcdc) two_ne_zero (by norm_num) (by norm_num)]
    rfl
  · rw [root_eq (x := 0xca62c1d6) two_ne_zero (by norm_num) (by norm_num)]
    rfl

/-- `SHA1::update` compresses a block. -/
theorem sha1Update_eq (state : List (BitVec 32)) (block : List UInt8) :
    sha1Update state block = Sha1.compress state block := by
  have hwords : loadWords 32
      (fun words i =>
        (words[i - 3]! ^^^ words[i - 8]! ^^^ words[i - 14]! ^^^ words[i - 16]!).rotateLeft 1)
      80 block = (List.range 80).map (Sha1.schedule block) := by
    refine loadWords_eq (fun t ht => ?_) (fun t ht => ?_) 80 (by decide)
    · rw [Sha1.schedule, if_pos ht]
    · rw [getElem_words (by omega), getElem_words (by omega), getElem_words (by omega),
        getElem_words (by omega), Sha1.schedule.eq_1 block t, if_neg (by omega)]
  have hrange : List.range 80 =
    List.range' 0 20 ++ List.range' 20 20 ++ List.range' 40 20 ++ List.range' 60 20 := rfl
  have hchoose : ∀ t, 0 ≤ t → t < 0 + 20 →
      ∀ x y z, (z ^^^ y) &&& x ^^^ z = Sha1.f t x y z := fun t _ ht x y z => by
    rw [Sha1.f, if_pos ht, choose_eq]
  have hparity : ∀ t, 20 ≤ t → t < 20 + 20 →
      ∀ x y z, z ^^^ y ^^^ x = Sha1.f t x y z := fun t hle ht x y z => by
    rw [Sha1.f, if_neg (by omega), if_pos ht, parity_eq]
  have hmajority : ∀ t, 40 ≤ t → t < 40 + 20 →
      ∀ x y z, z &&& (y ^^^ x) ^^^ y &&& x = Sha1.f t x y z := fun t hle ht x y z => by
    rw [Sha1.f, if_neg (by omega), if_neg (by omega), if_pos ht, majority_eq]
  have hlast : ∀ t, 60 ≤ t → t < 60 + 20 →
      ∀ x y z, z ^^^ y ^^^ x = Sha1.f t x y z := fun t hle ht x y z => by
    rw [Sha1.f, if_neg (by omega), if_neg (by omega), if_neg (by omega), parity_eq]
  rw [sha1Update, Sha1.compress, hrange, List.foldl_append, List.foldl_append, List.foldl_append]
  beta_reduce
  rw [sha1Rounds_eq 0 hwords (by decide) hchoose, sha1Rounds_eq 20 hwords (by decide) hparity,
    sha1Rounds_eq 40 hwords (by decide) hmajority, sha1Rounds_eq 60 hwords (by decide) hlast]
  all_goals
    intro t hle hlt
    rw [sha1Constant_eq]
    split_ifs <;> first | rfl | omega

/-! ### Padding -/

/-- The bytes of `be` are those of the standard. -/
theorem endianBytes_eq : ∀ n x : ℕ, endianBytes true n x = toBytes n x
  | 0, _ => rfl
  | n + 1, x => by
    have hshift : ∀ i, x >>> (8 * (i + 1)) = (x / 256) >>> (8 * i) := fun i => by
      rw [Nat.mul_succ, Nat.add_comm, Nat.shiftRight_add, Nat.shiftRight_eq_div_pow x 8]
    have hrest : endianBytes true n (x / 256) =
        ((List.range n).map fun i => UInt8.ofNat (x >>> (8 * (i + 1)))).reverse := by
      simp only [endianBytes, hshift, if_true]
    rw [toBytes, ← endianBytes_eq n, hrest]
    simp only [endianBytes, if_true, List.range_succ_eq_map, List.map_cons, List.map_map,
      List.reverse_cons]
    rfl

/-- The zeros that are put are the fewest that fill the block. -/
theorem zeros_minimal {ω : Type} (H : HashType ω) (n : ℕ) :
    H.zeros n = sInf {k | H.blockSize ∣ n + 1 + H.lengthSize + k} := by
  have hpos := H.blockSize_pos
  have hmem : H.blockSize ∣ n + 1 + H.lengthSize + H.zeros n := H.dvd_add_zeros n
  refine le_antisymm (le_csInf ⟨_, hmem⟩ fun k hk => ?_) (Nat.sInf_le hmem)
  by_contra hlt
  have hsub : H.blockSize ∣ H.zeros n - k := by
    have hdiff := Nat.dvd_sub hmem hk
    rwa [Nat.add_sub_add_left] at hdiff
  have hle := Nat.le_of_dvd (by omega) hsub
  have hzeros : H.zeros n < H.blockSize := Nat.mod_lt _ hpos
  omega

/-! ### The hash of a message -/

/-- The class is a hash function of the standard. -/
structure HashType.Is (H : HashType (BitVec w)) (a : Algorithm w) : Prop where
  blockSize : H.blockSize = 2 * w
  lengthSize : H.lengthSize = w / 4
  wordSize : H.wordSize = w / 8
  words : H.digestSize / H.wordSize = a.words
  bigEndian : H.bigEndian = true
  toNat : H.toNat = BitVec.toNat
  init : H.init = a.start
  update : ∀ state block, H.update state block = a.compress state block

theorem HashType.Is.hash_eq {H : HashType (BitVec w)} {a : Algorithm w} (h : H.Is a)
    {m : List UInt8} (hlen : 8 * m.length < 2 ^ (8 * (w / 4))) : H.hash m = a.hash m := by
  have hpad : H.padded m = Fips180.pad w m := by
    rw [HashType.padded, zeros_minimal, h.blockSize, h.lengthSize, h.bigEndian, endianBytes_eq,
      Nat.mod_eq_of_lt hlen, Fips180.pad]
  have hupdate : H.update = a.compress := funext fun state => funext (h.update state)
  rw [HashType.hash, Hash.digestBytes, hpad, hupdate, h.blockSize, h.init, h.words, h.wordSize,
    h.toNat, h.bigEndian, Algorithm.hash]
  simp only [endianBytes_eq]

/-! ### The classes -/

/-- A table of the fractions of cube roots is the table of the constants. -/
theorem constants_eq {constants : List (BitVec w)} {n t : ℕ} (hn : n ≤ primes.length)
    (htable : (primes.take n).map (fraction 3 w) = constants) (ht : t < n) :
    constants[t]! = Sha2.constant w t := by
  have hlt : t < (primes.take n).length := by
    rw [List.length_take]
    omega
  have hprime : t < primes.length := by omega
  rw [← htable, getElem!_pos _ t (by rwa [List.length_map]), List.getElem_map, List.getElem_take,
    Sha2.constant, List.getElem?_eq_getElem hprime, Option.getD_some]

theorem sha256_are :
    Sha2Numbers.Are
      ⟨sha256RoundConstants, (2, 13, 22), (6, 11, 25), (7, 18, 3), (17, 19, 10)⟩ sha256 where
  rounds := rfl
  enough := by decide
  constants t ht := by
    have htable : isTable 3 (primes.take 64) sha256RoundConstants = true := by
      rw [primes_eq]
      decide +kernel
    exact constants_eq (by rw [primes_eq]; decide +kernel) (isTable_eq (by decide) htable) ht
  ofA _ := rfl
  ofE _ := rfl
  of15 _ := rfl
  of2 _ := rfl

theorem sha512_are :
    Sha2Numbers.Are
      ⟨sha512RoundConstants, (28, 34, 39), (14, 18, 41), (1, 8, 7), (19, 61, 6)⟩ sha512 where
  rounds := rfl
  enough := by decide
  constants t ht := by
    have htable : isTable 3 (primes.take 80) sha512RoundConstants = true := by
      rw [primes_eq]
      decide +kernel
    exact constants_eq (by rw [primes_eq]; decide +kernel) (isTable_eq (by decide) htable) ht
  ofA _ := rfl
  ofE _ := rfl
  of15 _ := rfl
  of2 _ := rfl

/-- The states in which the classes start. -/
theorem sha256Init_eq : sha256Init = (primes.take 8).map (fraction 2 32) := by
  rw [primes_eq]
  exact (isTable_eq two_ne_zero (by decide +kernel)).symm

theorem sha512Init_eq : sha512Init = (primes.take 8).map (fraction 2 64) := by
  rw [primes_eq]
  exact (isTable_eq two_ne_zero (by decide +kernel)).symm

theorem sha384Init_eq : sha384Init = ((primes.drop 8).take 8).map (fraction 2 64) := by
  rw [primes_eq]
  exact (isTable_eq two_ne_zero (by decide +kernel)).symm

theorem sha224Init_eq :
    sha224Init = ((primes.drop 8).take 8).map fun p => (fraction 2 64 p).setWidth 32 := by
  have hhalf : sha224Init = sha384Init.map (·.setWidth 32) := rfl
  rw [hhalf, sha384Init_eq, List.map_map]
  rfl

theorem sha1_is : SHA1.Is Fips180.SHA1 := ⟨rfl, rfl, rfl, rfl, rfl, rfl, rfl, sha1Update_eq⟩

theorem sha256_is : SHA256.Is Fips180.SHA256 :=
  ⟨rfl, rfl, rfl, rfl, rfl, rfl, sha256Init_eq, sha2Update_eq sha256_are⟩

theorem sha224_is : SHA224.Is Fips180.SHA224 :=
  ⟨rfl, rfl, rfl, rfl, rfl, rfl, sha224Init_eq, sha2Update_eq sha256_are⟩

theorem sha512_is : SHA512.Is Fips180.SHA512 :=
  ⟨rfl, rfl, rfl, rfl, rfl, rfl, sha512Init_eq, sha2Update_eq sha512_are⟩

theorem sha384_is : SHA384.Is Fips180.SHA384 :=
  ⟨rfl, rfl, rfl, rfl, rfl, rfl, sha384Init_eq, sha2Update_eq sha512_are⟩

/-- However a message is cut into calls of `write`, the classes compute its hash, as long as the
    standard has one. -/
theorem digests_fips180 (pieces : List (List UInt8)) (hlong : 8 * pieces.flatten.length < 2 ^ 128) :
    (pieces.foldl (Hash.write SHA512) (Hash.new SHA512)).digest SHA512 =
      Fips180.SHA512.hash pieces.flatten ∧
    (pieces.foldl (Hash.write SHA384) (Hash.new SHA384)).digest SHA384 =
      Fips180.SHA384.hash pieces.flatten ∧
    (8 * pieces.flatten.length < 2 ^ 64 →
      (pieces.foldl (Hash.write SHA1) (Hash.new SHA1)).digest SHA1 =
        Fips180.SHA1.hash pieces.flatten ∧
      (pieces.foldl (Hash.write SHA256) (Hash.new SHA256)).digest SHA256 =
        Fips180.SHA256.hash pieces.flatten ∧
      (pieces.foldl (Hash.write SHA224) (Hash.new SHA224)).digest SHA224 =
        Fips180.SHA224.hash pieces.flatten) := by
  refine ⟨?_, ?_, fun hshort => ⟨?_, ?_, ?_⟩⟩
  · rw [Hash.digest_pieces, sha512_is.hash_eq hlong]
  · rw [Hash.digest_pieces, sha384_is.hash_eq hlong]
  · rw [Hash.digest_pieces, sha1_is.hash_eq hshort]
  · rw [Hash.digest_pieces, sha256_is.hash_eq hshort]
  · rw [Hash.digest_pieces, sha224_is.hash_eq hshort]

/-- The message of the examples of the standard, in two pieces. -/
theorem digests_fips180_abc : Fips180.SHA1.hash [97, 98, 99] =
    [169, 153, 62, 54, 71, 6, 129, 106, 186, 62, 37, 113, 120, 80, 194, 108, 156, 208, 216, 157] :=
  ((digests_fips180 [[97], [98, 99]] (by decide)).2.2 (by decide)).1.symm.trans (by decide +kernel)

end Matching.Common
