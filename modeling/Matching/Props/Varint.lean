import Matching.Common.SerialWrite

/-! Variable-length integers are canonical, but for the longest signed codes. Writers and readers
    agree on the codes of `LengthCode`, of which every number has one; the exceptions are a missing
    look at the sign, and range checks that are made by an overflow. -/

namespace Matching.Common

variable {w L p : ℕ}

/-- A number is written as one code, which is read as the number, and nothing else is, `bad`
    strings apart: of these every one is read as a number that is written otherwise, or
    makes a sum overflow. -/
structure Canonical {w : ℕ} (Code : BitVec w → List UInt8 → Prop)
    (read : List UInt8 → Except SerialError (BitVec w × List UInt8))
    (write : BitVec w → List UInt8) (bad : List UInt8 → Prop) : Prop where
  writes : ∀ v, Code v (write v)
  word : ∀ {v bytes}, Code v bytes → ∃ L p, 1 ≤ L ∧ L ≤ 9 ∧ p < room L ∧ bytes = code L p
  unique : ∀ {v bytes bytes'}, Code v bytes → Code v bytes' → bytes = bytes'
  reads : ∀ {v bytes} rest, Code v bytes → read (bytes ++ rest) = .ok (v, rest)
  short : ∀ {v b s}, Code v (b :: s) → ∀ s', s'.length < s.length →
    read (b :: s') = .error .prematureEof
  empty : read [] = .error .prematureEof
  outcome : ∀ s,
    bad s ∧ (read s = .error .ub ∨ ∃ v rest, read s = .ok (v, rest) ∧ s ≠ write v ++ rest) ∨
    ¬bad s ∧ ((∃ e, read s = .error e ∧ e ≠ .ub) ∨
      ∃ v bytes rest, read s = .ok (v, rest) ∧ Code v bytes ∧ s = bytes ++ rest)

namespace Canonical

variable {Code : BitVec w → List UInt8 → Prop}
  {read : List UInt8 → Except SerialError (BitVec w × List UInt8)}
  {write : BitVec w → List UInt8} {bad : List UInt8 → Prop}

theorem round (h : Canonical Code read write bad) (v : BitVec w) (rest : List UInt8) :
    read (write v ++ rest) = .ok (v, rest) :=
  h.reads rest (h.writes v)

theorem size (h : Canonical Code read write bad) (v : BitVec w) :
    (write v).head?.map varintSize = some (write v).length := by
  obtain ⟨L, p, hL, hL9, hp, heq⟩ := h.word (h.writes v)
  have hhead := announced_head? hL hL9 hp
  rw [heq, length_code, ← hhead]
  exact congrArg (Option.map · _) (funext varintSize_eq)

theorem incomplete (h : Canonical Code read write bad) {v : BitVec w} {pre : List UInt8}
    (hpre : pre <+: write v) (hne : pre ≠ write v) : read pre = .error .prematureEof := by
  rcases pre with _ | ⟨b, s'⟩
  · exact h.empty
  · obtain ⟨t, ht⟩ := hpre
    have hcode := h.writes v
    rw [← ht, List.cons_append] at hcode
    refine h.short hcode s' ?_
    have htpos : 0 < t.length :=
      List.length_pos_iff.mpr fun hnil => hne (by rw [← ht, hnil, List.append_nil])
    rw [List.length_append]
    omega

theorem canonical (h : Canonical Code read write bad) (s : List UInt8) :
    (read s ≠ .error .ub ∧ ∀ v rest, read s = .ok (v, rest) → s = write v ++ rest) ↔ ¬bad s := by
  rcases h.outcome s with ⟨hbad, hread⟩ | ⟨hgood, hread⟩
  · refine iff_of_false ?_ (not_not_intro hbad)
    rintro ⟨hsafe, hall⟩
    rcases hread with hub | ⟨v, rest, hok, hne⟩
    · exact hsafe hub
    · exact hne (hall v rest hok)
  · refine iff_of_true ?_ hgood
    rcases hread with ⟨e, herr, he⟩ | ⟨v, bytes, rest, hok, hcode, heq⟩
    · rw [herr]
      exact ⟨fun hub => he (Except.error.inj hub), nofun⟩
    · rw [hok]
      refine ⟨nofun, fun v' rest' h' => ?_⟩
      obtain ⟨rfl, rfl⟩ := Prod.mk.inj (Except.ok.inj h')
      rw [heq, h.unique hcode (h.writes v)]

end Canonical

theorem Coded.unique {most : ℕ} {z : ℤ} {bytes bytes' : List UInt8} (hmost : most ≤ 9)
    (h : Coded most z bytes) (h' : Coded most z bytes') : bytes = bytes' := by
  obtain ⟨L, p, hL, hLm, hp, rfl, hz⟩ := h
  obtain ⟨L', p', hL', hLm', hp', rfl, hz'⟩ := h'
  have hmag := congrArg mag hz
  have hmag' := congrArg mag hz'
  rw [mag_away] at hmag hmag'
  have hlt := mag_signed_lt hL p
  have hlt' := mag_signed_lt hL' p'
  have hstart : start half L ≤ mag z := by omega
  have hstart' : start half L' ≤ mag z := by omega
  obtain rfl : L = L' :=
    length_unique hL (by omega) hL' (by omega) hstart (fun _ => by rw [hmag, half]; omega) hstart'
    (fun _ => by rw [hmag', half]; omega)
  rw [signed_inj hp hp' (away_inj (hz.symm.trans hz'))]

theorem Counted.unique {most n : ℕ} {bytes bytes' : List UInt8} (hmost : most ≤ 9)
    (h : Counted most n bytes) (h' : Counted most n bytes') : bytes = bytes' := by
  obtain ⟨L, p, hL, hLm, hp, rfl, hn⟩ := h
  obtain ⟨L', p', hL', hLm', hp', rfl, hn'⟩ := h'
  have hstart : start room L ≤ n := by omega
  have hstart' : start room L' ≤ n := by omega
  obtain rfl : L = L' :=
    length_unique hL (by omega) hL' (by omega) hstart (fun _ => by omega) hstart'
      (fun _ => by omega)
  obtain rfl : p = p' := by omega
  rfl

theorem announced_cons (hL : 1 ≤ L) (hL9 : L ≤ 9) (hp : p < room L) {b : UInt8} {s : List UInt8}
    (h : b :: s = code L p) :
    announced b = L ∧ s.length + 1 = L := by
  have hhead := announced_head? hL hL9 hp
  have hlen := length_code L p
  rw [← h] at hhead hlen
  exact ⟨Option.some.inj hhead, hlen⟩

theorem away_bounds (hL : 1 ≤ L) (hL8 : L ≤ 8) (p : ℕ) :
    -2 ^ 63 ≤ away (signed L p) (start half L) ∧ away (signed L p) (start half L) < 2 ^ 63 := by
  have hmag := mag_signed_lt hL p
  have hall : ∀ L < 9, start half L + room L / 2 < 2 ^ 63 := by decide
  have hstart := hall L (by omega)
  have haway := mag_away (signed L p) (start half L)
  rw [mag] at haway
  split at haway <;> omega

/-! ### Byte strings that are not read as they should be -/

/-- A first byte of one sign before a payload of the other that the offset brings back to the sign
    of the first byte. -/
def Crossed (s : List UInt8) : Prop :=
  5 ≤ s.length ∧ (s.head? = some 0xF7 ∧ ofBigEndian ((s.drop 1).take 4) < 0x08102040 ∨
    s.head? = some 0xF0 ∧ 2 ^ 32 - 0x08102040 ≤ ofBigEndian ((s.drop 1).take 4))

/-- A payload that the offset takes out of the range of the type. -/
def Overflows : VarintType → List UInt8 → Prop
  | .signed4, s => 5 ≤ s.length ∧
      (s.head? = some 0xF7 ∧ 2 ^ 31 ≤ ofBigEndian ((s.drop 1).take 4) ∧
        ofBigEndian ((s.drop 1).take 4) < 2 ^ 31 + 0x08102040 ∨
      s.head? = some 0xF0 ∧
        2 ^ 31 - 0x08102040 ≤ ofBigEndian ((s.drop 1).take 4) ∧
        ofBigEndian ((s.drop 1).take 4) < 2 ^ 31)
  | .signed8, s => 9 ≤ s.length ∧ s.head? = some 0xFF ∧
      2 ^ 63 - 0x0081020408102040 ≤ ofBigEndian ((s.drop 1).take 8) ∧
      ofBigEndian ((s.drop 1).take 8) < 2 ^ 63 + 0x0081020408102040
  | .unsigned4, _ => False
  | .unsigned8, _ => False

def Misread (t : VarintType) (s : List UInt8) : Prop := Overflows t s ∨ t = .signed4 ∧ Crossed s

instance (s : List UInt8) : Decidable (Crossed s) :=
  inferInstanceAs (Decidable (5 ≤ s.length ∧
    (s.head? = some 0xF7 ∧ ofBigEndian ((s.drop 1).take 4) < 0x08102040 ∨
      s.head? = some 0xF0 ∧ 2 ^ 32 - 0x08102040 ≤ ofBigEndian ((s.drop 1).take 4))))

/-- Such a string is long enough. -/
theorem Misread.first {t : VarintType} {s : List UInt8} (h : Misread t s) :
    ∃ b, s.head? = some b ∧ announced b ≤ s.length ∧
      (t = .signed4 ∧ announced b = 5 ∨ t = .signed8 ∧ announced b = 9) := by
  cases t with
  | signed4 =>
    obtain ⟨hlen, ⟨hhead, -⟩ | ⟨hhead, -⟩⟩ | ⟨-, hlen, ⟨hhead, -⟩ | ⟨hhead, -⟩⟩ := h
    all_goals exact ⟨_, hhead, hlen, .inl ⟨rfl, by decide⟩⟩
  | signed8 =>
    obtain ⟨hlen, hhead, -⟩ | ⟨hsigned, -⟩ := h
    · exact ⟨_, hhead, hlen, .inr ⟨rfl, by decide⟩⟩
    · cases hsigned
  | unsigned4 => obtain h | ⟨hsigned, -⟩ := h <;> contradiction
  | unsigned8 => obtain h | ⟨hsigned, -⟩ := h <;> contradiction

theorem not_misread_short {t : VarintType} {s : List UInt8}
    (h : s = [] ∨ ∃ b u, s = b :: u ∧ u.length + 1 < announced b) : ¬Misread t s := by
  intro hbad
  obtain ⟨b, hhead, hlen, -⟩ := hbad.first
  obtain rfl | ⟨b', u, rfl, hshort⟩ := h
  · cases hhead
  · obtain rfl := Option.some.inj hhead
    rw [List.length_cons] at hlen
    omega

theorem not_misread_unsigned {t : VarintType} (h4 : t ≠ .signed4) (h8 : t ≠ .signed8)
    (s : List UInt8) : ¬Misread t s := by
  intro hbad
  obtain ⟨-, -, -, ⟨ht, -⟩ | ⟨ht, -⟩⟩ := hbad.first
  · exact h4 ht
  · exact h8 ht

/-! ### Eight bytes -/

theorem signed_nine (hp : p < room 9) :
    signed 9 p = if p < 2 ^ 63 then (p : ℤ) else p - 2 ^ 64 := by
  have hroom : room 9 = 2 ^ 64 := rfl
  have hhalf : half 9 = 2 ^ 63 := rfl
  rw [hroom] at hp
  split
  · refine signed_eq (by decide) rfl ?_ ?_ <;> rw [hhalf] <;> push_cast <;> omega
  · refine signed_eq (by decide) ?_ ?_ ?_
    · rw [hroom]
      push_cast
      omega
    all_goals
      rw [hhalf]
      push_cast
      omega

/-- Nine bytes overflow just when they stand for a number that does not have eight. -/
theorem misread8_nine (hp : p < room 9) (rest : List UInt8) : Misread .signed8 (code 9 p ++ rest) ↔
    ¬(-2 ^ 63 ≤ away (signed 9 p) (start half 9) ∧ away (signed 9 p) (start half 9) < 2 ^ 63) := by
  have hroom : room 9 = 2 ^ 64 := rfl
  have hstart : start half 9 = 0x0081020408102040 := rfl
  have hzero : p / 256 ^ (9 - 1) = 0 := Nat.div_eq_of_lt hp
  have hmod : p % 256 ^ (9 - 1) = p := Nat.mod_eq_of_lt hp
  have hword := ofBigEndian_code (L := 9) (by decide) p rest
  rw [hmod] at hword
  have hhead : (code 9 p ++ rest).head? = some 0xFF := by
    rw [code_eq (by decide), hzero]
    rfl
  have hlen : 9 ≤ (code 9 p ++ rest).length := by
    rw [List.length_append, length_code]
    omega
  have hover : Misread .signed8 (code 9 p ++ rest) ↔ 2 ^ 63 - 0x0081020408102040 ≤ p ∧
      p < 2 ^ 63 + 0x0081020408102040 := by
    simp only [Misread, Overflows, hword, hhead, hlen, true_and, reduceCtorEq, false_and, or_false]
  rw [hover, signed_nine hp, hstart, away]
  rw [hroom] at hp
  split <;> split <;> omega

theorem signed8_canonical :
    Canonical (fun v => Coded 9 v.toInt) VarintOps8.readSigned VarintOps8.writeSigned
      (Misread .signed8) where
  writes := writeSigned8_coded
  word := by
    rintro v bytes ⟨L, p, hL, hL9, hp, heq, -⟩
    exact ⟨L, p, hL, hL9, hp, heq⟩
  unique := Coded.unique le_rfl
  reads := by
    rintro v bytes rest ⟨L, p, hL, hL9, hp, rfl, hz⟩
    rcases Nat.lt_or_ge L 9 with hlt | hge
    · rw [readSigned8_code hL (by omega) hp, ← hz, BitVec.ofInt_toInt]
    · obtain rfl : L = 9 := by omega
      have hlt : v.toInt < 2 ^ 63 := BitVec.toInt_lt
      have hle : -2 ^ 63 ≤ v.toInt := BitVec.le_toInt v
      rw [readSigned8_nine hp, ← hz, if_pos ⟨hle, hlt⟩, BitVec.ofInt_toInt]
  short := by
    rintro v b s ⟨L, p, hL, hL9, hp, heq, -⟩ s' hs'
    obtain ⟨hann, hlen⟩ := announced_cons hL hL9 hp heq
    exact readSigned8_short (by omega)
  empty := rfl
  outcome := by
    intro s
    obtain hshort | ⟨L, p, rest, hL, hL9, hp, rfl⟩ := short_or_code s
    · refine .inr ⟨not_misread_short hshort, .inl ?_⟩
      obtain rfl | ⟨b, u, rfl, hlt⟩ := hshort
      · exact ⟨_, rfl, nofun⟩
      · exact ⟨_, readSigned8_short hlt, nofun⟩
    rcases Nat.lt_or_ge L 9 with hlt | hge
    · refine .inr ⟨fun hbad => ?_,
        .inr ⟨_, code L p, rest, readSigned8_code hL (by omega) hp rest,
        ⟨L, p, hL, hL9, hp, rfl, ?_⟩, rfl⟩⟩
      · obtain ⟨b, hhead, -, ⟨ht, -⟩ | ⟨-, hann⟩⟩ := hbad.first
        · cases ht
        · have := announced_of_head? hL hL9 hp hhead
          omega
      · obtain ⟨hlow, hhigh⟩ := away_bounds hL (by omega) p
        exact toInt_ofInt_of_mem (by decide) hlow hhigh
    · obtain rfl : L = 9 := by omega
      rw [misread8_nine hp, readSigned8_nine hp]
      split
      · next hin =>
          exact .inr ⟨not_not_intro hin,
            .inr ⟨_, code 9 p, rest, rfl,
            ⟨9, p, hL, hL9, hp, rfl, toInt_ofInt_of_mem (by decide) hin.1 hin.2⟩, rfl⟩⟩
      · next hout => exact .inl ⟨hout, .inl rfl⟩

theorem unsigned8_canonical :
    Canonical (fun v => Counted 9 v.toNat) VarintOps8.readUnsigned VarintOps8.writeUnsigned
      (Misread .unsigned8) where
  writes := writeUnsigned8_counted
  word := by
    rintro v bytes ⟨L, p, hL, hL9, hp, heq, -⟩
    exact ⟨L, p, hL, hL9, hp, heq⟩
  unique := Counted.unique le_rfl
  reads := by
    rintro v bytes rest ⟨L, p, hL, hL9, hp, rfl, hn⟩
    rcases Nat.lt_or_ge L 9 with hlt | hge
    · rw [readUnsigned8_code hL (by omega) hp, ← hn, BitVec.ofNat_toNat, BitVec.setWidth_eq]
    · obtain rfl : L = 9 := by omega
      rw [readUnsigned8_nine hp, ← hn, if_pos v.isLt, BitVec.ofNat_toNat, BitVec.setWidth_eq]
  short := by
    rintro v b s ⟨L, p, hL, hL9, hp, heq, -⟩ s' hs'
    obtain ⟨hann, hlen⟩ := announced_cons hL hL9 hp heq
    exact readUnsigned8_short (by omega)
  empty := rfl
  outcome := by
    intro s
    refine .inr ⟨not_misread_unsigned (by decide) (by decide) s, ?_⟩
    obtain hshort | ⟨L, p, rest, hL, hL9, hp, rfl⟩ := short_or_code s
    · obtain rfl | ⟨b, u, rfl, hlt⟩ := hshort
      · exact .inl ⟨_, rfl, nofun⟩
      · exact .inl ⟨_, readUnsigned8_short hlt, nofun⟩
    rcases Nat.lt_or_ge L 9 with hlt | hge
    · have hall : ∀ L < 9, room L + start room L < 2 ^ 64 := by decide
      have hmax := hall L hlt
      exact .inr ⟨_, code L p, rest, readUnsigned8_code hL (by omega) hp rest,
        ⟨L, p, hL, hL9, hp, rfl, toNat_ofNat_of_lt (by omega)⟩, rfl⟩
    · obtain rfl : L = 9 := by omega
      rw [readUnsigned8_nine hp]
      split
      · next hin =>
          exact .inr ⟨_, code 9 p, rest, rfl, ⟨9, p, hL, hL9, hp, rfl, toNat_ofNat_of_lt hin⟩, rfl⟩
      · exact .inl ⟨_, rfl, nofun⟩

theorem unsigned4_canonical :
    Canonical (fun v => Counted 5 v.toNat) VarintOps4.readUnsigned VarintOps4.writeUnsigned
      (Misread .unsigned4) where
  writes := writeUnsigned4_counted
  word := by
    rintro v bytes ⟨L, p, hL, hL5, hp, heq, -⟩
    exact ⟨L, p, hL, by omega, hp, heq⟩
  unique := Counted.unique (by decide)
  reads := by
    rintro v bytes rest ⟨L, p, hL, hL5, hp, rfl, hn⟩
    rcases Nat.lt_or_ge L 5 with hlt | hge
    · rw [readUnsigned4_code hL (by omega) hp, ← hn, BitVec.ofNat_toNat, BitVec.setWidth_eq]
    · obtain rfl : L = 5 := by omega
      rw [readUnsigned4_five hp, ← hn, if_pos v.isLt, BitVec.ofNat_toNat, BitVec.setWidth_eq]
  short := by
    rintro v b s ⟨L, p, hL, hL5, hp, heq, hn⟩ s' hs'
    obtain ⟨hann, hlen⟩ := announced_cons hL (by omega) hp heq
    rw [readUnsigned4_short (by omega), if_pos]
    rcases Nat.lt_or_ge L 5 with hlt | hge
    · exact .inl (by omega)
    · obtain rfl : L = 5 := by omega
      have hv := v.isLt
      have hzero : p / 256 ^ (5 - 1) = 0 := Nat.div_eq_of_lt (by omega)
      rw [code_eq (by decide), hzero, List.cons_eq_cons] at heq
      exact .inr (by rw [heq.1]; rfl)
  empty := rfl
  outcome := by
    intro s
    refine .inr ⟨not_misread_unsigned (by decide) (by decide) s, ?_⟩
    obtain hshort | ⟨L, p, rest, hL, hL9, hp, rfl⟩ := short_or_code s
    · obtain rfl | ⟨b, u, rfl, hlt⟩ := hshort
      · exact .inl ⟨_, rfl, nofun⟩
      · exact .inl ⟨_, readUnsigned4_short hlt, by split <;> nofun⟩
    obtain hlt | rfl | hgt := Nat.lt_trichotomy L 5
    · have hall : ∀ L < 5, room L + start room L < 2 ^ 32 := by decide
      have hmax := hall L hlt
      exact .inr ⟨_, code L p, rest, readUnsigned4_code hL (by omega) hp rest,
        ⟨L, p, hL, by omega, hp, rfl, toNat_ofNat_of_lt (by omega)⟩, rfl⟩
    · rw [readUnsigned4_five hp]
      split
      · next hin =>
          exact .inr ⟨_, code 5 p, rest, rfl,
            ⟨5, p, hL, le_rfl, hp, rfl, toNat_ofNat_of_lt hin⟩, rfl⟩
      · exact .inl ⟨_, rfl, nofun⟩
    · exact .inl ⟨_, (read4_long hgt hL9 hp rest).2, nofun⟩

/-! ### The longest signed codes of four bytes -/

theorem misread4_five (hp : p < room 5) (rest : List UInt8) : Misread .signed4 (code 5 p ++ rest) ↔
    p / 256 ^ 4 = 7 ∧
      (p % 256 ^ 4 < 0x08102040 ∨ 2 ^ 31 ≤ p % 256 ^ 4 ∧ p % 256 ^ 4 < 2 ^ 31 + 0x08102040) ∨
      p / 256 ^ 4 = 0 ∧
        (2 ^ 32 - 0x08102040 ≤ p % 256 ^ 4 ∨ 2 ^ 31 - 0x08102040 ≤ p % 256 ^ 4 ∧
        p % 256 ^ 4 < 2 ^ 31) := by
  have hq : p / 256 ^ 4 < 8 := div_lt_of_lt_room hp
  have hall : ∀ q < 8, (UInt8.ofNat (256 - 2 ^ (9 - 5) + q) = 0xF7 ↔ q = 7) ∧
      (UInt8.ofNat (256 - 2 ^ (9 - 5) + q) = 0xF0 ↔ q = 0) := by
    decide
  obtain ⟨hseven, hzero⟩ := hall _ hq
  have hlen : 5 ≤ (code 5 p ++ rest).length := by
    rw [List.length_append, length_code]
    omega
  have hword : ofBigEndian (((code 5 p ++ rest).drop 1).take 4) = p % 256 ^ 4 :=
    ofBigEndian_code (L := 5) (by decide) p rest
  have hhead : (code 5 p ++ rest).head? = some (UInt8.ofNat (256 - 2 ^ (9 - 5) + p / 256 ^ 4)) := by
    rw [code_eq (by decide)]
    rfl
  simp only [Misread, Overflows, Crossed, hword, hhead, hlen, Option.some.injEq, hseven,
    hzero, true_and]
  omega

theorem toInt_ofNat_32 (p : ℕ) :
    (BitVec.ofNat 32 p).toInt = if p % 2 ^ 32 < 2 ^ 31 then (p % 2 ^ 32 : ℤ)
      else (p % 2 ^ 32 : ℤ) - 2 ^ 32 := by
  rw [BitVec.toInt_eq_toNat_cond, BitVec.toNat_ofNat]
  split <;> split <;> omega

theorem signed_five (hp : p < room 5) :
    signed 5 p = if p < 2 ^ 34 then (p : ℤ) else p - 2 ^ 35 := by
  have hroom : room 5 = 2 ^ 35 := rfl
  have hhalf : half 5 = 2 ^ 34 := rfl
  rw [hroom] at hp
  split
  · refine signed_eq (by decide) rfl ?_ ?_ <;> rw [hhalf] <;> push_cast <;> omega
  · refine signed_eq (by decide) ?_ ?_ ?_
    · rw [hroom]
      push_cast
      omega
    all_goals
      rw [hhalf]
      push_cast
      omega

/-- What is read of five bytes, by the sign of the first byte and that of the payload behind it. -/
theorem readSigned4_five_cases (hp : p < room 5) (rest : List UInt8) :
    (∃ v, VarintOps4.readSigned (code 5 p ++ rest) = .ok (v, rest) ∧
      v.toInt = away (signed 5 p) (start half 5)) ∧
        ¬Misread .signed4 (code 5 p ++ rest) ∨
      (VarintOps4.readSigned (code 5 p ++ rest) = .error .ub ∨
        ∃ v, VarintOps4.readSigned (code 5 p ++ rest) = .ok (v, rest)) ∧
        Misread .signed4 (code 5 p ++ rest) ∧
        ¬(-2 ^ 31 ≤ away (signed 5 p) (start half 5) ∧ away (signed 5 p) (start half 5) < 2 ^ 31) ∨
      VarintOps4.readSigned (code 5 p ++ rest) = .error .tooLarge ∧
        ¬Misread .signed4 (code 5 p ++ rest) ∧
        ¬(-2 ^ 31 ≤ away (signed 5 p) (start half 5) ∧
          away (signed 5 p) (start half 5) < 2 ^ 31) := by
  have hstart : start half 5 = 0x08102040 := rfl
  have hroom : room 5 = 2 ^ 35 := rfl
  have hint := toInt_ofNat_32 p
  have hle := BitVec.le_toInt (BitVec.ofNat 32 p)
  have hlt : (BitVec.ofNat 32 p).toInt < 2 ^ 31 := BitVec.toInt_lt
  rw [misread4_five hp, readSigned4_five hp, checkedOffset_eq (by decide) (by decide),
    signed_five hp, hstart]
  rw [hroom] at hp
  generalize (BitVec.ofNat 32 p).toInt = y at hint hle hlt ⊢
  simp only [Nat.cast_ofNat]
  rcases eq_or_ne (p / 256 ^ 4) 7 with hseven | hseven
  · have haway : away (if p < 2 ^ 34 then (p : ℤ) else p - 2 ^ 35) 0x08102040 =
      p - 2 ^ 35 - 0x08102040 := by
      rw [if_neg (by omega), away, if_pos (by omega)]
      rfl
    rw [haway, if_pos (.inl hseven), decide_eq_true hseven, if_pos rfl]
    split
    · exact .inr (.inl ⟨.inl rfl, by omega, by omega⟩)
    split
    · have hv :=
        toInt_ofInt_of_mem (w := 32) (z := y - 0x08102040) (by decide) (by omega) (by omega)
      rcases Nat.lt_or_ge (p % 256 ^ 4) 0x08102040 with hcross | hcross
      · exact .inr (.inl ⟨.inr ⟨_, rfl⟩, by omega, by omega⟩)
      · exact .inl ⟨⟨_, rfl, by omega⟩, by omega⟩
    · exact .inr (.inr ⟨rfl, by omega, by omega⟩)
  rcases eq_or_ne (p / 256 ^ 4) 0 with hzero | hzero
  · have haway : away (if p < 2 ^ 34 then (p : ℤ) else p - 2 ^ 35) 0x08102040 = p + 0x08102040 := by
      rw [if_pos (by omega), away, if_neg (by omega)]
      rfl
    rw [haway, if_pos (.inr hzero), decide_eq_false hseven, if_neg Bool.false_ne_true]
    split
    · exact .inr (.inl ⟨.inl rfl, by omega, by omega⟩)
    split
    · exact .inr (.inr ⟨rfl, by omega, by omega⟩)
    · have hv :=
        toInt_ofInt_of_mem (w := 32) (z := y + 0x08102040) (by decide) (by omega) (by omega)
      rcases Nat.lt_or_ge (p % 256 ^ 4) (2 ^ 32 - 0x08102040) with hcross | hcross
      · exact .inl ⟨⟨_, rfl, by omega⟩, by omega⟩
      · exact .inr (.inl ⟨.inr ⟨_, rfl⟩, by omega, by omega⟩)
  · rw [if_neg (by omega)]
    refine .inr (.inr ⟨rfl, by omega, ?_⟩)
    rw [away]
    split <;> split <;> omega

/-- The first byte of a number of four bytes holds its sign only. -/
theorem first_of_coded {b : UInt8} {s : List UInt8} (hp : p < room 5) (h : b :: s = code 5 p)
    (hlow : -2 ^ 31 ≤ away (signed 5 p) (start half 5))
    (hhigh : away (signed 5 p) (start half 5) < 2 ^ 31) :
    b.toNat = 0xF0 ∨ b.toNat = 0xF7 := by
  have hstart : start half 5 = 0x08102040 := rfl
  have hroom : room 5 = 2 ^ 35 := rfl
  have hq : p / 256 ^ 4 = 0 ∨ p / 256 ^ 4 = 7 := by
    rw [signed_five hp, hstart, away] at hlow hhigh
    rw [hroom] at hp
    split at hlow <;> split at hlow <;> split at hhigh <;> omega
  rw [code_eq (by decide), List.cons_eq_cons] at h
  rcases hq with hq | hq
  · exact .inl (by rw [h.1, hq]; rfl)
  · exact .inr (by rw [h.1, hq]; rfl)

/-- What is written is in the range of its type. -/
theorem ne_writeSigned4 (hp : p < room 5)
    (hout : ¬(-2 ^ 31 ≤ away (signed 5 p) (start half 5) ∧
      away (signed 5 p) (start half 5) < 2 ^ 31))
    (v : BitVec 32) (rest rest' : List UInt8) :
    code 5 p ++ rest ≠ VarintOps4.writeSigned v ++ rest' := by
  obtain ⟨L, p', hL, hL5, hp', hbytes, hz⟩ := writeSigned4_coded v
  have hlt : v.toInt < 2 ^ 31 := BitVec.toInt_lt
  have hle : -2 ^ 31 ≤ v.toInt := BitVec.le_toInt v
  rw [hbytes]
  intro heq
  obtain ⟨rfl, rfl, -⟩ := code_append_inj (by decide) (by decide) hp hL (by omega) hp' heq
  rw [← hz] at hout
  exact hout ⟨hle, hlt⟩

theorem signed4_canonical :
    Canonical (fun v => Coded 5 v.toInt) VarintOps4.readSigned VarintOps4.writeSigned
      (Misread .signed4) where
  writes := writeSigned4_coded
  word := by
    rintro v bytes ⟨L, p, hL, hL5, hp, heq, -⟩
    exact ⟨L, p, hL, by omega, hp, heq⟩
  unique := Coded.unique (by decide)
  reads := by
    rintro v bytes rest ⟨L, p, hL, hL5, hp, rfl, hz⟩
    rcases Nat.lt_or_ge L 5 with hlt | hge
    · rw [readSigned4_code hL (by omega) hp, ← hz, BitVec.ofInt_toInt]
    · obtain rfl : L = 5 := by omega
      have hlt : v.toInt < 2 ^ 31 := BitVec.toInt_lt
      have hle : -2 ^ 31 ≤ v.toInt := BitVec.le_toInt v
      obtain ⟨⟨v', hread, hv'⟩, -⟩ | ⟨-, -, hout⟩ | ⟨-, -, hout⟩ := readSigned4_five_cases hp rest
      · rw [hread, BitVec.eq_of_toInt_eq (hv'.trans hz.symm)]
      all_goals
        rw [← hz] at hout
        exact absurd ⟨hle, hlt⟩ hout
  short := by
    rintro v b s ⟨L, p, hL, hL5, hp, heq, hz⟩ s' hs'
    obtain ⟨hann, hlen⟩ := announced_cons hL (by omega) hp heq
    rw [readSigned4_short (by omega), if_pos]
    rcases Nat.lt_or_ge L 5 with hlt | hge
    · exact .inl (by omega)
    · obtain rfl : L = 5 := by omega
      have hlow : -2 ^ 31 ≤ v.toInt := BitVec.le_toInt v
      have hhigh : v.toInt < 2 ^ 31 := BitVec.toInt_lt
      rw [hz] at hlow hhigh
      exact .inr (first_of_coded hp heq hlow hhigh)
  empty := rfl
  outcome := by
    intro s
    obtain hshort | ⟨L, p, rest, hL, hL9, hp, rfl⟩ := short_or_code s
    · refine .inr ⟨not_misread_short hshort, .inl ?_⟩
      obtain rfl | ⟨b, u, rfl, hlt⟩ := hshort
      · exact ⟨_, rfl, nofun⟩
      · exact ⟨_, readSigned4_short hlt, by split <;> nofun⟩
    rcases eq_or_ne L 5 with rfl | hne
    · obtain ⟨⟨v, hread, hv⟩, hgood⟩ | ⟨hread, hbad, hout⟩ | ⟨herr, hgood, -⟩ :=
        readSigned4_five_cases hp rest
      · exact .inr ⟨hgood, .inr ⟨v, code 5 p, rest, hread, ⟨5, p, hL, le_rfl, hp, rfl, hv⟩, rfl⟩⟩
      · exact .inl ⟨hbad,
          hread.imp id fun ⟨v, hok⟩ => ⟨v, rest, hok, ne_writeSigned4 hp hout v rest rest⟩⟩
      · exact .inr ⟨hgood, .inl ⟨_, herr, nofun⟩⟩
    · refine .inr ⟨fun hbad => ?_, ?_⟩
      · obtain ⟨b, hhead, -, ⟨-, hann⟩ | ⟨ht, -⟩⟩ := hbad.first
        · exact hne ((announced_of_head? hL hL9 hp hhead).symm.trans hann)
        · cases ht
      rcases Nat.lt_or_ge L 5 with hlt | hge
      · obtain ⟨hlow, hhigh⟩ := away_small hL (by omega) p
        exact .inr ⟨_, code L p, rest, readSigned4_code hL (by omega) hp rest,
          ⟨L, p, hL, by omega, hp, rfl, toInt_ofInt_of_mem (by decide) hlow hhigh⟩, rfl⟩
      · exact .inl ⟨_, (read4_long (by omega) hL9 hp rest).1, nofun⟩

theorem exists_canonical (t : VarintType) :
    ∃ Code, Canonical Code (readVarint t) (writeVarint t) (Misread t) := by
  cases t with
  | signed4 => exact ⟨_, signed4_canonical⟩
  | unsigned4 => exact ⟨_, unsigned4_canonical⟩
  | signed8 => exact ⟨_, signed8_canonical⟩
  | unsigned8 => exact ⟨_, unsigned8_canonical⟩

/-- What is written is read back, whatever follows it, and its first byte announces its length; a
    part of it is reported as incomplete; and reading is defined, and what is read is what is
    written for the value read, save for the codes of five bytes that `_varint_ops<4>::read_signed`
    accepts although the sign of their payload is not that of their first byte, and the longest
    signed codes whose payload overflows in the range check. -/
theorem varint_canonical (t : VarintType) :
    (∀ v rest, readVarint t (writeVarint t v ++ rest) = .ok (v, rest)) ∧
      (∀ v, (writeVarint t v).head?.map varintSize = some (writeVarint t v).length) ∧
      (∀ v pre, pre <+: writeVarint t v → pre ≠ writeVarint t v →
        readVarint t pre = .error .prematureEof) ∧
      ∀ s, (readVarint t s ≠ .error .ub ∧ ∀ v rest, readVarint t s = .ok (v, rest) →
        s = writeVarint t v ++ rest) ↔
        ¬(Overflows t s ∨ t = .signed4 ∧ Crossed s) := by
  obtain ⟨Code, h⟩ := exists_canonical t
  exact ⟨h.round, h.size, fun v pre => h.incomplete, h.canonical⟩

/-- Five bytes are read as `-0x08102040`, which is written in four; nine bytes make the
    range check overflow. -/
theorem varint_two_codes : (¬∀ v rest, readVarint .signed4 [0xF7, 0, 0, 0, 0] = .ok (v, rest) →
      [0xF7, 0, 0, 0, 0] = writeVarint .signed4 v ++ rest) ∧
    readVarint .signed8 [0xFF, 0x80, 0, 0, 0, 0, 0, 0, 0] = .error .ub := by
  refine ⟨fun h => ?_, by decide⟩
  have hread : readVarint .signed4 [0xF7, 0, 0, 0, 0] = .ok (-0x08102040, []) := by decide
  have hwrite : writeVarint .signed4 (-0x08102040) = [0xE8, 0, 0, 0] := by decide
  have heq := h _ _ hread
  rw [hwrite] at heq
  revert heq
  decide

end Matching.Common
