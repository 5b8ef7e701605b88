import Matching.Common.Json

/-! The text of a value is read back as the value: strings byte by byte, numbers up to the separator
    behind them, and arrays and objects entry by entry. -/

namespace Matching.Common.Json

variable {ρ : Type}

/-! ### Strings -/

theorem fromHex_hex : ∀ n < 16, fromHex (hex.getD n 0) = .ok n := by decide

theorem utf8_control :
    ∀ n < 32, utf8 (0 <<< 12 ||| 0 <<< 8 ||| (n >>> 4) <<< 4 ||| (n &&& (1 <<< 4 - 1))) =
      [UInt8.ofNat n] := by
  decide

theorem stringLoop_plain {c : UInt8} (hq : c ≠ quotationMark) (hr : c ≠ reverseSolidus)
    (rest string : List UInt8) :
    stringLoop (c :: rest) string = stringLoop rest (string ++ [c]) := by
  rw [stringLoop.eq_def]
  simp only [hq, hr, if_false]

theorem stringLoop_short {e c : UInt8} (h : unescape e = some c) (rest string : List UInt8) :
    stringLoop (reverseSolidus :: e :: rest) string = stringLoop rest (string ++ [c]) := by
  rw [stringLoop.eq_def]
  simp only [h, show reverseSolidus ≠ quotationMark by decide, if_false, if_true]

theorem stringLoop_unicode {h3 h2 h1 h0 : UInt8} {n3 n2 n1 n0 : ℕ} (e3 : fromHex h3 = .ok n3)
    (e2 : fromHex h2 = .ok n2) (e1 : fromHex h1 = .ok n1) (e0 : fromHex h0 = .ok n0)
    (rest string : List UInt8) :
    stringLoop (reverseSolidus :: Char.toUInt8 'u' :: h3 :: h2 :: h1 :: h0 :: rest) string =
      stringLoop rest (string ++ utf8 (n3 <<< 12 ||| n2 <<< 8 ||| n1 <<< 4 ||| n0)) := by
  rw [stringLoop.eq_def]
  simp only [show unescape (Char.toUInt8 'u') = none by decide,
    show reverseSolidus ≠ quotationMark by decide, if_false, if_true]
  simp only [e3, e2, e1, e0, bind, Except.bind]

/-- What is written for a byte is read as that byte. -/
theorem stringLoop_escape (c : UInt8) (rest string : List UInt8) :
    stringLoop (escape c ++ rest) string = stringLoop rest (string ++ [c]) := by
  unfold escape
  split_ifs with h1 h2 h3 h4 h5 h6 h7 h8
  · exact h1 ▸ stringLoop_short (by decide) rest string
  · exact h2 ▸ stringLoop_short (by decide) rest string
  · exact h3 ▸ stringLoop_short (by decide) rest string
  · exact h4 ▸ stringLoop_short (by decide) rest string
  · exact h5 ▸ stringLoop_short (by decide) rest string
  · subst h6
    exact stringLoop_short (by decide) rest string
  · subst h7
    exact stringLoop_short (by decide) rest string
  · have hlt : c.toNat < 32 := Nat.lt_succ_of_le (UInt8.le_iff_toNat_le.mp h8)
    have hhigh : c.toNat >>> 4 < 16 := by rw [Nat.shiftRight_eq_div_pow]; omega
    have hlow : c.toNat &&& (1 <<< 4 - 1) < 16 := Nat.lt_succ_of_le Nat.and_le_right
    have hzero : fromHex 0x30 = .ok 0 := by decide
    refine (stringLoop_unicode hzero hzero (fromHex_hex _ hhigh)
      (fromHex_hex _ hlow) rest string).trans ?_
    rw [utf8_control _ hlt, UInt8.ofNat_toNat]
  · exact stringLoop_plain h6 h7 rest string

theorem stringLoop_text : ∀ str rest string : List UInt8,
    stringLoop (str.flatMap escape ++ quotationMark :: rest) string = .ok (string ++ str, rest)
  | [], rest, string => by
    rw [List.flatMap_nil, List.nil_append, stringLoop.eq_def]
    simp only [if_true, List.append_nil]
  | c :: str, rest, string => by
    rw [List.flatMap_cons, List.append_assoc, stringLoop_escape, stringLoop_text str rest,
      List.append_assoc, List.singleton_append]

/-! ### Numbers -/

/-- A separator or the end of a container, which ends a number. -/
inductive Terminated : List UInt8 → Prop where
  | comma (rest : List UInt8) : Terminated (comma :: rest)
  | rightBracket (rest : List UInt8) : Terminated (rightBracket :: rest)
  | rightBrace (rest : List UInt8) : Terminated (rightBrace :: rest)

/-- The characters that may go on with a number. -/
def goesOn (c : UInt8) : Bool := isDigit c ∨ c = dot ∨ c ||| 0x20 = Char.toUInt8 'e'

theorem Terminated.head {rest : List UInt8} (h : Terminated rest) :
    ∃ c rest', rest = c :: rest' ∧ goesOn c = false := by
  cases h with
  | comma rest => exact ⟨_, rest, rfl, by decide⟩
  | rightBracket rest => exact ⟨_, rest, rfl, by decide⟩
  | rightBrace rest => exact ⟨_, rest, rfl, by decide⟩

theorem isDigit_ofNat : ∀ n < 10, isDigit (UInt8.ofNat (0x30 + n)) = true := by decide

theorem digit_value : ∀ n < 10, (UInt8.ofNat (0x30 + n)).toNat - 0x30 = n := by decide

theorem decimal_isDigit (n : ℕ) : ∀ c ∈ decimal n, isDigit c = true := by
  intro c hc
  unfold decimal at hc
  split at hc
  · rw [List.mem_singleton.mp hc]
    decide
  · obtain ⟨i, hi, rfl⟩ := List.mem_map.mp hc
    exact isDigit_ofNat i (Nat.digits_lt_base (by decide) (List.mem_reverse.mp hi))

theorem digitsValue_decimal (n : ℕ) : digitsValue (decimal n) = n := by
  unfold decimal
  split
  · next h =>
    subst h
    decide
  · rw [digitsValue, List.map_map, List.map_congr_left (g := id) ?_, List.map_id, readDigits_digits]
    intro i hi
    exact digit_value i (Nat.digits_lt_base (by decide) (List.mem_reverse.mp hi))

/-- A number that is not zero starts with another digit. -/
theorem decimal_head {n : ℕ} (hn : n ≠ 0) :
    ∃ c ds, decimal n = c :: ds ∧ isDigit c = true ∧ c ≠ 0x30 := by
  have hne := Nat.digits_ne_nil_iff_ne_zero (b := 10) |>.mpr hn
  have htop := Nat.getLast_digit_ne_zero 10 hn
  rw [← List.head_reverse (by simpa using hne)] at htop
  have hmem := decimal_isDigit n
  have hlt := fun d (hd : d ∈ (Nat.digits 10 n).reverse) => Nat.digits_lt_base (b := 10) (by decide)
    (List.mem_reverse.mp hd)
  rw [decimal, if_neg hn] at hmem ⊢
  rcases hds : (Nat.digits 10 n).reverse with _ | ⟨d, ds⟩
  · exact absurd hds (by simpa using hne)
  · simp only [hds, List.head_cons, List.map_cons, List.mem_cons] at htop hmem hlt ⊢
    refine ⟨_, _, rfl, hmem _ (Or.inl rfl), fun h => htop ?_⟩
    have hval := digit_value d (hlt d (Or.inl rfl))
    rw [h] at hval
    exact hval.symm

theorem decimal_length {n : ℕ} (h : n < 10 ^ 32) : (decimal n).length ≤ 32 := by
  unfold decimal
  split
  · decide
  · rw [List.length_map, List.length_reverse]
    exact (Nat.digits_length_le_iff (by decide) n).mpr h

theorem takeWhile_digits {ds rest : List UInt8} (hds : ∀ c ∈ ds, isDigit c = true)
    (h : Terminated rest) :
    (ds ++ rest).takeWhile isDigit = ds ∧ (ds ++ rest).dropWhile isDigit = rest := by
  obtain ⟨c, rest', rfl, hc⟩ := h.head
  have hc' : isDigit c = false := by
    simp only [goesOn, decide_eq_false_iff_not, not_or] at hc
    simpa using hc.1
  rw [List.takeWhile_append_of_pos hds, List.dropWhile_append_of_pos hds]
  simp [hc']

theorem copyDigits_append {ds rest : List UInt8} {limit : ℕ} (hds : ∀ c ∈ ds, isDigit c = true)
    (h : Terminated rest) (hpos : ds ≠ []) (hle : ds.length ≤ limit) :
    copyDigits (ds ++ rest) limit = .ok (ds, rest) := by
  obtain ⟨htake, hdrop⟩ := takeWhile_digits hds h
  rw [copyDigits, htake, hdrop, if_neg (by simpa using hpos), if_neg (by omega)]

theorem optional_self {c : UInt8 → Bool} {a : UInt8} (h : c a = true) (rest : List UInt8) :
    optional c (a :: rest) = ([a], rest) := by
  simp [optional, h]

theorem optional_other {c : UInt8 → Bool} {a : UInt8} (h : c a = false) (rest : List UInt8) :
    optional c (a :: rest) = ([], a :: rest) := by
  simp [optional, h]

theorem Terminated.optional_none {c : UInt8 → Bool} {rest : List UInt8} (h : Terminated rest)
    (hc : ∀ a, c a = true → goesOn a = true) :
    optional c rest = ([], rest) := by
  obtain ⟨a, rest', rfl, ha⟩ := h.head
  refine optional_other (Bool.eq_false_iff.mpr (fun hca => ?_)) rest'
  rw [hc a hca] at ha
  cases ha

theorem parseInteger_decimal (value : Int64) :
    parseInteger (value.toInt < 0) (decimal value.toInt.natAbs) = (value, false) := by
  have hx :
      (if decide (value.toInt < 0) = true then -(value.toInt.natAbs : ℤ) else value.toInt.natAbs) =
        value.toInt := by
    split_ifs with h
    · have := of_decide_eq_true h
      omega
    · rw [decide_eq_true_eq] at h
      omega
  have hlo := value.le_toInt
  have hhi := value.toInt_lt
  rw [parseInteger, digitsValue_decimal]
  simp only [hx]
  rw [if_neg (by omega), if_neg (by omega), Int64.ofInt_toInt]

/-- The integer part is one zero, or digits that do not start with one. -/
theorem read_decimal {n : ℕ} (hn : n < 10 ^ 32) {rest : List UInt8} (h : Terminated rest) :
    optional (· = 0x30) (decimal n ++ rest) = (decimal n, rest) ∧ decimal n ≠ [] ∨
      optional (· = 0x30) (decimal n ++ rest) = ([], decimal n ++ rest) ∧
        copyDigits (decimal n ++ rest) 32 = .ok (decimal n, rest) := by
  rcases Nat.eq_zero_or_pos n with rfl | hpos
  · exact Or.inl ⟨optional_self (by decide) rest, by decide⟩
  · obtain ⟨c, ds, hds, hc, hne⟩ := decimal_head hpos.ne'
    refine Or.inr ⟨?_, copyDigits_append (decimal_isDigit n) h (by simp [hds]) (decimal_length hn)⟩
    rw [hds]
    exact optional_other (decide_eq_false hne) _

theorem read_sign (value : Int64) (rest : List UInt8) :
    optional (· = minus) (formatInteger value ++ rest) =
      (if value.toInt < 0 then [minus] else [], decimal value.toInt.natAbs ++ rest) := by
  unfold formatInteger
  split
  · exact optional_self (by decide) _
  · rcases Nat.eq_zero_or_pos value.toInt.natAbs with hzero | hpos
    · rw [hzero]
      exact optional_other (by decide) rest
    · obtain ⟨c, ds, hds, hc, -⟩ := decimal_head hpos.ne'
      rw [hds]
      refine optional_other (decide_eq_false ?_) _
      rintro rfl
      revert hc
      decide

theorem parseNumber_formatInteger (d : Doubles ρ) (value : Int64) {rest : List UInt8}
    (h : Terminated rest) :
    parseNumber d ⟨formatInteger value ++ rest, false⟩ = .ok (.integer value, ⟨rest, false⟩) := by
  have hlo := value.le_toInt
  have hhi := value.toInt_lt
  have hvalue := parseInteger_decimal value
  have hdot : optional (· = dot) rest = ([], rest) := h.optional_none (by simp +contextual [goesOn])
  have hexp : optional (fun c => c ||| 0x20 = Char.toUInt8 'e') rest = ([], rest) :=
    h.optional_none (by simp +contextual [goesOn])
  have hsign : (if value.toInt < 0 then [minus] else []) ≠ [] ↔ value.toInt < 0 := by simp
  rw [ne_eq] at hsign
  rw [parseNumber]
  rcases read_decimal (n := value.toInt.natAbs) (by omega) h with ⟨hzero, hne⟩ | ⟨hzero, hcopy⟩
  · simp only [read_sign, hsign, hvalue, hzero, hne, hdot, hexp, bind, Except.bind, pure,
      Except.pure, ne_eq, not_true, or_self, if_true, if_false, Bool.or_false]
  · simp only [read_sign, hsign, hvalue, hzero, hcopy, hdot, hexp, bind, Except.bind, pure,
      Except.pure, ne_eq, not_true, or_self, if_true, if_false, Bool.or_false]

/-! ### What is built -/

mutual

/-- Objects, arrays, integers, booleans, nulls and strings, where the entries of an object are in
    the order of their keys. -/
def Built : Value ρ → Prop
  | .real _ => False
  | .array vector => BuiltVector vector
  | .object map => BuiltMap map
  | _ => True

def BuiltVector : List (Value ρ) → Prop
  | [] => True
  | value :: vector => Built value ∧ BuiltVector vector

def BuiltMap : List (List UInt8 × Value ρ) → Prop
  | [] => True
  | (key, value) :: map => (∀ e ∈ map, Before key e.1) ∧ Built value ∧ BuiltMap map

end

/-- An object or an array. -/
inductive Container : Value ρ → Prop where
  | array (vector : List (Value ρ)) : Container (.array vector)
  | object (map : List (List UInt8 × Value ρ)) : Container (.object map)

/-- A key behind all others is put at the end. -/
theorem emplace_last {α : Type} {key : List UInt8} (value : α) : ∀ {map : List (List UInt8 × α)},
    (∀ e ∈ map, Before e.1 key) → emplace key value map = map ++ [(key, value)]
  | [], _ => rfl
  | e :: map, h => by
    have he : Before e.1 key := h e List.mem_cons_self
    have hnot : ¬ Before key e.1 := lt_asymm he
    rw [emplace, if_neg hnot, if_pos he,
      emplace_last value (fun e' he' => h e' (List.mem_cons_of_mem e he')), List.cons_append]

/-! ### Single steps of the reader -/

namespace IStream

theorem ws_cons {c : UInt8} (h : isSpace c = false) (rest : List UInt8) :
    ws ⟨c :: rest, false⟩ = ⟨c :: rest, false⟩ := by
  simp [ws, h]

theorem peek_cons (c : UInt8) (rest : List UInt8) : peek ⟨c :: rest, false⟩ = some c := rfl

theorem get_cons (c : UInt8) (rest : List UInt8) : (get ⟨c :: rest, false⟩).2 = ⟨rest, false⟩ := rfl

theorem expect_cons (c : UInt8) (what : String) (rest : List UInt8) :
    expect ⟨c :: rest, false⟩ c what = .ok ⟨rest, false⟩ := by
  simp [expect, peek, get]

end IStream

theorem parseString_formatString (str rest : List UInt8) :
    parseString ⟨formatString str ++ rest, false⟩ = .ok (str, ⟨rest, false⟩) := by
  have htext : formatString str ++ rest =
      quotationMark :: (str.flatMap escape ++ quotationMark :: rest) := by
    simp [formatString]
  rw [parseString, htext, IStream.ws_cons (by decide), IStream.expect_cons]
  simp only [bind, Except.bind, stringLoop_text, List.nil_append, pure, Except.pure]

/-- A written integer starts with a minus or a digit. -/
theorem formatInteger_head (value : Int64) :
    ∃ c text, formatInteger value = c :: text ∧ (c = minus ∨ isDigit c = true) := by
  unfold formatInteger
  split
  · exact ⟨minus, _, rfl, Or.inl rfl⟩
  · rcases Nat.eq_zero_or_pos value.toInt.natAbs with hzero | hpos
    · exact ⟨0x30, [], by rw [hzero]; rfl, Or.inr (by decide)⟩
    · obtain ⟨c, ds, hds, hc, -⟩ := decimal_head hpos.ne'
      exact ⟨c, ds, hds, Or.inr hc⟩

/-- The first character of a number, a string, a word or a container. -/
def starts (c : UInt8) : Bool :=
  c = minus ∨ isDigit c ∨ c = quotationMark ∨ c = leftBracket ∨ c = leftBrace ∨
    c ∈ ascii ['t', 'f', 'n']

theorem format_head (d : Doubles ρ) (value : Value ρ) (h : Built value) :
    ∃ c text, format d value = c :: text ∧ starts c = true := by
  cases value with
  | null => exact ⟨_, _, rfl, by decide⟩
  | boolean value =>
    cases value
    · exact ⟨_, _, rfl, by decide⟩
    · exact ⟨_, _, rfl, by decide⟩
  | integer value =>
    obtain ⟨c, text, htext, hc⟩ := formatInteger_head value
    exact ⟨c, text, htext, by simp only [starts, decide_eq_true_eq]; tauto⟩
  | real value => exact h.elim
  | string string => exact ⟨_, _, rfl, by decide⟩
  | array vector => exact ⟨_, _, rfl, by decide⟩
  | object map => exact ⟨_, _, rfl, by decide⟩

theorem not_isSpace_of_isDigit {c : UInt8} (h : isDigit c = true) : isSpace c = false := by
  simp only [isDigit, isSpace, decide_eq_true_eq, decide_eq_false_iff_not, UInt8.le_iff_toNat_le,
    ← UInt8.toNat_inj] at h ⊢
  simp only [UInt8.toNat_ofNat] at h ⊢
  omega

theorem ne_of_isDigit {c a : UInt8} (h : isDigit c = true) (ha : isDigit a = false) : c ≠ a := by
  rintro rfl
  rw [h] at ha
  cases ha

/-- White space is not skipped, and no container ends, before a value. -/
theorem starts_spec {c : UInt8} (h : starts c = true) : isSpace c = false ∧ c ≠ rightBracket := by
  simp only [starts, decide_eq_true_eq, ascii, List.map_cons, List.map_nil, List.mem_cons,
    List.not_mem_nil, or_false] at h
  rcases h with rfl | hc | rfl | rfl | rfl | rfl | rfl | rfl
  · decide
  · exact ⟨not_isSpace_of_isDigit hc, ne_of_isDigit hc (by decide)⟩
  · decide
  · decide
  · decide
  · decide
  · decide
  · decide

theorem parseWord_append (word : List Char) (value : Value ρ) (rest : List UInt8) :
    parseWord word value ⟨ascii word ++ rest, false⟩ = .ok (value, ⟨rest, false⟩) := by
  rw [parseWord, if_pos (List.isPrefixOf_iff_prefix.mpr (List.prefix_append _ _))]
  simp only [ascii, List.drop_left' (List.length_map _)]

/-- What the loop of an array has still to read. -/
def vectorText (d : Doubles ρ) (vector : List (Value ρ)) (first : Bool) (rest : List UInt8) :
    List UInt8 :=
  (if vector.isEmpty then [] else (if first then [] else [comma]) ++ formatVector d vector) ++
    rightBracket :: rest

/-- What the loop of an object has still to read. -/
def mapText (d : Doubles ρ) (map : List (List UInt8 × Value ρ)) (first : Bool) (rest : List UInt8) :
    List UInt8 :=
  (if map.isEmpty then [] else (if first then [] else [comma]) ++ formatMap d map) ++
    rightBrace :: rest

theorem vectorText_terminated (d : Doubles ρ) (vector : List (Value ρ)) (rest : List UInt8) :
    Terminated (vectorText d vector false rest) := by
  cases vector with
  | nil => exact .rightBracket rest
  | cons value vector => exact .comma _

theorem mapText_terminated (d : Doubles ρ) (map : List (List UInt8 × Value ρ)) (rest : List UInt8) :
    Terminated (mapText d map false rest) := by
  cases map with
  | nil => exact .rightBrace rest
  | cons e map => exact .comma _

theorem parseVector_end (d : Doubles ρ) (fuel : ℕ) (first : Bool) (rest : List UInt8)
    (vector : List (Value ρ)) :
    parseVector d (fuel + 1) ⟨vectorText d [] first rest, false⟩ vector =
      .ok (vector, ⟨rest, false⟩) := by
  rw [parseVector]
  rfl

theorem parseMap_end (d : Doubles ρ) (fuel : ℕ) (first : Bool) (rest : List UInt8)
    (map : List (List UInt8 × Value ρ)) :
    parseMap d (fuel + 1) ⟨mapText d [] first rest, false⟩ map = .ok (map, ⟨rest, false⟩) := by
  rw [parseMap]
  rfl

/-- A turn of the loop of an array. -/
theorem parseVector_turn {d : Doubles ρ} {fuel : ℕ} {value : Value ρ}
    {vector read : List (Value ρ)} {rest : List UInt8} (hb : Built value)
    (h : ∀ rest, Terminated rest →
      parseValue d fuel ⟨format d value ++ rest, false⟩ = .ok (value, ⟨rest, false⟩)) :
    parseVector d (fuel + 1) ⟨vectorText d (value :: vector) read.isEmpty rest, false⟩ read =
      parseVector d fuel ⟨vectorText d vector false rest, false⟩ (read ++ [value]) := by
  have htext : vectorText d (value :: vector) read.isEmpty rest =
      (if read.isEmpty then [] else [comma]) ++
        (format d value ++ vectorText d vector false rest) := by
    cases vector <;> simp [vectorText, formatVector]
  obtain ⟨c, text, hc, hs⟩ := format_head d value hb
  obtain ⟨hspace, hne⟩ := starts_spec hs
  have hvalue := h _ (vectorText_terminated d vector rest)
  rw [parseVector, htext]
  cases read with
  | nil =>
    simp only [List.isEmpty_nil, if_true, List.nil_append]
    rw [hc, List.cons_append] at hvalue ⊢
    simp only [IStream.ws_cons hspace, IStream.peek_cons, Option.some.injEq, hne, if_false, bind,
      Except.bind, hvalue]
  | cons first read =>
    have hcomma : comma ≠ rightBracket := by decide
    simp only [List.isEmpty_cons, Bool.false_eq_true, if_false, List.singleton_append,
      IStream.ws_cons (c := comma) (by decide), IStream.peek_cons, Option.some.injEq, hcomma,
      IStream.expect_cons, bind, Except.bind, hvalue]

/-- A turn of the loop of an object. -/
theorem parseMap_turn {d : Doubles ρ} {fuel : ℕ} {key : List UInt8} {value : Value ρ}
    {map read : List (List UInt8 × Value ρ)} {rest : List UInt8}
    (hread : ∀ e ∈ read, Before e.1 key)
    (h : ∀ rest, Terminated rest →
      parseValue d fuel ⟨format d value ++ rest, false⟩ = .ok (value, ⟨rest, false⟩)) :
    parseMap d (fuel + 1) ⟨mapText d ((key, value) :: map) read.isEmpty rest, false⟩ read =
      parseMap d fuel ⟨mapText d map false rest, false⟩ (read ++ [(key, value)]) := by
  have htext : mapText d ((key, value) :: map) read.isEmpty rest =
      (if read.isEmpty then [] else [comma]) ++
        (formatString key ++ (colon :: (format d value ++ mapText d map false rest))) := by
    cases map <;> simp [mapText, formatMap]
  have hkey := parseString_formatString key (colon :: (format d value ++ mapText d map false rest))
  have hvalue := h _ (mapText_terminated d map rest)
  have hquote : quotationMark ≠ rightBrace := by decide
  have hcomma : comma ≠ rightBrace := by decide
  rw [parseMap, htext, ← emplace_last value hread]
  cases read with
  | nil =>
    simp only [List.isEmpty_nil, if_true, List.nil_append]
    rw [formatString, List.cons_append, List.cons_append] at hkey ⊢
    simp only [IStream.ws_cons (c := quotationMark) (by decide), IStream.peek_cons,
      Option.some.injEq, hquote, if_false, if_true, bind, Except.bind, hkey,
      IStream.ws_cons (c := colon) (by decide), IStream.expect_cons, hvalue]
  | cons first read =>
    simp only [List.isEmpty_cons, Bool.false_eq_true, if_false, List.singleton_append,
      IStream.ws_cons (c := comma) (by decide), IStream.peek_cons, Option.some.injEq, hcomma,
      IStream.expect_cons, bind, Except.bind, hkey,
      IStream.ws_cons (c := colon) (by decide), hvalue]

/-! ### Values without parts -/

theorem parseValue_integer (d : Doubles ρ) (fuel : ℕ) (value : Int64) {rest : List UInt8}
    (h : Terminated rest) :
    parseValue d (fuel + 1) ⟨formatInteger value ++ rest, false⟩ =
      .ok (.integer value, ⟨rest, false⟩) := by
  obtain ⟨c, text, htext, hc⟩ := formatInteger_head value
  have hnumber := parseNumber_formatInteger d value h
  have hspace : isSpace c = false := by
    rcases hc with rfl | hc
    · decide
    · exact not_isSpace_of_isDigit hc
  have hbrace : c ≠ leftBrace := by
    rcases hc with rfl | hc
    · decide
    · exact ne_of_isDigit hc (by decide)
  have hbracket : c ≠ leftBracket := by
    rcases hc with rfl | hc
    · decide
    · exact ne_of_isDigit hc (by decide)
  rw [htext, List.cons_append] at hnumber ⊢
  rw [parseValue]
  simp only [IStream.ws_cons hspace, IStream.peek_cons, hbrace, hbracket, if_false, hc,
    if_true, hnumber]

theorem parseValue_string (d : Doubles ρ) (fuel : ℕ) (string rest : List UInt8) :
    parseValue d (fuel + 1) ⟨formatString string ++ rest, false⟩ =
      .ok (.string string, ⟨rest, false⟩) := by
  have hstring := parseString_formatString string rest
  rw [formatString, List.cons_append, List.cons_append] at hstring ⊢
  rw [parseValue]
  simp only [IStream.ws_cons (c := quotationMark) (by decide), IStream.peek_cons, hstring, bind,
    Except.bind, pure, Except.pure]
  rfl

theorem parseValue_array (d : Doubles ρ) (fuel : ℕ) (vector : List (Value ρ)) (rest : List UInt8) :
    parseValue d (fuel + 1) ⟨format d (.array vector) ++ rest, false⟩ =
      (parseVector d fuel ⟨vectorText d vector true rest, false⟩ []).map
        (fun r => (.array r.1, r.2)) := by
  have htext : format d (.array vector) ++ rest = leftBracket :: vectorText d vector true rest := by
    cases vector <;> simp [format, vectorText, formatVector]
  have hbrace : leftBracket ≠ leftBrace := by decide
  rw [parseValue, htext]
  simp only [IStream.ws_cons (c := leftBracket) (by decide), IStream.peek_cons, IStream.get_cons,
    hbrace, if_false, if_true]
  cases parseVector d fuel ⟨vectorText d vector true rest, false⟩ [] with
  | error e => rfl
  | ok r => rfl

theorem parseValue_object (d : Doubles ρ) (fuel : ℕ) (map : List (List UInt8 × Value ρ))
    (rest : List UInt8) :
    parseValue d (fuel + 1) ⟨format d (.object map) ++ rest, false⟩ =
      (parseMap d fuel ⟨mapText d map true rest, false⟩ []).map (fun r => (.object r.1, r.2)) := by
  have htext : format d (.object map) ++ rest = leftBrace :: mapText d map true rest := by
    cases map <;> simp [format, mapText, formatMap]
  rw [parseValue, htext]
  simp only [IStream.ws_cons (c := leftBrace) (by decide), IStream.peek_cons,
    IStream.get_cons, if_true]
  cases parseMap d fuel ⟨mapText d map true rest, false⟩ [] with
  | error e => rfl
  | ok r => rfl

theorem parseValue_boolean (d : Doubles ρ) (fuel : ℕ) (value : Bool) (rest : List UInt8) :
    parseValue d (fuel + 1) ⟨format d (.boolean value) ++ rest, false⟩ =
      .ok (.boolean value, ⟨rest, false⟩) := by
  cases value with
  | true => exact parseWord_append ['r', 'u', 'e'] (.boolean true) rest
  | false => exact parseWord_append ['a', 'l', 's', 'e'] (.boolean false) rest

theorem parseValue_null (d : Doubles ρ) (fuel : ℕ) (rest : List UInt8) :
    parseValue d (fuel + 1) ⟨format d .null ++ rest, false⟩ = .ok (.null, ⟨rest, false⟩) :=
  parseWord_append ['u', 'l', 'l'] .null rest

theorem formatVector_length (d : Doubles ρ) (value : Value ρ) (vector : List (Value ρ)) :
    (format d value).length ≤ (formatVector d (value :: vector)).length ∧
      (vector = [] ∨ (format d value).length + (formatVector d vector).length <
        (formatVector d (value :: vector)).length) := by
  cases vector with
  | nil => simp [formatVector]
  | cons value' vector =>
    rw [formatVector, List.length_append, if_neg (by simp), List.length_cons]
    omega

theorem formatMap_length (d : Doubles ρ) (key : List UInt8) (value : Value ρ)
    (map : List (List UInt8 × Value ρ)) :
    (format d value).length + 2 ≤ (formatMap d ((key, value) :: map)).length ∧
      (format d value).length + (formatMap d map).length <
        (formatMap d ((key, value) :: map)).length := by
  have hkey : 2 ≤ (formatString key).length := by simp [formatString]
  cases map with
  | nil =>
    simp only [formatMap, List.isEmpty_nil, if_true, List.length_append, List.length_cons,
      List.length_nil]
    omega
  | cons e map =>
    rw [formatMap, List.length_append, List.length_append, List.length_cons, if_neg (by simp),
      List.length_cons]
    omega

/-! ### Whole values -/

mutual

/-- The fuel covers the text, and behind a number there is a separator or the end of a container. -/
theorem parseValue_format (d : Doubles ρ) :
    ∀ (value : Value ρ) (fuel : ℕ) (rest : List UInt8), Built value →
    Container value ∨ Terminated rest → (format d value).length ≤ fuel →
    parseValue d fuel ⟨format d value ++ rest, false⟩ = .ok (value, ⟨rest, false⟩)
  | value, 0, rest, hb, _, hfuel => by
    obtain ⟨c, text, htext, -⟩ := format_head d value hb
    rw [htext] at hfuel
    cases hfuel
  | .null, fuel + 1, rest, _, _, _ => parseValue_null d fuel rest
  | .boolean value, fuel + 1, rest, _, _, _ => parseValue_boolean d fuel value rest
  | .integer value, fuel + 1, rest, _, hc, _ => by
    rcases hc with hc | hc
    · cases hc
    · exact parseValue_integer d fuel value hc
  | .real value, _ + 1, _, hb, _, _ => hb.elim
  | .string string, fuel + 1, rest, _, _, _ => parseValue_string d fuel string rest
  | .array vector, fuel + 1, rest, hb, _, hfuel => by
    have hvector := parseVector_format d vector fuel [] rest hb (by simpa [format] using hfuel)
    rw [List.isEmpty_nil, List.nil_append] at hvector
    rw [parseValue_array, hvector]
    rfl
  | .object map, fuel + 1, rest, hb, _, hfuel => by
    have hmap := parseMap_format d map fuel [] rest hb (by simp) (by simpa [format] using hfuel)
    rw [List.isEmpty_nil, List.nil_append] at hmap
    rw [parseValue_object, hmap]
    rfl

theorem parseVector_format (d : Doubles ρ) :
    ∀ (vector : List (Value ρ)) (fuel : ℕ) (read : List (Value ρ)) (rest : List UInt8),
    BuiltVector vector → (formatVector d vector).length < fuel →
    parseVector d fuel ⟨vectorText d vector read.isEmpty rest, false⟩ read =
      .ok (read ++ vector, ⟨rest, false⟩)
  | [], fuel + 1, read, rest, _, _ => by rw [parseVector_end, List.append_nil]
  | value :: vector, fuel + 1, read, rest, ⟨hb, hbs⟩, hfuel => by
    obtain ⟨c, text, htext, -⟩ := format_head d value hb
    obtain ⟨hle, hlt⟩ := formatVector_length d value vector
    have hpos : 0 < (format d value).length := by rw [htext]; exact Nat.zero_lt_succ _
    have hlens : (formatVector d vector).length < fuel := by
      rcases hlt with rfl | hlt
      · rw [formatVector, List.length_nil]
        omega
      · omega
    have hrest := parseVector_format d vector fuel (read ++ [value]) rest hbs hlens
    have hnext : (read ++ [value]).isEmpty = false := by simp
    rw [hnext, List.append_assoc, List.singleton_append] at hrest
    rw [parseVector_turn hb
      (fun rest' hr => parseValue_format d value fuel rest' hb (Or.inr hr) (by omega)), hrest]

theorem parseMap_format (d : Doubles ρ) :
    ∀ (map : List (List UInt8 × Value ρ)) (fuel : ℕ) (read : List (List UInt8 × Value ρ))
    (rest : List UInt8), BuiltMap map → (∀ e ∈ read, ∀ e' ∈ map, Before e.1 e'.1) →
      (formatMap d map).length < fuel →
    parseMap d fuel ⟨mapText d map read.isEmpty rest, false⟩ read = .ok (read ++ map, ⟨rest, false⟩)
  | [], fuel + 1, read, rest, _, _, _ => by rw [parseMap_end, List.append_nil]
  | (key, value) :: map, fuel + 1, read, rest, ⟨hkey, hb, hbs⟩, hread, hfuel => by
    obtain ⟨hle, hlt⟩ := formatMap_length d key value map
    have hread' : ∀ e ∈ read ++ [(key, value)], ∀ e' ∈ map, Before e.1 e'.1 := by
      intro e he e' he'
      rcases List.mem_append.mp he with he | he
      · exact hread e he e' (List.mem_cons_of_mem _ he')
      · rw [List.mem_singleton.mp he]
        exact hkey e' he'
    have hrest := parseMap_format d map fuel (read ++ [(key, value)]) rest hbs hread' (by omega)
    have hnext : (read ++ [(key, value)]).isEmpty = false := by simp
    rw [hnext, List.append_assoc, List.singleton_append] at hrest
    rw [parseMap_turn (fun e he => hread e he _ List.mem_cons_self)
      (fun rest' hr => parseValue_format d value fuel rest' hb (Or.inr hr) (by omega)), hrest]

end

/-- A built object or array is read back from its text, and nothing behind the text is read. -/
theorem parse_of_format (d : Doubles ρ) (value : Value ρ) (hb : Built value)
    (hc : Container value) (rest : List UInt8) :
    parse d ⟨format d value ++ rest, false⟩ = .ok (value, ⟨rest, false⟩) := by
  refine parseValue_format d value _ rest hb (Or.inl hc) ?_
  rw [List.length_append]
  omega

/-- Nested containers, an escaped key, and a number in front of a bracket. -/
theorem parse_of_format_nested :
    parse (⟨fun _ => [], fun _ => ((), false)⟩ : Doubles Unit)
        ⟨format ⟨fun _ => [], fun _ => ((), false)⟩
          (.object [([], .array [.null, .integer (-5)]), ([0x00, 0xFF], .object [])]) ++ [0x5D],
            false⟩ =
      .ok (.object [([], .array [.null, .integer (-5)]), ([0x00, 0xFF], .object [])],
        ⟨[0x5D], false⟩) :=
  parse_of_format _ _ (by simp only [Built, BuiltMap, BuiltVector]; decide) (.object _) _

end Matching.Common.Json
