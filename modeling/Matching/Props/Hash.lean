import Matching.Common.Hash
import Matching.Lib.Stream

/-! A hash of a message does not depend on how the message was cut into calls of `write`: it
    is the fold of `update` over the blocks of the padded message. `HMAC` is then the nested
    hash over the masked key. -/

namespace Matching.Common

variable {ω : Type} (H : HashType ω)

/-! ### What the classes compute -/

namespace HashType

/-- How many zeros there are between the marker and the length of a message of `n` bytes: as few as
    fill the last block. -/
def zeros (n : ℕ) : ℕ := (H.blockSize - (n + 1 + H.lengthSize) % H.blockSize) % H.blockSize

/-- The message with its marker, the zeros and its length in bits. -/
def padded (m : List UInt8) : List UInt8 :=
  m ++ [0x80] ++ (List.replicate (H.zeros m.length) 0 ++
    endianBytes H.bigEndian H.lengthSize (8 * m.length % 2 ^ (8 * H.lengthSize)))

/-- The hash of a message. -/
def hash (m : List UInt8) : List UInt8 :=
  Hash.digestBytes H ((blocks H.blockSize (H.padded m)).foldl H.update H.init)

/-- The key of an `HMAC`, of the length of a block. -/
def hmacKey (key : List UInt8) : List UInt8 :=
  let k :=
    if H.blockSize < key.length then (H.hash key).take (min H.digestSize H.blockSize) else key
  k ++ List.replicate (H.blockSize - k.length) 0

/-- The `HMAC` of a message. -/
def hmac (key m : List UInt8) : List UInt8 :=
  H.hash ((H.hmacKey key).map (· ^^^ 0x5c) ++ H.hash ((H.hmacKey key).map (· ^^^ 0x36) ++ m))

/-- The padding fills the last block. -/
theorem dvd_add_zeros (n : ℕ) : H.blockSize ∣ n + 1 + H.lengthSize + H.zeros n := by
  have hpos := H.blockSize_pos
  have hlt := Nat.mod_lt (n + 1 + H.lengthSize) hpos
  have hdiv := Nat.div_add_mod (n + 1 + H.lengthSize) H.blockSize
  rw [zeros]
  rcases Nat.eq_zero_or_pos ((n + 1 + H.lengthSize) % H.blockSize) with hzero | hmod
  · rw [hzero, Nat.sub_zero, Nat.mod_self, Nat.add_zero]
    exact Nat.dvd_of_mod_eq_zero hzero
  · rw [Nat.mod_eq_of_lt (a := H.blockSize - _) (by omega)]
    refine ⟨(n + 1 + H.lengthSize) / H.blockSize + 1, ?_⟩
    rw [Nat.mul_succ]
    omega

end HashType

namespace Hash

variable {H} {s : Hash ω}

/-! ### Calls of `write` -/

/-- The object after whole blocks. -/
def absorbAll (H : HashType ω) (s : Hash ω) (bs : List (List UInt8)) : Hash ω :=
  bs.foldl (absorb H) s

/-- The loop cuts its input into blocks. -/
theorem absorbBlocks_eq : ∀ (fuel : ℕ) (s : Hash ω) (buf : List UInt8), buf.length ≤ fuel →
    absorbBlocks H fuel s buf = (absorbAll H s (blocks H.blockSize buf), remainder H.blockSize buf)
  | 0, s, buf, hfuel => by
    obtain rfl := List.length_eq_zero_iff.mp (Nat.le_zero.mp hfuel)
    rw [blocks_of_lt H.blockSize_pos, remainder_of_lt H.blockSize_pos]
    rfl
  | fuel + 1, s, buf, hfuel => by
    have hpos := H.blockSize_pos
    rw [absorbBlocks]
    split
    · next hle =>
      have hlen : (buf.take H.blockSize).length = H.blockSize := List.length_take_of_le hle
      have hblocks := blocks_block hpos hlen (buf.drop H.blockSize)
      have hrem := remainder_block hpos hlen (buf.drop H.blockSize)
      rw [List.take_append_drop] at hblocks hrem
      rw [absorbBlocks_eq fuel _ _ (by rw [List.length_drop]; omega), hblocks, hrem]
      rfl
    · next hlt =>
      rw [blocks_of_lt (Nat.not_le.mp hlt), remainder_of_lt (Nat.not_le.mp hlt)]
      rfl

/-- A call of `write` absorbs the blocks that what is buffered and what is written make together. -/
theorem write_eq (hs : s.buffer.length < H.blockSize) (buf : List UInt8) :
    s.write H buf =
      { absorbAll H { s with buffer := [] } (blocks H.blockSize (s.buffer ++ buf)) with
        buffer := remainder H.blockSize (s.buffer ++ buf) } := by
  have hloop : ∀ (t : Hash ω) (rest : List UInt8), writeBlocks H t rest =
      { absorbAll H t (blocks H.blockSize rest) with buffer := remainder H.blockSize rest } :=
        fun t rest => by
    rw [writeBlocks, absorbBlocks_eq _ _ _ (Nat.le_refl _)]
  unfold write
  split
  · simp only
    split
    · next hshort =>
      have hlt : (s.buffer ++ buf).length < H.blockSize := by
        rw [List.length_append]
        omega
      rw [blocks_of_lt hlt, remainder_of_lt hlt]
      rfl
    · next hfull =>
      have hlen : (s.buffer ++ buf.take (H.blockSize - s.buffer.length)).length = H.blockSize := by
        rw [List.length_append, List.length_take]
        omega
      have hsplit : s.buffer ++ buf = s.buffer ++ buf.take
          (H.blockSize - s.buffer.length) ++ buf.drop (H.blockSize - s.buffer.length) := by
        rw [List.append_assoc, List.take_append_drop]
      rw [hloop, hsplit, blocks_block H.blockSize_pos hlen, remainder_block H.blockSize_pos hlen]
      rfl
  · next hempty =>
    have hnil : s.buffer = [] := List.length_eq_zero_iff.mp (by omega)
    rw [hloop, hnil, List.nil_append, ← hnil]

/-- The object after a message. -/
def fed (H : HashType ω) (m : List UInt8) : Hash ω :=
  { absorbAll H (new H) (blocks H.blockSize m) with buffer := remainder H.blockSize m }

theorem fed_nil : fed H [] = new H := by
  rw [fed, blocks_of_lt H.blockSize_pos, remainder_of_lt H.blockSize_pos]
  rfl

/-- Absorbing leaves the buffer alone. -/
theorem buffer_absorbAll :
    ∀ (bs : List (List UInt8)) (s : Hash ω), (absorbAll H s bs).buffer = s.buffer
  | [], _ => rfl
  | b :: bs, s => buffer_absorbAll bs (s.absorb H b)

theorem state_absorbAll :
    ∀ (bs : List (List UInt8)) (s : Hash ω), (absorbAll H s bs).state = bs.foldl H.update s.state
  | [], _ => rfl
  | b :: bs, s => state_absorbAll bs (s.absorb H b)

/-- The length that is counted is that of the blocks. -/
theorem length_absorbAll :
    ∀ (bs : List (List UInt8)) (s : Hash ω), s.length < 2 ^ (8 * H.lengthSize) →
    (absorbAll H s bs).length = (s.length + bs.length * H.blockSize) % 2 ^ (8 * H.lengthSize)
  | [], s, hs => by
    rw [List.length_nil, Nat.zero_mul, Nat.add_zero, Nat.mod_eq_of_lt hs]
    rfl
  | b :: bs, s, hs => by
    have hlt : (s.absorb H b).length < 2 ^ (8 * H.lengthSize) := Nat.mod_lt _ (Nat.two_pow_pos _)
    have hrest := length_absorbAll bs (s.absorb H b) hlt
    have hsucc : s.length + H.blockSize + bs.length * H.blockSize =
        s.length + (bs.length + 1) * H.blockSize := by
      rw [Nat.succ_mul]
      omega
    rw [absorbAll, List.foldl_cons, ← absorbAll, hrest, absorb, List.length_cons,
      Nat.mod_add_mod, hsucc]

/-- A message goes on with what is written. -/
theorem write_fed (m buf : List UInt8) : (fed H m).write H buf = fed H (m ++ buf) := by
  have hlt : (fed H m).buffer.length < H.blockSize := length_remainder_lt H.blockSize_pos m
  have hall : { fed H m with buffer := [] } = absorbAll H (new H) (blocks H.blockSize m) := by
    have hbuffer : (absorbAll H (new H) (blocks H.blockSize m)).buffer = [] := buffer_absorbAll _ _
    rw [fed, ← hbuffer]
  obtain ⟨hblocks, hrem⟩ := blocks_append H.blockSize_pos m buf
  rw [write_eq hlt, hall, fed, fed, hblocks, hrem]
  simp only [absorbAll, List.foldl_append]

/-- The pieces in which a message is written make no difference. -/
theorem foldl_write : ∀ (pieces : List (List UInt8)) (m : List UInt8),
    pieces.foldl (write H) (fed H m) = fed H (m ++ pieces.flatten)
  | [], m => by rw [List.flatten_nil, List.append_nil]; rfl
  | p :: pieces, m => by
    rw [List.foldl_cons, write_fed, foldl_write pieces, List.flatten_cons, List.append_assoc]

/-! ### `digest` -/

/-- The length in bits that is put at the end. -/
theorem fed_bits (m : List UInt8) :
    ((fed H m).length + (fed H m).buffer.length) <<< 3 % 2 ^ (8 * H.lengthSize) =
    8 * m.length % 2 ^ (8 * H.lengthSize) := by
  have hlen : (fed H m).length = (m.length / H.blockSize * H.blockSize) % 2 ^
      (8 * H.lengthSize) := by
    have hcount : (blocks H.blockSize m).length = m.length / H.blockSize := by
      rw [blocks, List.length_map, List.length_range]
    have hnew : (new H).length < 2 ^ (8 * H.lengthSize) := Nat.two_pow_pos _
    rw [fed, length_absorbAll _ _ hnew, hcount, new, Nat.zero_add]
  have hbuffer : (fed H m).buffer.length = m.length % H.blockSize := length_remainder _ _
  have hsplit : m.length / H.blockSize * H.blockSize + m.length % H.blockSize = m.length :=
    Nat.div_add_mod' _ _
  rw [hlen, hbuffer, Nat.shiftLeft_eq, Nat.mul_mod, Nat.mod_add_mod, hsplit, ← Nat.mul_mod]
  congr 1
  omega

/-- What is put behind the marker: zeros to the end of the block if the length does not
    fit, and zeros up to it. -/
theorem zeros_eq {n pos : ℕ} (hpos : pos = (n + 1) % H.blockSize) : H.zeros n =
    if H.blockSize < pos + H.lengthSize then H.blockSize - pos + (H.blockSize - H.lengthSize)
    else H.blockSize - H.lengthSize - pos := by
  have hle := H.lengthSize_le
  have hlt : pos < H.blockSize := hpos ▸ Nat.mod_lt _ H.blockSize_pos
  have hmod : (n + 1 + H.lengthSize) % H.blockSize = (pos + H.lengthSize) % H.blockSize := by
    rw [hpos, Nat.mod_add_mod]
  rw [HashType.zeros, hmod]
  split
  · next hover =>
    have hrest : (pos + H.lengthSize) % H.blockSize = pos + H.lengthSize - H.blockSize := by
      rw [Nat.mod_eq_sub_mod (Nat.le_of_lt hover), Nat.mod_eq_of_lt (by omega)]
    rw [hrest, Nat.mod_eq_of_lt (by omega)]
    omega
  · next hfits =>
    rcases Nat.eq_or_lt_of_le (Nat.not_lt.mp hfits) with heq | hshort
    · rw [heq, Nat.mod_self, Nat.sub_zero, Nat.mod_self]
      omega
    · have hword := H.lengthSize_pos
      rw [Nat.mod_eq_of_lt hshort, Nat.mod_eq_of_lt (by omega)]
      omega

/-- The message with its marker and what fills the block behind it. -/
theorem digest_fed (m : List UInt8) : (fed H m).digest H = H.hash m := by
  have hle := H.lengthSize_le
  have hpos := H.blockSize_pos
  have hrem : (remainder H.blockSize (m ++ [0x80])).length = (m.length + 1) % H.blockSize := by
    rw [length_remainder, List.length_append, List.length_singleton]
  have hlt := length_remainder_lt hpos (m ++ [0x80])
  have hstate : (fed H (m ++ [0x80])).state =
    (blocks H.blockSize (m ++ [0x80])).foldl H.update H.init := state_absorbAll _ _
  have hbits := length_endianBytes H.bigEndian H.lengthSize (8 * m.length % 2 ^ (8 * H.lengthSize))
  have hblocks := (blocks_append hpos (m ++ [0x80]) (List.replicate (H.zeros m.length) 0 ++
    endianBytes H.bigEndian H.lengthSize (8 * m.length % 2 ^ (8 * H.lengthSize)))).1
  -- the last block, or the last two when the length does not fit behind the marker
  have hone : ∀ b : List UInt8, b.length = H.blockSize →
      blocks H.blockSize b = [b] := fun b hb => by
    have hcut := blocks_block hpos hb []
    have hnil : ([] : List UInt8).length < H.blockSize := hpos
    rwa [List.append_nil, blocks_of_lt hnil] at hcut
  rw [HashType.hash, HashType.padded, hblocks, List.foldl_append, ← hstate, zeros_eq hrem, digest,
    fed_bits, write_fed]
  split
  · next hover =>
    have hbuffer : (fed H (m ++ [0x80])).buffer = remainder H.blockSize (m ++ [0x80]) := rfl
    rw [hbuffer] at hover
    rw [if_pos hover, List.replicate_add, List.append_assoc (List.replicate _ _),
      ← List.append_assoc (remainder _ _), blocks_block hpos, hone]
    · simp only [hbuffer, List.nil_append, List.length_nil, Nat.sub_zero, List.foldl_cons,
        List.foldl_nil]
    · rw [List.length_append, List.length_replicate, hbits]
      omega
    · rw [List.length_append, List.length_replicate]
      omega
  · next hfits =>
    have hbuffer : (fed H (m ++ [0x80])).buffer = remainder H.blockSize (m ++ [0x80]) := rfl
    rw [hbuffer] at hfits
    rw [if_neg hfits, hone]
    · simp only [hbuffer, List.append_assoc, List.foldl_cons, List.foldl_nil]
    · rw [List.length_append, List.length_append, List.length_replicate, hbits]
      omega

/-- However a message is cut into calls of `write`, `digest` is the hash of the whole. -/
theorem digest_pieces {ω : Type} (H : HashType ω) (pieces : List (List UInt8)) :
    (pieces.foldl (write H) (new H)).digest H = H.hash pieces.flatten := by
  rw [← fed_nil, foldl_write, List.nil_append, digest_fed]

end Hash

namespace HMAC

variable {H}

/-- The hash of two pieces. -/
theorem digest_two (a b : List UInt8) :
    (((Hash.new H).write H a).write H b).digest H = H.hash (a ++ b) := by
  have htwo := Hash.digest_pieces H [a, b]
  rwa [List.flatten_cons, List.flatten_cons, List.flatten_nil, List.append_nil] at htwo

theorem keyBlock_eq (key : List UInt8) : keyBlock H key = H.hmacKey key := by
  have hone := Hash.digest_pieces H [key]
  rw [List.flatten_cons, List.flatten_nil, List.append_nil, List.foldl_cons, List.foldl_nil] at hone
  rw [keyBlock, hone, HashType.hmacKey]

theorem hash_foldl_write : ∀ (pieces : List (List UInt8)) (s : HMAC ω),
    pieces.foldl (write H) s = ⟨s.secret, pieces.foldl (Hash.write H) s.hash⟩
  | [], _ => rfl
  | p :: pieces, s => hash_foldl_write pieces (s.write H p)

/-- Taking the one mask off and putting the other on. -/
theorem xor_masks (b : UInt8) : b ^^^ 0x36 ^^^ (0x36 ^^^ 0x5c) = b ^^^ 0x5c := by
  rw [UInt8.xor_assoc, ← UInt8.xor_assoc 0x36, UInt8.xor_self, UInt8.zero_xor]

/-- However a message is cut into calls of `write`, and for keys of every length, `digest` is the
    nested hash of the message over the key that is masked in two ways. -/
theorem hmac_pieces {ω : Type} (H : HashType ω) (key : List UInt8) (pieces : List (List UInt8)) :
    (pieces.foldl (write H) (new H key)).digest H = H.hmac key pieces.flatten := by
  have hinner := Hash.digest_pieces H ((H.hmacKey key).map (· ^^^ 0x36) :: pieces)
  rw [List.foldl_cons, List.flatten_cons] at hinner
  have hsecret : ((H.hmacKey key).map (· ^^^ 0x36)).map (· ^^^ (0x36 ^^^ 0x5c)) =
      (H.hmacKey key).map (· ^^^ 0x5c) := by
    rw [List.map_map]
    exact List.map_congr_left fun b _ => xor_masks b
  rw [hash_foldl_write, digest, new, keyBlock_eq]
  simp only
  rw [hinner, hsecret, digest_two, HashType.hmac]

end HMAC

end Matching.Common
