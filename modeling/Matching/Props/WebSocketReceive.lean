import Mathlib.Data.List.GetD
import Matching.Net.Receive

/-! What `WebSocket::receive` delivers. Between two calls the receiver is at some byte of a
    frame, and its members hold what has been read of the header or is still to be read of
    the payload; `At` says what they hold. From there a call tells the caller no more and no
    less than the bytes it reads. -/

namespace Matching.WebSocket

open Mem

/-- A frame the receiver takes: a control frame is not fragmented. -/
structure WellFormed extends Frame where
  whole : opcode.isControl → fin = true

/-- What the results of the calls say: the frames that were ended, each with the opcodes
    stored for it, its payload and `is_final`, and the opcodes and the payload of the frame
    that is being received. -/
structure Told where
  ended : List (List Opcode × List UInt8 × Bool)
  opcodes : List Opcode
  payload : List UInt8

/-- One more result. -/
def Told.hear (t : Told) (r : Received) : Told :=
  let opcodes := t.opcodes ++ r.opcode.toList
  let payload := t.payload ++ r.buf.take r.ret.toNat
  if r.ret < 0 then ⟨t.ended ++ [(opcodes, payload, r.mem.isFinal)], [], []⟩
  else ⟨t.ended, opcodes, payload⟩

/-- A receiver, its socket, and what its calls have told. -/
structure Listener where
  mem : Mem
  socket : Socket
  told : Told

/-- One call, with a buffer of `n` bytes at `addr`. -/
def Listener.step (l : Listener) (call : ℕ × ℕ) : Except Failure Listener := do
  let r ← receive call.1 call.2 l.mem l.socket
  .ok { mem := r.mem, socket := r.socket, told := l.told.hear r }

/-- The bytes of frames. -/
def stream (fs : List WellFormed) : List UInt8 := fs.flatMap (fun f => f.encode)

/-- A new receiver, before the frames. -/
def listening (junk : Mem) (fs : List WellFormed) (counts : List ℕ) : Listener :=
  ⟨.start junk, ⟨stream fs, counts⟩, ⟨[], [], []⟩⟩

/-- What is told of a frame that is ended. -/
def WellFormed.report (f : WellFormed) : List Opcode × List UInt8 × Bool :=
  ([f.opcode], f.payload, f.fin)

/-- What has been told is, in order and for each once, the frames that are ended, and of the next
    frame what the bytes that were read of it say: its opcode as soon as one was, and the payload up
    to there. When all of them were read, the next call ends the frame. -/
def Faithful (fs : List WellFormed) (l : Listener) : Prop :=
  ∃ past left, fs = past ++ left ∧ l.told.ended = past.map WellFormed.report ∧
    match left with
    | [] => l.socket.stream = [] ∧ l.told.opcodes = [] ∧ l.told.payload = []
    | f :: rest => ∃ got ≤ f.encode.length, l.socket.stream = f.encode.drop got ++ stream rest ∧
        l.told.opcodes = (if got = 0 then [] else [f.opcode]) ∧
          l.told.payload = f.payload.take (got - f.header.length) ∧
        (got = f.encode.length → ∀ n addr r, receive n addr l.mem l.socket = .ok r → r.ret < 0)

/-! ### The bytes of a header -/

namespace Frame

/-- The first byte. -/
def first (f : Frame) : UInt8 := UInt8.ofNat ((if f.fin then 128 else 0) + f.opcode.code)

/-- The second byte. -/
def second (f : Frame) : UInt8 :=
  UInt8.ofNat ((if f.mask.isSome then 128 else 0) + f.form.field f.payload.length)

/-- What `recv_state` holds from the second byte on. -/
def state (f : Frame) : UInt8 := (f.second &&& 0x7F) ||| (f.first &&& 0x80)

/-- The byte of the mask at an index; zero where there is none. -/
def keyByte (f : Frame) (j : ℕ) : UInt8 := (f.mask.map fun key => key.toList.getD (j % 4) 0).getD 0

variable (f : Frame)

theorem field_lt : f.form.field f.payload.length < 128 := by
  have hfits := f.fits
  cases hform : f.form with
  | short =>
    rw [hform, LengthForm.limit] at hfits
    rw [LengthForm.field]
    omega
  | medium => simp [LengthForm.field]
  | long => simp [LengthForm.field]

theorem first_reserved : f.first &&& 0x70 = 0 := by
  unfold first
  cases f.fin <;> cases f.opcode <;> decide

theorem first_opcode : Opcode.ofCode (f.first &&& 0xF) = some f.opcode := by
  unfold first
  cases f.fin <;> cases f.opcode <;> decide

theorem first_fin : f.first &&& 0x80 = if f.fin then 0x80 else 0 := by
  unfold first
  cases f.fin <;> cases f.opcode <;> decide

theorem second_mask : f.second &&& 0x80 = if f.mask.isSome then 0x80 else 0 := by
  have hall : ∀ n < 128, ∀ b : Bool, UInt8.ofNat ((if b then 128 else 0) + n) &&& 0x80 =
    if b then 0x80 else 0 := by decide +kernel
  exact hall _ f.field_lt _

theorem state_length : (f.state &&& 0x7F).toNat = f.form.field f.payload.length := by
  have hall : ∀ n < 128, ∀ b c : Bool,
      ((((UInt8.ofNat ((if b then 128 else 0) + n)) &&& 0x7F) ||| (if c then 0x80 else 0)) &&&
        0x7F).toNat = n := by decide +kernel
  rw [state, first_fin]
  exact hall _ f.field_lt _ _

theorem state_fin : decide (f.state.toNat ≥ 128) = f.fin := by
  have hall : ∀ n < 128, ∀ b c : Bool,
      decide ((((UInt8.ofNat ((if b then 128 else 0) + n)) &&& 0x7F) |||
        (if c then (0x80 : UInt8) else 0)).toNat ≥ 128) = c := by
    decide +kernel
  rw [state, first_fin]
  exact hall _ f.field_lt _ _

/-- The length of a header. -/
theorem length_header : f.header.length = 2 + f.form.extra + if f.mask.isSome then 4 else 0 := by
  rw [header]
  cases f.mask <;> simp <;> omega

theorem header_eq : f.header =
    f.first :: f.second ::
      ((wordBytes f.form.extra f.payload.length).reverse ++ (f.mask.map Vector.toList).getD []) :=
  rfl

theorem length_body : f.body.length = f.payload.length := by
  unfold body
  cases f.mask <;> simp

theorem length_payload_lt : f.payload.length < 2 ^ 63 := by
  have hfits := f.fits
  have hlimit : f.form.limit ≤ 2 ^ 63 := by cases f.form <;> decide
  omega

theorem length_encode : f.encode.length = f.header.length + f.payload.length := by
  rw [encode, List.length_append, length_body]

theorem getElem?_body (i : ℕ) : f.body[i]? = (f.payload[i]?).map fun b => b ^^^ f.keyByte i := by
  unfold body keyByte
  cases f.mask with
  | none => simp
  | some key => simp [List.getElem?_mapIdx]

end Frame

/-! ### What the members hold -/

namespace Mem

variable {m : Mem} {i k : ℕ} {bytes : List UInt8}

theorem store_before (h : k < i) : m.store i bytes k = m k := if_neg (by omega)

theorem store_behind (h : i + bytes.length ≤ k) : m.store i bytes k = m k := if_neg (by omega)

theorem store_in (h : i ≤ k) (h' : k < i + bytes.length) :
    m.store i bytes k = bytes.getD (k - i) 0 := if_pos ⟨h, h'⟩

theorem load_congr {m' : Mem} {size : ℕ} (h : ∀ k < size, m' (i + k) = m (i + k)) :
    m'.load i size = m.load i size :=
  List.map_congr_left fun k hk => h k (List.mem_range.mp hk)

theorem load_store (m : Mem) (i : ℕ) (bytes : List UInt8) :
    (m.store i bytes).load i bytes.length = bytes := by
  refine List.ext_getElem? fun k => ?_
  rcases Nat.lt_or_ge k bytes.length with hk | hk
  · simp only [load, List.getElem?_map, List.getElem?_range hk, Option.map_some]
    rw [store_in (by omega) (by omega), Nat.add_sub_cancel_left, List.getD_eq_getElem?_getD,
      List.getElem?_eq_getElem hk]
    rfl
  · rw [List.getElem?_eq_none (by simpa [load] using hk), List.getElem?_eq_none hk]

/-- What is stored in `recv_data_rem`. -/
theorem dataRem_store (m : Mem) {n : ℕ} (hn : n < 2 ^ 64) :
    (m.store 0 (wordBytes 8 n)).dataRem = n := by
  have hload := load_store m 0 (wordBytes 8 n)
  rw [length_wordBytes] at hload
  rw [dataRem, hload, word_wordBytes 8 (by simpa using hn)]

/-- Behind `recv_data_rem` nothing changes it. -/
theorem dataRem_congr {m' : Mem} (h : ∀ k < 8, m' k = m k) : m'.dataRem = m.dataRem := by
  exact congrArg word (load_congr fun k hk => by simpa using h k hk)

theorem zeros_of_dataRem (h : m.dataRem = 0) {k : ℕ} (hk : k < 8) : m k = 0 :=
  word_eq_zero h _ (List.mem_map.mpr ⟨k, List.mem_range.mpr hk, by rw [Nat.zero_add]⟩)

/-- The bytes of `recv_mask`. -/
theorem maskByte_mask (m : Mem) (k : ℕ) : maskByte m.mask k = m (recvMask + k % 4) := by
  have hk : k % 4 < 4 := Nat.mod_lt _ (by decide)
  have h0 := (m recvMask).toNat_lt
  have h1 := (m (recvMask + 1)).toNat_lt
  have h2 := (m (recvMask + 2)).toNat_lt
  have h3 := (m (recvMask + 3)).toNat_lt
  have hword : word (m.load recvMask 4) = (m recvMask).toNat + 256 * ((m (recvMask + 1)).toNat +
      256 * ((m (recvMask + 2)).toNat + 256 * (m (recvMask + 3)).toNat)) := by
    simp [load, word, List.range_succ]
  rw [maskByte, Mem.mask, UInt32.toNat_ofNat', hword]
  apply UInt8.toNat_inj.mp
  rw [UInt8.toNat_ofNat']
  generalize k % 4 = k at hk
  interval_cases k <;> norm_num <;> omega

theorem mask_congr {m' : Mem} (h : ∀ j < 4, m' (recvMask + j) = m (recvMask + j)) :
    m'.mask = m.mask := by
  rw [Mem.mask, Mem.mask, load_congr h]

/-- `recv_mask` is zero where its bytes are. -/
theorem mask_eq_zero_iff (m : Mem) : m.mask = 0 ↔ ∀ j < 4, m (recvMask + j) = 0 := by
  constructor
  · intro h j hj
    have hbyte := maskByte_mask m j
    rw [h, Nat.mod_eq_of_lt hj] at hbyte
    rw [← hbyte]
    simp [maskByte]
  · intro h
    have hload : m.load recvMask 4 = List.replicate 4 0 := by
      refine List.eq_replicate_iff.mpr ⟨by simp [load], fun b hb => ?_⟩
      obtain ⟨k, hk, rfl⟩ := List.mem_map.mp hb
      exact h k (List.mem_range.mp hk)
    rw [Mem.mask, hload, word_replicate_zero]
    rfl

end Mem

/-- Before a frame. -/
structure Fresh (m : Mem) : Prop where
  pos : m recvHdrPos = 0
  zeros : ∀ k < 8, m k = 0

/-- One byte of a header was read. -/
structure AtSecond (f : Frame) (m : Mem) : Prop where
  pos : m recvHdrPos = 1
  state : m recvState = f.first
  zeros : ∀ k < 8, m k = 0

/-- `got` bytes of a header were read: the bytes of the length and the mask lie where they
    belong, there are zeros in front of a length of 16 bits, and up to the mask `recv_mask`
    says whether there is one. -/
structure AtHeader (f : Frame) (m : Mem) (got : ℕ) : Prop where
  two : 2 ≤ got
  le : got ≤ f.header.length
  pos : (m recvHdrPos).toNat = got
  state : m recvState = f.state
  zeros : ∀ k < recvMask - f.form.extra, m k = 0
  bytes : ∀ i, 2 ≤ i → i < got → m (recvMask - f.form.extra + i - 2) = f.header.getD i 0
  flag : got ≤ 2 + f.form.extra →
    ∀ j < 4, m (recvMask + j) = if j = 0 ∧ f.mask.isSome then 0x80 else 0

/-- The header and some of the payload were read: `recv_data_rem` bytes are to come, and
    `recv_hdr_pos` is the phase of a mask. -/
structure AtBody (f : Frame) (m : Mem) (got : ℕ) : Prop where
  ge : f.header.length ≤ got
  le : got ≤ f.encode.length
  pos : 128 ≤ (m recvHdrPos).toNat
  phase : m.mask ≠ 0 → (m recvHdrPos).toNat = 255 - (got - f.header.length) % 4
  state : m recvState = f.state
  rem : m.dataRem = f.encode.length - got
  key : ∀ j < 4, m (recvMask + j) = f.keyByte j

/-- The receiver has read `got` bytes of a frame. -/
inductive At (f : Frame) (m : Mem) : ℕ → Prop
  | fresh (h : Fresh m) : At f m 0
  | second (h : AtSecond f m) : At f m 1
  | header {got : ℕ} (h : AtHeader f m got) (hlt : got < f.header.length) : At f m got
  | body {got : ℕ} (h : AtBody f m got) : At f m got

/-! ### Reads -/

/-- Whatever is read for, the socket has some of it. -/
structure Socket.Offers (s : Socket) : Prop where
  some : ∀ c ∈ s.counts, 1 ≤ c
  enough : s.stream.length ≤ s.counts.length

/-- A read gives a beginning of what is to come. -/
theorem Socket.read_spec {s : Socket} {xs tail : List UInt8} {n : ℕ} (hs : s.stream = xs ++ tail)
    (hpos : 0 < n) (hn : n ≤ xs.length) :
    ∃ c ≤ n, (s.read n).1 = xs.take c ∧ (s.read n).2.stream = xs.drop c ++ tail ∧
      (s.Offers → (s.read n).2.Offers ∧ 0 < c) := by
  refine ⟨min (s.counts.headD 0) n, Nat.min_le_right _ _, ?_, ?_, ?_⟩
  · rw [Socket.read, hs, List.take_append_of_le_length (by omega)]
  · rw [Socket.read, hs, List.drop_append_of_le_length (by omega)]
  · rintro ⟨hsome, henough⟩
    rw [hs, List.length_append] at henough
    obtain ⟨a, as, hcounts⟩ : ∃ a as, s.counts = a :: as :=
      List.exists_cons_of_ne_nil (List.ne_nil_of_length_pos (by omega))
    rw [hcounts, List.length_cons] at henough
    rw [hcounts] at hsome
    have ha := hsome a List.mem_cons_self
    have hread : s.read n = (s.stream.take (min a n), ⟨s.stream.drop (min a n), as⟩) := by
      rw [Socket.read, hcounts]; rfl
    rw [hread]
    refine ⟨⟨fun c hc => hsome c (List.mem_cons_of_mem a hc), ?_⟩,
      by rw [hcounts, List.headD_cons]; omega⟩
    simp only [List.length_drop, hs, List.length_append]
    omega

/-- There is nothing more to read. -/
theorem Socket.read_nil {s : Socket} (hs : s.stream = []) (n : ℕ) :
    (s.read n).1 = [] ∧ (s.read n).2.stream = [] ∧ (s.Offers → (s.read n).2.Offers) := by
  refine ⟨by simp [Socket.read, hs], by simp [Socket.read, hs],
    fun ⟨hsome, _⟩ => ⟨fun c hc => hsome c (List.mem_of_mem_tail hc), ?_⟩⟩
  simp [Socket.read, hs]

/-- The first two bytes of a frame. -/
theorem secondByte_spec {f : Frame} {m : Mem} (hfirst : m recvState = f.first)
    (hsecond : m recvHdrPos = f.second) (hzeros : ∀ k < 8, m k = 0) :
    AtHeader f (secondByte m) 2 := by
  have hflag : wordBytes 4 (f.second &&& 0x80).toNat =
      [if f.mask.isSome then 0x80 else 0, 0, 0, 0] := by
    rw [f.second_mask]
    cases f.mask.isSome <;> decide
  have hlen := f.length_header
  refine ⟨le_refl _, by omega, rfl, ?_, fun k hk => ?_, fun i hi hi' => by omega, fun _ j hj => ?_⟩
  · simp [secondByte, store, recvMask, recvState, recvHdrPos, Frame.state] at hfirst hsecond ⊢
    rw [hfirst, hsecond]
  · simp only [recvMask] at hk
    rw [← hzeros k (by omega), secondByte, store_before (by simp [recvHdrPos]; omega),
      store_before (by simp [recvState]; omega), store_before (by simp [recvMask]; omega)]
  · rw [secondByte, store_before (by simp [recvMask, recvHdrPos]; omega),
      store_before (by simp [recvMask, recvState]; omega), hsecond, hflag,
      store_in (by omega) (by simp; omega), Nat.add_sub_cancel_left]
    interval_cases j <;> simp

/-! ### The payload -/

variable {f : Frame} {m : Mem} {s : Socket} {got c : ℕ} {tail : List UInt8}

/-- The mask is taken off the bytes that were read. -/
theorem unmask {v : UInt32} {p : ℕ} (hkey : ∀ k, maskByte v (p + k) = f.keyByte (got + k)) :
    xorFrom v p ((f.body.drop got).take c) = (f.payload.drop got).take c := by
  refine List.ext_getElem? fun i => ?_
  rw [xorFrom, List.getElem?_mapIdx, List.getElem?_take, List.getElem?_take]
  split
  · rw [List.getElem?_drop, List.getElem?_drop, f.getElem?_body, Option.map_map]
    rcases f.payload[got + i]? with _ | b
    · rfl
    · simp only [Option.map_some, Function.comp_apply, hkey]
      rw [UInt8.xor_assoc, UInt8.xor_self, UInt8.xor_zero]
  · rfl

theorem keyByte_mod (f : Frame) (j : ℕ) : f.keyByte (j % 4) = f.keyByte j := by
  rw [Frame.keyByte, Frame.keyByte, Nat.mod_mod]

/-- Without a mask, the bytes that were read are the payload's. -/
theorem unmasked (hkey : ∀ j < 4, f.keyByte j = 0) : f.body = f.payload := by
  refine List.ext_getElem? fun i => ?_
  rw [f.getElem?_body, ← keyByte_mod, hkey _ (Nat.mod_lt _ (by decide))]
  simp

/-- What a call does from byte `got` of a frame on: it reads bytes of the frame, and delivers what
    they say of the payload; a call ends the frame after its last byte, and at once if that was read
    before. With room for the payload it goes on as long as the socket does. -/
structure Goes (f : Frame) (got : ℕ) (tail : List UInt8) (n : ℕ) (s : Socket) (r : Received)
    (c : ℕ) : Prop where
  le : got + c ≤ f.encode.length
  stream : r.socket.stream = f.encode.drop (got + c) ++ tail
  payload : f.payload.take (got - f.header.length) ++ r.buf.take r.ret.toNat =
    f.payload.take (got + c - f.header.length)
  next : (r.ret < 0 ∧ got + c = f.encode.length ∧ Fresh r.mem ∧ r.mem.isFinal = f.fin) ∨
    (0 ≤ r.ret ∧ At f r.mem (got + c))
  last : got = f.encode.length → r.ret < 0
  moves : s.Offers → r.socket.Offers ∧ (1 ≤ n → 0 < c ∨ r.ret < 0)

theorem readPayload_opcode (n addr : ℕ) (opcode : Option Opcode) (m : Mem) (s : Socket) :
    (readPayload n addr opcode m s).opcode = opcode := by
  simp only [readPayload]
  split
  · rfl
  split
  · rfl
  split
  · rfl
  split <;> rfl

theorem AtBody.ends (h : AtBody f m got) (hzero : m.dataRem = 0) :
    Fresh (m.store recvHdrPos [0]) ∧ (m.store recvHdrPos [0]).isFinal = f.fin := by
  refine ⟨⟨rfl, fun k hk => ?_⟩, ?_⟩
  · rw [store_before (by simp only [recvHdrPos]; omega)]
    exact zeros_of_dataRem hzero hk
  · rw [isFinal, store_before (by decide), h.state]
    exact f.state_fin

/-- Bytes of the payload are read: `recv_data_rem` and the phase change. -/
theorem AtBody.reads {m' : Mem} (h : AtBody f m got) (hc : c ≤ m.dataRem)
    (hrem : m'.dataRem = m.dataRem - c) (hsame : ∀ k, recvMask ≤ k → k < recvHdrPos → m' k = m k)
    (hpos : 128 ≤ (m' recvHdrPos).toNat)
    (hphase : m.mask ≠ 0 → (m' recvHdrPos).toNat = 255 - (got + c - f.header.length) % 4) :
    AtBody f m' (got + c) := by
  obtain ⟨hge, hle, -, -, hstate, hleft, hkey⟩ := h
  have hmem : ∀ j < 4, m' (recvMask + j) = m (recvMask + j) :=
    fun j hj => hsame _ (by omega) (by simp only [recvMask, recvHdrPos]; omega)
  refine ⟨by omega, by omega, hpos, fun hmask => hphase (mask_congr hmem ▸ hmask), ?_, by omega,
    fun j hj => ?_⟩
  · rw [hsame _ (by decide) (by decide), hstate]
  · rw [hmem j hj, hkey j hj]

/-- The bytes of the payload that are read, with the mask taken off. -/
theorem AtBody.unmask (h : AtBody f m got) {phase : ℕ}
    (hphase : phase % 4 = (got - f.header.length) % 4) (addr c : ℕ) :
    memxor32 addr ((f.body.drop (got - f.header.length)).take c) m.mask phase =
      (f.payload.drop (got - f.header.length)).take c := by
  rw [memxor32_eq]
  refine Matching.WebSocket.unmask fun k => ?_
  have hmod : (phase + k) % 4 = (got - f.header.length + k) % 4 := by omega
  rw [maskByte_mask, h.key _ (Nat.mod_lt _ (by decide)), hmod, keyByte_mod]

theorem AtBody.unmasked (h : AtBody f m got) (hmask : m.mask = 0) : f.body = f.payload := by
  refine Matching.WebSocket.unmasked fun j hj => ?_
  rw [← h.key j hj]
  exact (mask_eq_zero_iff m).mp hmask j hj

/-- The phase of the mask moves on. -/
theorem AtBody.turns (h : AtBody f m got) {m' : Mem} (hc : c ≤ m.dataRem)
    (hrem : m'.dataRem = m.dataRem - c) (hsame : ∀ k, recvMask ≤ k → m' k = m k) {pos : UInt8}
    (hpos : pos.toNat = 255 - (got - f.header.length + c) % 4) :
    AtBody f (m'.store recvHdrPos [pos]) (got + c) := by
  have hstored : m'.store recvHdrPos [pos] recvHdrPos = pos := rfl
  have hrem' : (m'.store recvHdrPos [pos]).dataRem = m'.dataRem :=
    dataRem_congr fun k hk => store_before (by simp only [recvHdrPos]; omega)
  have hge := h.ge
  refine h.reads hc (hrem'.trans hrem)
    (fun k hk hk' => (store_before hk').trans (hsame k hk)) ?_ fun _ => ?_
  · rw [hstored]
    omega
  · rw [hstored, hpos, Nat.sub_add_comm hge]

/-- The phase after some bytes, as it is computed. -/
theorem phase_next {pos p : ℕ} (c : ℕ) (hpos : pos = 255 - p % 4) :
    (2 ^ 64 - 1 - pos) % 4 = p % 4 ∧
      (UInt8.ofNat (255 - (2 ^ 64 - 1 - pos + c) % 2 ^ 64 % 4)).toNat = 255 - (p + c) % 4 := by
  rw [UInt8.toNat_ofNat']
  omega

theorem readPayload_spec (h : AtBody f m got) (hs : s.stream = f.encode.drop got ++ tail)
    (n addr : ℕ) (opcode : Option Opcode) :
    ∃ c, Goes f got tail n s (readPayload n addr opcode m s) c := by
  obtain ⟨hge, hle, hpos, hphase, -, hrem, -⟩ := id h
  have hlen := f.length_encode
  -- a call that reads nothing leaves everything as it was
  have hstay : got ≠ f.encode.length → ∀ s' : Socket, s'.stream = s.stream →
      (s.Offers → s'.Offers ∧ ¬1 ≤ n) → Goes f got tail n s ⟨0, opcode, [], m, s'⟩ 0 :=
    fun hne s' hsame hoffers =>
      ⟨hle, hsame.trans hs, by simp, .inr ⟨le_refl _, .body h⟩, fun hall => absurd hall hne,
      fun ho => (hoffers ho).imp_right fun hno hn => absurd hn hno⟩
  rcases Nat.eq_zero_or_pos m.dataRem with hzero | hleft
  · obtain ⟨hfresh, hfin⟩ := h.ends hzero
    simp only [readPayload, if_pos hzero]
    exact ⟨0, by omega, hs, by simp, .inl ⟨Int.negSucc_lt_zero 0, by omega, hfresh, hfin⟩,
      fun _ => Int.negSucc_lt_zero 0, fun ho => ⟨ho, fun _ => .inr (Int.negSucc_lt_zero 0)⟩⟩
  · have hne : got ≠ f.encode.length := by omega
    simp only [readPayload, if_neg (show ¬m.dataRem = 0 by omega)]
    split
    · exact ⟨0, hstay hne s rfl fun ho => ⟨ho, by omega⟩⟩
    have hdrop : f.encode.drop got = f.body.drop (got - f.header.length) := by
      rw [Frame.encode, List.drop_append, List.drop_eq_nil_of_le (by omega), List.nil_append]
    have hroom : min n m.dataRem ≤ (f.encode.drop got).length := by
      rw [List.length_drop]
      omega
    obtain ⟨c, hc, hread, hstream, hoffers⟩ := Socket.read_spec hs (by omega) hroom
    generalize s.read (min n m.dataRem) = q at hread hstream hoffers ⊢
    obtain ⟨bytes, s'⟩ := q
    simp only at hread hstream hoffers ⊢
    have hcount : bytes.length = c := by
      rw [hread, List.length_take]
      omega
    rw [List.drop_drop] at hstream
    split
    · rename_i hnil
      rw [hnil, List.length_nil] at hcount
      exact ⟨0, hstay hne s' (by rw [hstream, hs, ← hcount, Nat.add_zero]) fun ho =>
        absurd (hoffers ho).2 (by omega)⟩
    · have hsame : ∀ k, recvMask ≤ k →
        m.store 0 (wordBytes 8 (m.dataRem - c)) k = m k := fun k hk => by
        refine store_behind ?_
        rw [length_wordBytes]
        exact (Nat.zero_add 8).trans_le hk
      have hremNext : (m.store 0 (wordBytes 8 (m.dataRem - c))).dataRem = m.dataRem - c := by
        have hfits := f.length_payload_lt
        exact dataRem_store m (by omega)
      rw [hcount]
      generalize m.store 0 (wordBytes 8 (m.dataRem - c)) = m₁ at hsame hremNext ⊢
      have hmask : m₁.mask = m.mask := mask_congr fun j _ => hsame _ (Nat.le_add_right _ _)
      have hposSame : m₁ recvHdrPos = m recvHdrPos := hsame _ (by decide)
      have htold : ∀ buf, buf = (f.payload.drop (got - f.header.length)).take c →
          f.payload.take (got - f.header.length) ++ buf.take (c : ℤ).toNat =
            f.payload.take (got + c - f.header.length) := by
        rintro buf rfl
        rw [Int.toNat_natCast, List.take_take, Nat.min_self, ← List.take_add,
          ← Nat.sub_add_comm hge]
      rw [hdrop] at hread
      rw [hmask, hposSame]
      -- without a mask the bytes are the payload, with one they become it
      rcases eq_or_ne m.mask 0 with hzero | hmasked
      · rw [h.unmasked hzero] at hread
        rw [if_neg (not_not.mpr hzero)]
        have hnext : AtBody f m₁ (got + c) :=
          h.reads (by omega) hremNext (fun k hk _ => hsame k hk) (hposSame ▸ hpos)
            (fun hne => absurd hzero hne)
        exact ⟨c, by omega, hstream, htold _ hread, .inr ⟨Int.natCast_nonneg c, .body hnext⟩,
          fun hall => absurd hall hne, fun ho => (hoffers ho).imp_right fun hpos _ => .inl hpos⟩
      · obtain ⟨hmod, hphaseNext⟩ := phase_next c (hphase hmasked)
        have hplain := h.unmask hmod addr c
        rw [← hread] at hplain
        rw [if_pos hmasked]
        have hnext := h.turns (by omega) hremNext hsame hphaseNext
        exact ⟨c, by omega, hstream, htold _ hplain, .inr ⟨Int.natCast_nonneg c, .body hnext⟩,
          fun hall => absurd hall hne, fun ho => (hoffers ho).imp_right fun hpos _ => .inl hpos⟩

/-! ### The header -/

/-- Where the bytes of a header from index `i` on are read to: in front of `recv_state`. -/
theorem hdrBuf_le (f : Frame) {i : ℕ} (hi : i ≤ f.header.length) :
    recvMask - f.form.extra + i - 2 ≤ recvState := by
  have hlen := f.length_header
  have hextra : f.form.extra ≤ 8 := by cases f.form <;> decide
  have hmask : (if f.mask.isSome then 4 else 0) ≤ 4 := by split <;> omega
  simp only [recvMask, recvState]
  omega

/-- Bytes of the header are read. -/
theorem AtHeader.reads (h : AtHeader f m got) (hc : got + c ≤ f.header.length) :
    AtHeader f
      ((m.store (recvMask - f.form.extra + got - 2) ((f.header.drop got).take c)).store recvHdrPos
      [UInt8.ofNat (got + c)])
      (got + c) := by
  obtain ⟨htwo, hle, hpos, hstate, hzeros, hbytes, hflag⟩ := h
  have hcount : ((f.header.drop got).take c).length = c := by
    rw [List.length_take, List.length_drop]
    omega
  have hend := hdrBuf_le f hc
  have hextra : f.form.extra ≤ recvMask := by cases f.form <;> decide
  have hfar : recvState < recvHdrPos := by decide
  have hhead : f.header.length ≤ 14 := by
    have hlen := f.length_header
    have hmask : (if f.mask.isSome then 4 else 0) ≤ 4 := by split <;> omega
    simp only [recvMask] at hextra
    omega
  refine ⟨by omega, hc, ?_, ?_, fun k hk => ?_, fun i hi hi' => ?_, fun hin j hj => ?_⟩
  · have hstored : ∀ m' : Mem, m'.store recvHdrPos [UInt8.ofNat (got + c)] recvHdrPos =
      UInt8.ofNat (got + c) := fun _ => rfl
    rw [hstored, UInt8.toNat_ofNat']
    omega
  · rw [store_before hfar, store_behind (by omega), hstate]
  · rw [store_before (by simp only [recvMask, recvHdrPos] at *; omega),
      store_before (by omega), hzeros k hk]
  · have hi₂ := hdrBuf_le f (show i ≤ f.header.length by omega)
    rw [store_before (by omega)]
    rcases Nat.lt_or_ge i got with hold | hnew
    · rw [store_before (by omega), hbytes i hi hold]
    · rw [store_in (by omega) (by omega), List.getD_eq_getElem?_getD,
        List.getElem?_take_of_lt (by omega), List.getElem?_drop, List.getD_eq_getElem?_getD]
      congr 2
      omega
  · rw [store_before (by simp only [recvMask, recvHdrPos]; omega), store_behind (by omega),
      hflag (by omega) j hj]

/-- The bytes of a header behind the first two. -/
theorem getD_header (f : Frame) (i : ℕ) : f.header.getD (i + 2) 0 =
    ((wordBytes f.form.extra f.payload.length).reverse ++ (f.mask.map Vector.toList).getD []).getD
      i 0 := by
  rw [f.header_eq]
  rfl

/-- The word in front of `recv_mask` when a header was read: zeros, and the length with
    its highest byte first. -/
theorem AtHeader.load (h : AtHeader f m f.header.length) :
    m.load 0 8 =
      List.replicate (8 - f.form.extra) 0 ++ (wordBytes f.form.extra f.payload.length).reverse := by
  have hlen := f.length_header
  have hextra : f.form.extra ≤ 8 := by cases f.form <;> decide
  refine List.ext_getElem (by simp [Mem.load]; omega) fun k hk _ => ?_
  have hk : k < 8 := by simpa [Mem.load] using hk
  simp only [Mem.load, List.getElem_map, List.getElem_range, Nat.zero_add]
  rcases Nat.lt_or_ge k (8 - f.form.extra) with hfront | hback
  · rw [List.getElem_append_left (by simpa using hfront), List.getElem_replicate]
    exact h.zeros k hfront
  · have hbyte := h.bytes (k - (8 - f.form.extra) + 2) (by omega) (by omega)
    rw [getD_header, List.getD_append _ _ _ _ (by simp; omega)] at hbyte
    have haddr : recvMask - f.form.extra + (k - (8 - f.form.extra) + 2) - 2 = k := by
      simp only [recvMask]
      omega
    rw [haddr, List.getD_eq_getElem _ _ (by simp; omega)] at hbyte
    rw [List.getElem_append_right (by simpa using hback), hbyte]
    simp only [List.length_replicate]

/-- `recv_data_rem` after the header. -/
theorem AtHeader.length (h : AtHeader f m f.header.length) :
    (if (m recvState &&& 0x7F).toNat > 125 then word (m.load 0 8).reverse
      else (m recvState &&& 0x7F).toNat) = f.payload.length := by
  have hfits := f.fits
  rw [h.load, h.state, f.state_length, List.reverse_append, List.reverse_reverse,
    List.reverse_replicate, word_append_zeros]
  cases hform : f.form with
  | short =>
    rw [hform, LengthForm.limit] at hfits
    exact if_neg (by rw [LengthForm.field]; omega)
  | medium =>
    rw [hform] at hfits
    exact (if_pos (by rw [LengthForm.field]; decide)).trans (word_wordBytes 2 hfits)
  | long =>
    rw [hform] at hfits
    exact (if_pos (by rw [LengthForm.field]; decide)).trans
      (word_wordBytes 8 (hfits.trans (by decide)))

/-- The bytes of the mask when a header was read. -/
theorem AtHeader.key (h : AtHeader f m f.header.length) {j : ℕ} (hj : j < 4) :
    m (recvMask + j) = f.keyByte j := by
  have hlen := f.length_header
  have hextra : f.form.extra ≤ recvMask := by cases f.form <;> decide
  cases hmask : f.mask with
  | none =>
    rw [hmask] at hlen
    rw [h.flag (by simpa using hlen.le) j hj]
    simp [Frame.keyByte, hmask]
  | some key =>
    rw [hmask] at hlen
    have hbyte := h.bytes (f.form.extra + j + 2) (by omega) (by simp at hlen; omega)
    rw [getD_header, hmask,
      show recvMask - f.form.extra + (f.form.extra + j + 2) - 2 = recvMask + j by omega] at hbyte
    rw [hbyte, List.getD_append_right _ _ _ _ (by simp)]
    simp [Frame.keyByte, hmask, Nat.mod_eq_of_lt hj]

theorem AtHeader.whole (h : AtHeader f m f.header.length) :
    AtBody f
      ((m.store 0 (wordBytes 8 f.payload.length)).store recvHdrPos [255]) f.header.length := by
  have hlen := f.length_encode
  have hfits := f.length_payload_lt
  have hmem : ∀ k, recvMask ≤ k → k < recvHdrPos →
      (m.store 0 (wordBytes 8 f.payload.length)).store recvHdrPos [255] k = m k := by
    intro k hk hk'
    rw [store_before hk', store_behind]
    rw [length_wordBytes]
    exact (Nat.zero_add 8).trans_le hk
  have hrem : ((m.store 0 (wordBytes 8 f.payload.length)).store recvHdrPos [255]).dataRem =
      (m.store 0 (wordBytes 8 f.payload.length)).dataRem :=
    dataRem_congr fun k hk => store_before (by simp only [recvHdrPos]; omega)
  refine ⟨le_refl _, by omega, (by decide : 128 ≤ (255 : UInt8).toNat), fun _ => ?_, ?_, ?_,
    fun j hj => ?_⟩
  · rw [Nat.sub_self]
    rfl
  · rw [hmem _ (by decide) (by decide), h.state]
  · rw [hrem, dataRem_store _ (by omega)]
    omega
  · rw [hmem _ (by omega) (by simp only [recvMask, recvHdrPos]; omega), h.key hj]

/-- Where the rest of a header is read to, and its length, are found from what was read of it. -/
theorem AtHeader.found (h : AtHeader f m got) :
    ((if (m recvState &&& 0x7F).toNat = 127 then (recvMask - 8, 2 + 8)
      else if (m recvState &&& 0x7F).toNat = 126 then (recvMask - 2, 2 + 2) else (recvMask, 2)) :
        ℕ × ℕ) =
        (recvMask - f.form.extra, 2 + f.form.extra) ∧
      (if got > 2 + f.form.extra ∨ m.mask ≠ 0 then 2 + f.form.extra + 4 else 2 + f.form.extra) =
        f.header.length := by
  have hfits := f.fits
  have hlen := f.length_header
  constructor
  · rw [h.state, f.state_length]
    cases hform : f.form with
    | short =>
      rw [hform, LengthForm.limit] at hfits
      rw [LengthForm.field, if_neg (by omega), if_neg (by omega)]
      rfl
    | medium => rfl
    | long => rfl
  · cases hmask : f.mask with
    | none =>
      rw [hmask] at hlen
      have hle := h.le
      have hin : got ≤ 2 + f.form.extra := by simpa [hlen] using hle
      have hzero : m.mask = 0 :=
        (mask_eq_zero_iff m).mpr fun j hj => by simpa [hmask] using h.flag hin j hj
      rw [if_neg (by simp [hzero]; omega), hlen]
      rfl
    | some key =>
      rw [hmask] at hlen
      rw [if_pos, hlen]
      · rfl
      rcases Nat.lt_or_ge (2 + f.form.extra) got with hin | hin
      · exact .inl hin
      · refine .inr fun hzero => ?_
        have hflag := h.flag hin 0 (by decide)
        rw [(mask_eq_zero_iff m).mp hzero 0 (by decide)] at hflag
        simp [hmask] at hflag

/-- The rest of the header: some bytes of it are read, and with the last of
    them the payload can be. -/
theorem readHeader_spec (h : AtHeader f m got) (hs : s.stream = f.encode.drop got ++ tail)
    (opcode : Option Opcode) :
    ∃ c, got + c ≤ f.header.length ∧
      ((∃ m' s', readHeader opcode m s = .on opcode m' s' ∧ got + c = f.header.length ∧
        AtBody f m' (got + c) ∧
          s'.stream = f.encode.drop (got + c) ++ tail ∧ (s.Offers → s'.Offers)) ∨
        ∃ m' s', readHeader opcode m s = .back ⟨0, opcode, [], m', s'⟩ ∧ got + c < f.header.length ∧
          AtHeader f m' (got + c) ∧
          s'.stream = f.encode.drop (got + c) ++ tail ∧ (s.Offers → s'.Offers ∧ 0 < c)) := by
  obtain ⟨hfound, hsize⟩ := h.found
  have hle := h.le
  have hlen := f.length_encode
  simp only [readHeader, hfound, h.pos, hsize, subU64, if_pos hle]
  rcases Nat.eq_or_lt_of_le hle with heq | hlt
  · subst heq
    rw [if_neg (by omega)]
    refine ⟨0, by omega, .inl ⟨_, s, rfl, by omega, ?_, hs, id⟩⟩
    rw [h.length]
    exact h.whole
  · rw [if_pos (by omega)]
    have hroom : f.header.length - got ≤ (f.encode.drop got).length := by
      rw [List.length_drop]
      omega
    obtain ⟨c, hc, hread, hstream, hoffers⟩ := Socket.read_spec hs (by omega) hroom
    generalize s.read (f.header.length - got) = q at hread hstream hoffers ⊢
    obtain ⟨bytes, s'⟩ := q
    simp only at hread hstream hoffers ⊢
    have hdrop : f.encode.drop got = f.header.drop got ++ f.body := by
      rw [Frame.encode, List.drop_append_of_le_length hle]
    rw [hdrop, List.take_append_of_le_length (by rw [List.length_drop]; exact hc)] at hread
    have hcount : bytes.length = c := by
      rw [hread, List.length_take, List.length_drop]
      omega
    rw [List.drop_drop] at hstream
    have hnext := h.reads (show got + c ≤ f.header.length by omega)
    rw [← hread] at hnext
    split
    · rename_i hnil
      rw [hnil, List.length_nil] at hcount
      subst hcount
      exact ⟨0, by omega, .inr ⟨m, s', rfl, by omega, h, hstream, hoffers⟩⟩
    · rw [hcount]
      generalize (m.store (recvMask - f.form.extra + got - 2) bytes).store recvHdrPos
        [UInt8.ofNat (got + c)] = m' at hnext ⊢
      split
      · exact ⟨c, by omega, .inr ⟨m', s', rfl, by omega, hnext, hstream, hoffers⟩⟩
      · -- with the header whole, the length is known
        have hall : got + c = f.header.length := by omega
        refine ⟨c, by omega, .inl ⟨_, s', rfl, hall, ?_, hstream, fun ho => (hoffers ho).1⟩⟩
        rw [hall] at hnext ⊢
        rw [h.state, ← hnext.state, hnext.length]
        exact hnext.whole

theorem length_encode_ge (f : Frame) : 2 ≤ f.encode.length := by
  rw [f.length_encode, f.length_header]
  omega

/-- The second byte of a header is read. -/
theorem readSecond_spec (h : AtSecond f m) (hs : s.stream = f.encode.drop 1 ++ tail) :
    (∃ s', readSecond m s = .back ⟨0, none, [], m, s'⟩ ∧
      s'.stream = f.encode.drop 1 ++ tail ∧ ¬s.Offers) ∨
      ∃ m' s', readSecond m s = .on none m' s' ∧ AtHeader f m' 2 ∧
        s'.stream = f.encode.drop 2 ++ tail ∧ (s.Offers → s'.Offers) := by
  have hlen := length_encode_ge f
  have hroom : 1 ≤ (f.encode.drop 1).length := by
    rw [List.length_drop]
    omega
  obtain ⟨c, hc, hread, hstream, hoffers⟩ := Socket.read_spec hs Nat.one_pos hroom
  simp only [readSecond]
  generalize s.read 1 = q at hread hstream hoffers ⊢
  obtain ⟨bytes, s'⟩ := q
  simp only at hread hstream hoffers ⊢
  rw [List.drop_drop] at hstream
  obtain rfl | rfl : c = 0 ∨ c = 1 := by omega
  · subst hread
    exact .inl ⟨s', rfl, hstream, fun ho => absurd (hoffers ho).2 (Nat.lt_irrefl 0)⟩
  · obtain rfl : bytes = [f.second] := hread
    refine .inr ⟨_, s', rfl, secondByte_spec ?_ rfl fun k hk => ?_, hstream,
      fun ho => (hoffers ho).1⟩
    · rw [store_before (by decide), h.state]
    · rw [store_before (by simp only [recvHdrPos]; omega), h.zeros k hk]

/-- The first two bytes of a header are read, or one of them. -/
theorem readStart_spec (h : Fresh m) (hs : s.stream = f.encode ++ tail)
    (hcontrol : f.opcode.isControl → f.fin = true) :
    (∃ s', readStart m s = .ok (.back ⟨0, none, [], m, s'⟩) ∧
      s'.stream = f.encode ++ tail ∧ ¬s.Offers) ∨
      (∃ m' s', readStart m s = .ok (.back ⟨0, some f.opcode, [], m', s'⟩) ∧ AtSecond f m' ∧
        s'.stream = f.encode.drop 1 ++ tail ∧
        (s.Offers → s'.Offers)) ∨
      ∃ m' s', readStart m s = .ok (.on (some f.opcode) m' s') ∧ AtHeader f m' 2 ∧
        s'.stream = f.encode.drop 2 ++ tail ∧
        (s.Offers → s'.Offers) := by
  obtain ⟨c, hc, hread, hstream, hoffers⟩ := Socket.read_spec hs Nat.two_pos (length_encode_ge f)
  have hwhole : ¬(f.opcode.isControl = true ∧ f.first &&& 0x80 = 0) := by
    rintro ⟨hop, hzero⟩
    rw [f.first_fin, hcontrol hop] at hzero
    exact absurd hzero (by decide)
  simp only [readStart]
  generalize s.read 2 = q at hread hstream hoffers ⊢
  obtain ⟨bytes, s'⟩ := q
  simp only at hread hstream hoffers ⊢
  obtain rfl | rfl | rfl : c = 0 ∨ c = 1 ∨ c = 2 := by omega
  · subst hread
    exact .inl ⟨s', rfl, hstream, fun ho => absurd (hoffers ho).2 (Nat.lt_irrefl 0)⟩
  · obtain rfl : bytes = [f.first] := hread
    have hstate : m.store recvState [f.first] recvState = f.first := rfl
    rw [if_neg (List.cons_ne_nil _ _)]
    simp only [hstate, f.first_reserved, f.first_opcode, ne_eq, not_true_eq_false, if_false,
      if_neg hwhole, List.length_singleton, if_true]
    refine .inr (.inl ⟨_, s', rfl, ⟨rfl, rfl, fun k hk => ?_⟩, hstream, fun ho => (hoffers ho).1⟩)
    rw [store_before (by simp only [recvHdrPos]; omega),
      store_before (by simp only [recvState]; omega), h.zeros k hk]
  · obtain rfl : bytes = [f.first, f.second] := hread
    have hstate : m.store recvState [f.first, f.second] recvState = f.first := rfl
    rw [if_neg (List.cons_ne_nil _ _)]
    simp only [hstate, f.first_reserved, f.first_opcode, ne_eq, not_true_eq_false, if_false,
      if_neg hwhole]
    refine .inr
      (.inr ⟨_, s', rfl, secondByte_spec rfl rfl fun k hk => ?_, hstream, fun ho => (hoffers ho).1⟩)
    rw [store_before (by simp only [recvState]; omega), h.zeros k hk]

/-! ### Calls -/

theorem take_header (f : Frame) {k : ℕ} (hk : k ≤ f.header.length) :
    f.payload.take (k - f.header.length) = [] := by
  rw [Nat.sub_eq_zero_of_le hk, List.take_zero]

variable {n : ℕ}

/-- The bytes read before by the same call are added. -/
theorem Goes.after {b : ℕ} {s' : Socket} {r : Received} (h : Goes f (got + b) tail n s' r c)
    (hb : got + b ≤ f.header.length) (hoffers : s.Offers → s'.Offers) :
    Goes f got tail n s r (b + c) := by
  obtain ⟨hle, hstream, hpayload, hnext, hlast, hmoves⟩ := h
  have hlen := f.length_encode
  rw [Nat.add_assoc] at hle hstream hpayload hnext
  refine ⟨hle, hstream, ?_, hnext, fun hend => hlast (by omega), fun ho => ?_⟩
  · rw [← hpayload, take_header f hb, take_header f (by omega)]
  · obtain ⟨ho', hgo⟩ := hmoves (hoffers ho)
    exact ⟨ho', fun hn => (hgo hn).imp_left fun hpos => by omega⟩

/-- Within the header a call returns 0. -/
theorem Goes.back {opcode : Option Opcode} {m' : Mem} {s' : Socket} (h : At f m' (got + c))
    (hlt : got + c < f.header.length) (hs : s'.stream = f.encode.drop (got + c) ++ tail)
    (hoffers : s.Offers → s'.Offers ∧ 0 < c) :
    Goes f got tail n s ⟨0, opcode, [], m', s'⟩ c := by
  have hlen := f.length_encode
  refine ⟨by omega, hs, ?_, .inr ⟨le_refl _, h⟩, fun hend => by omega,
    fun ho => (hoffers ho).imp_right fun hpos _ => .inl hpos⟩
  rw [take_header f (by omega), take_header f (by omega)]
  rfl

/-- From within the header on, a call goes through the frame as far as its reads do. -/
theorem header_goes (h : AtHeader f m got) (hs : s.stream = f.encode.drop got ++ tail)
    (n addr : ℕ) (opcode : Option Opcode) :
    ∃ r c, (match readHeader opcode m s with
        | .back r => r
        | .on opcode m s => readPayload n addr opcode m s) = r ∧ r.opcode = opcode ∧
            Goes f got tail n s r c := by
  obtain ⟨c, hc,
    ⟨m', s', heq, hall, hbody, hstream, hoffers⟩ | ⟨m', s', heq, hlt, hnext, hstream, hoffers⟩⟩ :=
    readHeader_spec h hs opcode
  · obtain ⟨c', hgoes⟩ := readPayload_spec hbody hstream n addr opcode
    exact ⟨_, c + c', by rw [heq], readPayload_opcode n addr opcode m' s', hgoes.after hc hoffers⟩
  · exact ⟨_, c, by rw [heq], rfl, .back (.header hnext hlt) hlt hstream hoffers⟩

/-- What a call does at any byte of a frame. -/
theorem receive_goes (h : At f m got) (hs : s.stream = f.encode.drop got ++ tail)
    (hcontrol : f.opcode.isControl → f.fin = true) (n addr : ℕ) :
    ∃ r c, receive n addr m s = .ok r ∧
      r.opcode = (if got = 0 ∧ c ≠ 0 then some f.opcode else none) ∧ Goes f got tail n s r c := by
  have hlen := f.length_header
  cases h with
  | fresh h =>
    have hnotBody : ¬(0 : UInt8) ≥ 128 := by decide
    simp only [receive, h.pos, if_neg hnotBody, if_true]
    obtain ⟨s', heq, hstream, hno⟩ | ⟨m', s', heq, hsecond, hstream, hoffers⟩ | ⟨m', s', heq,
        hheader, hstream, hoffers⟩ :=
      readStart_spec h hs hcontrol
    · exact ⟨_, 0, by rw [heq]; rfl, rfl,
        .back (.fresh h) (by omega) hstream fun ho => absurd ho hno⟩
    · exact ⟨_, 1, by rw [heq]; rfl, rfl,
        .back (.second hsecond) (by omega) hstream fun ho => ⟨hoffers ho, Nat.one_pos⟩⟩
    · obtain ⟨r, c, hr, hop, hgoes⟩ := header_goes hheader hstream n addr (some f.opcode)
      have hall : Goes f (0 + 2) tail n s' r c := hgoes
      rw [heq, ok_bind]
      refine ⟨r, 2 + c, congrArg Except.ok hr, ?_, hall.after (by omega) hoffers⟩
      exact hop.trans (if_pos ⟨trivial, by omega⟩).symm
  | second h =>
    have hnotBody : ¬(1 : UInt8) ≥ 128 := by decide
    have hnotStart : ¬(1 : UInt8) = 0 := by decide
    simp only [receive, h.pos, if_neg hnotBody, if_neg hnotStart, if_true]
    obtain ⟨s', heq, hstream, hno⟩ | ⟨m', s', heq, hheader, hstream, hoffers⟩ :=
      readSecond_spec h hs
    · exact ⟨_, 0, by rw [heq], rfl, .back (.second h) (by omega) hstream fun ho => absurd ho hno⟩
    · obtain ⟨r, c, hr, hop, hgoes⟩ := header_goes hheader hstream n addr none
      have hall : Goes f (1 + 1) tail n s' r c := hgoes
      rw [heq]
      exact ⟨r, 1 + c, congrArg Except.ok hr, hop, hall.after (by omega) hoffers⟩
  | header h hlt =>
    have hpos := h.pos
    have hle := h.le
    have htwo := h.two
    have hextra : f.form.extra ≤ 8 := by cases f.form <;> decide
    have hmask : (if f.mask.isSome then 4 else 0) ≤ 4 := by split <;> omega
    have hnotBody : ¬m recvHdrPos ≥ 128 := fun hge => by
      have hnat := UInt8.le_iff_toNat_le.mp hge
      simp only [UInt8.reduceToNat] at hnat
      omega
    have hnotStart : ¬m recvHdrPos = 0 := fun h0 => by
      rw [h0, UInt8.toNat_zero] at hpos
      omega
    have hnotSecond : ¬m recvHdrPos = 1 := fun h1 => by
      rw [h1, UInt8.toNat_one] at hpos
      omega
    obtain ⟨r, c, hr, hop, hgoes⟩ := header_goes h hs n addr none
    simp only [receive, if_neg hnotBody, if_neg hnotStart, if_neg hnotSecond]
    exact ⟨r, c, congrArg Except.ok hr, hop.trans (if_neg (by omega)).symm, hgoes⟩
  | body h =>
    have hge := h.ge
    obtain ⟨c, hgoes⟩ := readPayload_spec h hs n addr none
    have hbody : m recvHdrPos ≥ 128 := UInt8.le_iff_toNat_le.mpr h.pos
    simp only [receive, if_pos hbody]
    exact ⟨_, c, rfl, (readPayload_opcode n addr none m s).trans (if_neg (by omega)).symm, hgoes⟩

/-- Before a frame, with nothing more to come, a call does nothing. -/
theorem receive_idle (h : Fresh m) (hs : s.stream = []) (n addr : ℕ) :
    ∃ s', receive n addr m s = .ok ⟨0, none, [], m, s'⟩ ∧ s'.stream = [] ∧
      (s.Offers → s'.Offers) := by
  obtain ⟨hread, hstream, hoffers⟩ := Socket.read_nil hs 2
  have hnotBody : ¬(0 : UInt8) ≥ 128 := by decide
  refine ⟨(s.read 2).2, ?_, hstream, hoffers⟩
  simp only [receive, h.pos, if_neg hnotBody, if_true, readStart, hread]
  rfl

theorem At.le (h : At f m got) : got ≤ f.encode.length := by
  have hlen := f.length_encode
  have hhdr := f.length_header
  cases h with
  | fresh => exact Nat.zero_le _
  | second => omega
  | header h hlt => omega
  | body h => exact h.le

theorem fresh_start (junk : Mem) : Fresh (.start junk) :=
  ⟨rfl, fun _ hk => if_neg fun h => by simp only [recvMask] at h; omega⟩

/-- A listener that has told what it has read: it is before the next frame, or within it. -/
inductive Hearing (fs : List WellFormed) (l : Listener) : Prop
  | idle (h : Fresh l.mem) (hs : l.socket.stream = [])
      (ht : l.told = ⟨fs.map WellFormed.report, [], []⟩)
  | within {past rest : List WellFormed} {f : WellFormed} {got : ℕ} (h : At f.toFrame l.mem got)
      (hfs : fs = past ++ f :: rest) (hs : l.socket.stream = f.encode.drop got ++ stream rest)
      (ht : l.told =
        ⟨past.map WellFormed.report, if got = 0 then [] else [f.opcode],
          f.payload.take (got - f.header.length)⟩)

/-- The bytes still to be read and the frames still to be ended. -/
def Listener.owed (fs : List WellFormed) (l : Listener) : ℕ :=
  l.socket.stream.length + (fs.length - l.told.ended.length)

/-- Before a frame, or at the end. -/
theorem hearing_between {fs past left : List WellFormed} {l : Listener} (h : Fresh l.mem)
    (hfs : fs = past ++ left) (hs : l.socket.stream = stream left)
    (ht : l.told = ⟨past.map WellFormed.report, [], []⟩) : Hearing fs l := by
  rcases left with _ | ⟨f, rest⟩
  · rw [List.append_nil] at hfs
    exact .idle h hs (hfs ▸ ht)
  · refine .within (.fresh h) hfs ?_ ?_
    · rw [hs, List.drop_zero, stream, List.flatMap_cons]
      rfl
    · rw [ht, Nat.zero_sub, List.take_zero, if_pos rfl]

/-- One call: it tells what it has read. -/
theorem hearing_step {fs : List WellFormed} {l : Listener} (h : Hearing fs l) (call : ℕ × ℕ) :
    ∃ l', l.step call = .ok l' ∧ Hearing fs l' ∧
      (l.socket.Offers → l'.socket.Offers ∧ (1 ≤ call.1 → l'.owed fs ≤ l.owed fs - 1)) := by
  cases h with
  | idle h hs ht =>
    obtain ⟨s', heq, hstream, hoffers⟩ := receive_idle h hs call.1 call.2
    refine ⟨⟨l.mem, s', l.told⟩, ?_, .idle h hstream ht, fun ho => ⟨hoffers ho, fun _ => ?_⟩⟩
    · simp [Listener.step, heq, ok_bind, Told.hear]
    · simp [Listener.owed, hstream, ht]
  | @within past rest f got h hfs hs ht =>
    obtain ⟨r, c, heq, hop, hle, hstream, hpayload, hnext, hlast, hmoves⟩ :=
      receive_goes h hs f.whole call.1 call.2
    have hops : (if got = 0 then [] else [f.opcode]) ++ r.opcode.toList =
        if got + c = 0 then [] else [f.opcode] := by
      rw [hop]
      rcases Nat.eq_zero_or_pos got with rfl | hpos
      · rcases Nat.eq_zero_or_pos c with rfl | hc
        · rfl
        · rw [if_pos rfl, if_pos ⟨rfl, hc.ne'⟩, if_neg (by omega)]
          rfl
      · rw [if_neg hpos.ne', if_neg fun h0 => hpos.ne' h0.1, if_neg (by omega)]
        rfl
    have hlen := length_encode_ge f.toFrame
    have hall := f.length_encode
    refine ⟨⟨r.mem, r.socket, l.told.hear r⟩, by rw [Listener.step, heq, ok_bind], ?_, fun ho => ?_⟩
    · rw [ht]
      rcases hnext with ⟨hneg, hend, hfresh, hfin⟩ | ⟨hret, hat⟩
      · have hfs' : fs = (past ++ [f]) ++ rest := by
          rw [hfs, List.append_assoc, List.singleton_append]
        refine hearing_between hfresh hfs' ?_ ?_
        · rw [hstream, hend, List.drop_length, List.nil_append]
        · simp only [Told.hear, if_pos hneg]
          rw [hops, hpayload, hfin, if_neg (by omega), List.take_of_length_le (by omega),
            List.map_append]
          rfl
      · refine .within hat hfs hstream ?_
        simp only [Told.hear, if_neg (show ¬r.ret < 0 by omega)]
        rw [hops, hpayload]
    · obtain ⟨ho', hgo⟩ := hmoves ho
      refine ⟨ho', fun hn => ?_⟩
      have hcount : fs.length = past.length + 1 + rest.length := by
        rw [hfs, List.length_append, List.length_cons]
        omega
      simp only [Listener.owed, hs, hstream, ht, Told.hear, List.length_append,
        List.length_drop, hcount]
      rcases hnext with ⟨hneg, hend, -, -⟩ | ⟨hret, -⟩
      · rw [if_pos hneg]
        simp only [List.length_append, List.length_map, List.length_singleton]
        omega
      · rw [if_neg (show ¬r.ret < 0 by omega)]
        have hc := (hgo hn).resolve_right (by omega)
        simp only [List.length_map]
        omega

/-- Any number of calls. -/
theorem hearing_run {fs : List WellFormed} : ∀ (calls : List (ℕ × ℕ)) {l : Listener}, Hearing fs l →
    ∃ l', runs Listener.step l calls = .ok l' ∧ Hearing fs l' ∧
      (l.socket.Offers → (∀ call ∈ calls, 1 ≤ call.1) → l'.owed fs ≤ l.owed fs - calls.length)
  | [], l, h => ⟨l, rfl, h, fun _ _ => le_refl _⟩
  | call :: calls, l, h => by
    obtain ⟨l₁, hstep, h₁, hmove⟩ := hearing_step h call
    obtain ⟨l', hrun, h', hrest⟩ := hearing_run calls h₁
    refine ⟨l', by rw [runs, hstep, ok_bind, hrun], h', fun ho hroom => ?_⟩
    obtain ⟨ho₁, hlt⟩ := hmove ho
    have hlt := hlt (hroom call List.mem_cons_self)
    have hle := hrest ho₁ fun call hcall => hroom call (List.mem_cons_of_mem _ hcall)
    rw [List.length_cons]
    omega

/-- Every read gives something, every buffer has room, and there are calls enough for
    every byte and every end. -/
structure Prompt (fs : List WellFormed) (counts : List ℕ) (calls : List (ℕ × ℕ)) : Prop where
  some : ∀ c ∈ counts, 1 ≤ c
  counts : (stream fs).length ≤ counts.length
  room : ∀ call ∈ calls, 1 ≤ call.1
  calls : (stream fs).length + fs.length ≤ calls.length

end Matching.WebSocket
