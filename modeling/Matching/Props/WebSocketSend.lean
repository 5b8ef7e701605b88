import Matching.Net.WebSocket

/-! What the socket gets from `WebSocket::send`. The progress of a frame is resumed as it should be;
    but `send_hdr_pos` is not set back to 0 where a frame is completed, so after a frame that took
    several writes the next one is begun in the middle, or not at all. -/

namespace Matching.WebSocket

/-- The bytes of the frames of messages. -/
def encodings (sendMask : Bool) (ms : List Message) : List UInt8 :=
  ms.flatMap (fun m => m.encode sendMask)

/-- Every call has returned true, unless the program went wrong. -/
def Done (r : Except Fault Caller) : Prop := ∀ c, r = .ok c → c.left = []

/-- The socket got the frames, each whole and once, in order. -/
def Whole (sendMask : Bool) (ms : List Message) (r : Except Fault Caller) : Prop :=
  ∃ c, r = .ok c ∧ c.wire = encodings sendMask ms

/-- Every frame but the last is accepted in one piece: the socket accepts
    nothing of it or all of it. -/
def AtOnce (sendMask : Bool) : List Message → List ℕ → Prop
  | m :: next :: ms, a :: as =>
    a = 0 ∧ AtOnce sendMask (m :: next :: ms) as ∨ (m.encode sendMask).length ≤ a ∧
      AtOnce sendMask (next :: ms) as
  | _, _ => True

variable {sendMask : Bool} {m : Message}

theorem encode_eq (sendMask : Bool) (m : Message) :
    m.encode sendMask = sendHdr sendMask m ++ m.payload := by
  have hbody : (m.frame sendMask).body = m.payload := by
    cases sendMask with
    | false => rfl
    | true =>
      have hkey : ∀ i, (Vector.replicate 4 (0 : UInt8)).toList.getD (i % 4) 0 = 0 := fun i => by
        have hi : i % 4 < 4 := Nat.mod_lt _ (by decide)
        generalize i % 4 = k at hi
        revert k
        decide
      simp only [Message.frame, if_true, Frame.body, hkey, UInt8.xor_zero]
      exact List.mapIdx_eq_iff.mpr fun i => by simp
  rw [Message.encode, Frame.encode, ← sendHdr_eq, hbody]

namespace Sender

/-- What is still to be written of the message the sender is at. -/
def pending (s : Sender) (m : Message) : List UInt8 :=
  if s.sendHdrPos < 128 then (sendHdr s.sendMask m).drop s.sendHdrPos ++ m.payload
  else m.payload.drop (m.payload.length - s.sendDataRem)

/-- The sender is within the frame of the message. -/
def Within (s : Sender) (m : Message) : Prop :=
  (s.sendHdrPos < 128 → s.sendHdrPos ≤ (sendHdr s.sendMask m).length) ∧
    (128 ≤ s.sendHdrPos → s.sendDataRem ≤ m.payload.length)

/-- One call: the socket gets the beginning of what is to be written, and the call returns true when
    that is all of it; the progress starts at 0 only where nothing was written of a header. -/
theorem send_spec {s : Sender} (h : s.Within m) (a : ℕ) :
    ∃ done s', s.send m a = .ok (done, s', (s.pending m).take a) ∧ s'.sendMask = s.sendMask ∧
      (done = true ↔ (s.pending m).length ≤ a) ∧
      (done = false → s'.Within m ∧ s'.pending m = (s.pending m).drop a) ∧
      (done = true → 128 ≤ s'.sendHdrPos → s'.sendDataRem = 0) ∧
      (s'.sendHdrPos = 0 ↔ s.sendHdrPos = 0 ∧ (a = 0 ∨ done = true)) := by
  obtain ⟨hhdr, hdata⟩ := h
  have hlen := length_sendHdr s.sendMask m
  rcases Nat.lt_or_ge s.sendHdrPos 128 with hpos | hpos
  · have hle := hhdr hpos
    have hpending : s.pending m = (sendHdr s.sendMask m).drop s.sendHdrPos ++ m.payload :=
      if_pos hpos
    have hdrop : ((sendHdr s.sendMask m).drop s.sendHdrPos).length =
        (sendHdr s.sendMask m).length - s.sendHdrPos :=
      List.length_drop
    have htotal : (s.pending m).length =
        (sendHdr s.sendMask m).length - s.sendHdrPos + m.payload.length := by
      rw [hpending, List.length_append, hdrop]
    simp only [send, if_pos hpos,
      if_neg (show ¬(sendHdr s.sendMask m).length < s.sendHdrPos by omega), ← hpending]
    rcases Nat.lt_or_ge a ((sendHdr s.sendMask m).length - s.sendHdrPos) with hin | hin
    · -- the socket stops within the header
      have hw : min a (s.pending m).length = a := by omega
      have hmod : (s.sendHdrPos + a) % 256 = s.sendHdrPos + a := Nat.mod_eq_of_lt (by omega)
      rw [hw, if_pos hin, hmod]
      refine ⟨_, _, rfl, rfl, by simp; omega,
        fun _ => ⟨⟨fun _ => by simp only; omega, fun h => by simp only at h; omega⟩, ?_⟩,
        nofun, by simp⟩
      simp only [pending]
      rw [if_pos (by omega), if_pos hpos, List.drop_append_of_le_length (by omega), List.drop_drop]
    · rw [if_neg (show ¬min a (s.pending m).length <
        (sendHdr s.sendMask m).length - s.sendHdrPos by omega)]
      rcases Nat.lt_or_ge a (s.pending m).length with hpart | hall
      · -- within the payload
        have hw : min a (s.pending m).length = a := by omega
        rw [hw, if_pos (show m.payload.length -
          (a - ((sendHdr s.sendMask m).length - s.sendHdrPos)) > 0 by omega)]
        refine ⟨_, _, rfl, rfl, by simp; omega,
          fun _ => ⟨⟨fun h => by simp only at h; omega, fun _ => by simp only; omega⟩, ?_⟩,
          nofun, by simp; omega⟩
        rw [hpending, List.drop_append, hdrop, List.drop_eq_nil_of_le (by omega),
          List.nil_append, pending, if_neg (show ¬255 < 128 by omega)]
        congr 1
        simp only
        omega
      · have hw : min a (s.pending m).length = (s.pending m).length := by omega
        rw [hw, if_neg (show ¬m.payload.length -
            ((s.pending m).length - ((sendHdr s.sendMask m).length - s.sendHdrPos)) > 0 by
          omega), List.take_length, List.take_of_length_le hall]
        refine ⟨_, _, rfl, rfl, iff_of_true rfl hall, nofun,
          fun _ _ => by simp only; omega, by simp⟩
  · have hle := hdata hpos
    have hpending : s.pending m = m.payload.drop (m.payload.length - s.sendDataRem) :=
      if_neg (by omega)
    have htotal : (s.pending m).length = s.sendDataRem := by
      rw [hpending, List.length_drop]
      omega
    simp only [send, if_neg (show ¬s.sendHdrPos < 128 by omega),
      if_neg (show ¬m.payload.length < s.sendDataRem by omega), ← hpending]
    have htake : (s.pending m).take (min a s.sendDataRem) = (s.pending m).take a := by
      rw [← htotal, List.take_eq_take_iff]
      omega
    rw [htake]
    refine ⟨_, _, rfl, rfl, ?_,
      fun hdone => ⟨⟨fun h => by simp only at h; omega, fun _ => by simp only; omega⟩, ?_⟩,
      fun hdone _ => ?_, ?_⟩
    · rw [decide_eq_true_iff]
      omega
    · rw [decide_eq_false_iff_not] at hdone
      rw [hpending, List.drop_drop, pending, if_neg (show ¬s.sendHdrPos < 128 by omega)]
      congr 1
      simp only
      omega
    · exact of_decide_eq_true hdone
    · simp only
      omega

end Sender

/-! ### A frame in pieces -/

/-- The bytes the socket has got and can still get. -/
def Caller.reach (c : Caller) : ℕ :=
  match c.left with
  | [] => c.wire.length
  | m :: ms => c.wire.length + (c.ws.pending m).length + (encodings c.ws.sendMask ms).length

/-- The sender is within the frame of the message in front, or the next call goes wrong. -/
def Caller.Kept (c : Caller) : Prop :=
  ∀ m ∈ c.left.head?, 128 ≤ c.ws.sendHdrPos → c.ws.sendDataRem ≤ m.payload.length

theorem length_encode (sendMask : Bool) (m : Message) :
    (m.encode sendMask).length = (sendHdr sendMask m).length + m.payload.length := by
  rw [encode_eq, List.length_append]

/-- A sender between two frames reaches no further than the next one; it falls short where the
    progress is not back at 0. -/
theorem Sender.pending_le {s : Sender} (m : Message)
    (hrem : 128 ≤ s.sendHdrPos → s.sendDataRem = 0) :
    (s.pending m).length ≤ (m.encode s.sendMask).length ∧
      (s.sendHdrPos ≠ 0 → (s.pending m).length < (m.encode s.sendMask).length) := by
  have hlen := (length_sendHdr s.sendMask m).1
  rw [length_encode, Sender.pending]
  split
  · rw [List.length_append, List.length_drop]
    omega
  · rw [List.length_drop, hrem (by omega)]
    omega

/-- What a call that does not go wrong does: bytes that were pending are on the wire, and the caller
    stays at the message until all of them are. -/
theorem Caller.step_spec {c c' : Caller} {m : Message} {ms : List Message} {a : ℕ}
    (hleft : c.left = m :: ms) (hkept : c.Kept) (h : c.step a = .ok c') :
    c.ws.Within m ∧ c'.ws.sendMask = c.ws.sendMask ∧ c'.wire = c.wire ++ (c.ws.pending m).take a ∧
      (c'.ws.sendHdrPos = 0 ↔ c.ws.sendHdrPos = 0 ∧ (a = 0 ∨ (c.ws.pending m).length ≤ a)) ∧
      ((c.ws.pending m).length ≤ a ∧ c'.left = ms ∧
        (128 ≤ c'.ws.sendHdrPos → c'.ws.sendDataRem = 0) ∨
        a < (c.ws.pending m).length ∧ c'.left = m :: ms ∧ c'.ws.Within m ∧
          c'.ws.pending m = (c.ws.pending m).drop a) := by
  have hwithin : c.ws.Within m := by
    refine ⟨fun hpos => ?_, hkept m (by rw [hleft]; rfl)⟩
    by_contra hlt
    simp only [Caller.step, hleft, Sender.send, if_pos hpos,
      if_pos (show (sendHdr c.ws.sendMask m).length < c.ws.sendHdrPos by omega)] at h
    nomatch h
  obtain ⟨done, s', hsend, hmask, hdone, hpart, hrem, hzero⟩ := Sender.send_spec hwithin a
  simp only [Caller.step, hleft, hsend, ok_bind, Except.ok.injEq] at h
  subst h
  refine ⟨hwithin, hmask, rfl, by rw [hzero, hdone], ?_⟩
  cases done with
  | true => exact .inl ⟨hdone.mp rfl, rfl, hrem rfl⟩
  | false =>
    obtain ⟨hin, hpending⟩ := hpart rfl
    exact .inr ⟨Nat.lt_of_not_le fun h => Bool.false_ne_true (hdone.mpr h), rfl, hin, hpending⟩

/-- Within a frame a call does not go wrong. -/
theorem Caller.step_ok {c : Caller} {m : Message} {ms : List Message} (hleft : c.left = m :: ms)
    (hwithin : c.ws.Within m) (a : ℕ) :
    ∃ c', c.step a = .ok c' := by
  obtain ⟨done, s', hsend, -, -⟩ := Sender.send_spec hwithin a
  refine ⟨⟨s', if done then ms else m :: ms, c.wire ++ (c.ws.pending m).take a⟩, ?_⟩
  simp only [Caller.step, hleft, hsend, ok_bind]

theorem Caller.kept_step {c c' : Caller} {a : ℕ} (hkept : c.Kept) (h : c.step a = .ok c') :
    c'.Kept := by
  rcases hleft : c.left with _ | ⟨m, ms⟩
  · have hsame : c' = c := by
      simp only [Caller.step, hleft, Except.ok.injEq] at h
      exact h.symm
    exact hsame ▸ hkept
  · obtain ⟨-, -, -, -, ⟨-, hleft', hrem⟩ | ⟨-, hleft', hwithin, -⟩⟩ := step_spec hleft hkept h
    · intro m' _ hpos
      rw [hrem hpos]
      exact Nat.zero_le _
    · intro m' hm' hpos
      rw [hleft', List.head?_cons, Option.mem_some_iff] at hm'
      exact hm' ▸ hwithin.2 hpos

/-- A call takes nothing away from what the socket can get, and something where a frame ends with
    its progress not back at 0 and another follows. -/
theorem Caller.reach_step {c c' : Caller} {m : Message} {ms : List Message} {a : ℕ}
    (hleft : c.left = m :: ms) (hkept : c.Kept) (h : c.step a = .ok c') :
    c'.reach ≤ c.reach ∧
      (c.ws.sendHdrPos ≠ 0 → ms ≠ [] → c'.left = m :: ms ∨ c'.reach < c.reach) := by
  obtain ⟨-, hmask, hwire, hzero, ⟨hall, hleft', hrem⟩ | ⟨hpart, hleft', -, hpending⟩⟩ :=
    step_spec hleft hkept h
  · have hreach : c.reach = c'.wire.length + (encodings c.ws.sendMask ms).length := by
      simp only [reach, hleft, hwire, List.take_of_length_le hall, List.length_append]
    rcases ms with _ | ⟨next, ms⟩
    · have hreach' : c'.reach = c'.wire.length := by simp only [reach, hleft']
      exact ⟨by omega, fun _ hne => absurd rfl hne⟩
    · have hreach' : c'.reach =
        c'.wire.length + (c'.ws.pending next).length + (encodings c'.ws.sendMask ms).length := by
        simp only [reach, hleft']
      obtain ⟨hle, hlt⟩ := Sender.pending_le next hrem
      have hsplit : (encodings c.ws.sendMask (next :: ms)).length =
          (next.encode c.ws.sendMask).length + (encodings c.ws.sendMask ms).length := by
        rw [encodings, List.flatMap_cons, List.length_append, encodings]
      rw [hmask] at hle hlt hreach'
      refine ⟨by omega, fun hpos _ => .inr ?_⟩
      have hshort := hlt fun h0 => hpos (hzero.mp h0).1
      omega
  · have htake : ((c.ws.pending m).take a).length + (c'.ws.pending m).length =
      (c.ws.pending m).length := by
      rw [hpending, List.length_take, List.length_drop]
      omega
    have hreach' : c'.reach =
        c'.wire.length + (c'.ws.pending m).length + (encodings c'.ws.sendMask ms).length := by
      simp only [reach, hleft']
    have hreach : c.reach =
        c.wire.length + (c.ws.pending m).length + (encodings c.ws.sendMask ms).length := by
      simp only [reach, hleft]
    rw [hwire, hmask, List.length_append] at hreach'
    exact ⟨by omega, fun _ _ => .inl hleft'⟩

theorem Caller.step_nil {c : Caller} (hleft : c.left = []) (a : ℕ) : c.step a = .ok c := by
  simp only [step, hleft]

theorem wire_le :
    ∀ (as : List ℕ) {c c' : Caller}, c.Kept → runs Caller.step c as = .ok c' → c'.left = [] →
    c'.wire.length ≤ c.reach
  | [], c, c', _, h, hdone => by
    obtain rfl := Except.ok.inj h
    simp only [Caller.reach, hdone, le_refl]
  | a :: as, c, c', hkept, h, hdone => by
    obtain ⟨c₁, hstep, hrest⟩ := bind_ok.mp h
    have hle := wire_le as (Caller.kept_step hkept hstep) hrest hdone
    rcases hleft : c.left with _ | ⟨m, ms⟩
    · have hsame : c = c₁ := Except.ok.inj ((Caller.step_nil hleft a).symm.trans hstep)
      exact hsame ▸ hle
    · exact hle.trans (Caller.reach_step hleft hkept hstep).1

/-- Once a frame that another follows is in pieces, the socket does not get all bytes. -/
theorem wire_lt :
    ∀ (as : List ℕ) {c c' : Caller} {m next : Message} {ms : List Message},
      c.left = m :: next :: ms → c.Kept →
    c.ws.sendHdrPos ≠ 0 → runs Caller.step c as = .ok c' → c'.left = [] → c'.wire.length < c.reach
  | [], c, c', _, _, _, hleft, _, _, h, hdone => by
    obtain rfl := Except.ok.inj h
    exact absurd (hleft.symm.trans hdone) (List.cons_ne_nil _ _)
  | a :: as, c, c', m, next, ms, hleft, hkept, hpos, h, hdone => by
    obtain ⟨c₁, hstep, hrest⟩ := bind_ok.mp h
    have hkept₁ := Caller.kept_step hkept hstep
    obtain ⟨hle, hfalls⟩ := Caller.reach_step hleft hkept hstep
    have hzero := (Caller.step_spec hleft hkept hstep).2.2.2.1
    rcases hfalls hpos (List.cons_ne_nil _ _) with hstays | hlt
    · exact (wire_lt as hstays hkept₁ (fun h0 => hpos (hzero.mp h0).1) hrest hdone).trans_le hle
    · exact (wire_le as hkept₁ hrest hdone).trans_lt hlt

/-! ### Frames at once -/

theorem Sender.pending_start {s : Sender} (m : Message) (hpos : s.sendHdrPos = 0) :
    s.pending m = m.encode s.sendMask := by
  rw [Sender.pending, if_pos (by omega), hpos, List.drop_zero, encode_eq]

theorem Caller.kept_start {c : Caller} (hpos : c.ws.sendHdrPos = 0) : c.Kept := by
  intro m _ h
  omega

/-- From the beginning of a frame, the socket gets all bytes only if the frames
    are accepted at once. -/
theorem atOnce_of_wire :
    ∀ (as : List ℕ) {c c' : Caller}, c.ws.sendHdrPos = 0 → runs Caller.step c as = .ok c' →
      c'.left = [] →
    c'.wire.length = c.reach → AtOnce c.ws.sendMask c.left as
  | [], c, _, _, _, _, _ => by
    rcases c.left with _ | ⟨m, _ | ⟨next, ms⟩⟩ <;> trivial
  | a :: as, c, c', hpos, h, hdone, hlen => by
    obtain ⟨c₁, hstep, hrest⟩ := bind_ok.mp h
    have hkept := Caller.kept_start hpos
    rcases hleft : c.left with _ | ⟨m, _ | ⟨next, ms⟩⟩
    · trivial
    · trivial
    · obtain ⟨hle, -⟩ := Caller.reach_step hleft hkept hstep
      obtain ⟨-, hmask, -, hzero, hcases⟩ := Caller.step_spec hleft hkept hstep
      have hsame : c'.wire.length = c₁.reach := by
        have hlow := wire_le as (Caller.kept_step hkept hstep) hrest hdone
        omega
      rw [Sender.pending_start m hpos] at hzero hcases
      rcases hcases with ⟨hall, hleft₁, -⟩ | ⟨hpart, hleft₁, -, -⟩
      · have hrec := atOnce_of_wire as (hzero.mpr ⟨hpos, .inr hall⟩) hrest hdone hsame
        rw [hmask, hleft₁] at hrec
        exact .inr ⟨hall, hrec⟩
      · rcases Nat.eq_zero_or_pos a with ha | ha
        · have hrec := atOnce_of_wire as (hzero.mpr ⟨hpos, .inl ha⟩) hrest hdone hsame
          rw [hmask, hleft₁] at hrec
          exact .inl ⟨ha, hrec⟩
        · -- the frame is in pieces
          have hbroken : c₁.ws.sendHdrPos ≠ 0 := fun h0 => by
            have := (hzero.mp h0).2
            omega
          have hlt := wire_lt as hleft₁ (Caller.kept_step hkept hstep) hbroken hrest hdone
          omega

/-- A caller with nothing left to send makes no call. -/
theorem runs_nil : ∀ (as : List ℕ) {c : Caller}, c.left = [] → runs Caller.step c as = .ok c
  | [], _, _ => rfl
  | a :: as, c, h => by
    rw [runs, Caller.step_nil h, ok_bind]
    exact runs_nil as h

/-- The last frame is completed, in however many pieces. -/
theorem wire_last :
    ∀ (as : List ℕ) {c : Caller} {m : Message}, c.left = [m] → c.ws.Within m →
      Done (runs Caller.step c as) →
    ∃ c', runs Caller.step c as = .ok c' ∧ c'.wire = c.wire ++ c.ws.pending m
  | [], c, m, hleft, _, hdone => by
    have hnil := hdone c rfl
    rw [hleft] at hnil
    nomatch hnil
  | a :: as, c, m, hleft, hwithin, hdone => by
    obtain ⟨c₁, hstep⟩ := Caller.step_ok hleft hwithin a
    have hkept : c.Kept := fun m' hm' => by
      rw [hleft, List.head?_cons, Option.mem_some_iff] at hm'
      exact hm' ▸ hwithin.2
    rw [runs, hstep, ok_bind] at hdone ⊢
    obtain ⟨-, -, hwire, -, ⟨hall, hleft', -⟩ | ⟨hpart, hleft', hin, hpending⟩⟩ :=
      Caller.step_spec hleft hkept hstep
    · refine ⟨_, runs_nil as hleft', ?_⟩
      rw [hwire, List.take_of_length_le hall]
    · obtain ⟨c', hrest, hlast⟩ := wire_last as hleft' hin hdone
      refine ⟨c', hrest, ?_⟩
      rw [hlast, hpending, hwire, List.append_assoc, List.take_append_drop]

/-- Frames that are accepted at once are all on the wire when the calls are done. -/
theorem wire_of_atOnce :
    ∀ (as : List ℕ) {c : Caller}, c.ws.sendHdrPos = 0 → AtOnce c.ws.sendMask c.left as →
    Done (runs Caller.step c as) → ∃ c', runs Caller.step c as = .ok c' ∧
      c'.wire = c.wire ++ encodings c.ws.sendMask c.left
  | as, c, hpos, hat, hdone => by
    have hkept := Caller.kept_start hpos
    rcases hleft : c.left with _ | ⟨m, _ | ⟨next, ms⟩⟩
    · exact ⟨c, runs_nil as hleft, by simp [encodings]⟩
    · have hwithin : c.ws.Within m := ⟨fun _ => by omega, fun h => by omega⟩
      obtain ⟨c', hrun, hwire⟩ := wire_last as hleft hwithin hdone
      refine ⟨c', hrun, ?_⟩
      rw [hwire, Sender.pending_start m hpos, encodings, List.flatMap_singleton]
    · match as with
      | [] =>
        have hnil := hdone c rfl
        rw [hleft] at hnil
        nomatch hnil
      | a :: as =>
        have hwithin : c.ws.Within m := ⟨fun _ => by omega, fun h => by omega⟩
        obtain ⟨c₁, hstep⟩ := Caller.step_ok hleft hwithin a
        obtain ⟨-, hmask, hwire, hzero, hcases⟩ := Caller.step_spec hleft hkept hstep
        rw [runs, hstep, ok_bind] at hdone ⊢
        rw [Sender.pending_start m hpos] at hwire hzero hcases
        rw [hleft] at hat
        rcases hat with ⟨ha, hat⟩ | ⟨hall, hat⟩
        · have hlen : 2 ≤ (m.encode c.ws.sendMask).length := by
            rw [length_encode]
            have := (length_sendHdr c.ws.sendMask m).1
            omega
          obtain ⟨-, hleft', -⟩ := hcases.resolve_left fun h => by omega
          obtain ⟨c', hrun, hlast⟩ :=
            wire_of_atOnce as (hzero.mpr ⟨hpos, .inl ha⟩) (by rw [hmask, hleft']; exact hat) hdone
          refine ⟨c', hrun, ?_⟩
          rw [hlast, hmask, hleft', hwire, ha, List.take_zero, List.append_nil]
        · obtain ⟨-, hleft', -⟩ := hcases.resolve_right fun h => by omega
          obtain ⟨c', hrun, hlast⟩ :=
            wire_of_atOnce as (hzero.mpr ⟨hpos, .inr hall⟩) (by rw [hmask, hleft']; exact hat) hdone
          refine ⟨c', hrun, ?_⟩
          rw [hlast, hmask, hleft', hwire, List.take_of_length_le hall, List.append_assoc]
          rfl

/-- When every call has returned true, the socket has got the frames, each whole and once and in
    order, if and only if every frame but the last was accepted in one piece. -/
theorem sent_whole_iff (sendMask : Bool) (ms : List Message) (accepts : List ℕ)
    (hdone : Done (sendAll sendMask ms accepts)) :
    Whole sendMask ms (sendAll sendMask ms accepts) ↔ AtOnce sendMask ms accepts := by
  constructor
  · rintro ⟨c, hrun, hwire⟩
    refine atOnce_of_wire accepts (c := ⟨⟨sendMask, 0, 0⟩, ms, []⟩) rfl hrun (hdone c hrun) ?_
    rcases ms with _ | ⟨m, ms⟩
    · rw [hwire]
      rfl
    · have hpending := Sender.pending_start (s := ⟨sendMask, 0, 0⟩) m rfl
      simp only [hwire, Caller.reach, hpending, encodings, List.flatMap_cons, List.length_append,
        List.length_nil, Nat.zero_add]
  · intro hat
    obtain ⟨c, hrun, hwire⟩ :=
      wire_of_atOnce accepts (c := ⟨⟨sendMask, 0, 0⟩, ms, []⟩) rfl hat hdone
    exact ⟨c, hrun, by simpa using hwire⟩

/-- A text of two bytes. -/
def twoBytes : Message := ⟨.text, [104, 105], false, by decide⟩

/-- The first frame is accepted at once after a write that took nothing, the
    second in three pieces. -/
theorem sent_whole_twice :
    Whole false [twoBytes, twoBytes] (sendAll false [twoBytes, twoBytes] [0, 4, 1, 2, 9]) := by
  have hleft : (sendAll false [twoBytes, twoBytes] [0, 4, 1, 2, 9]).map (fun c => c.left.length) =
    .ok 0 := by decide +kernel
  have hdone : Done (sendAll false [twoBytes, twoBytes] [0, 4, 1, 2, 9]) := fun c hc => by
    rw [hc] at hleft
    exact List.length_eq_zero_iff.mp (Except.ok.inj hleft)
  refine (sent_whole_iff false _ _ hdone).mpr (.inl ⟨rfl, .inr ⟨?_, trivial⟩⟩)
  decide +kernel

/-- The first frame is accepted in two pieces. -/
theorem sent_not_whole_pieces :
    ¬Whole false [twoBytes, twoBytes] (sendAll false [twoBytes, twoBytes] [3, 9, 9]) := by
  have hwire : (sendAll false [twoBytes, twoBytes] [3, 9, 9]).map (fun c => c.wire) =
    .ok [0x81, 2, 104, 105] := by decide +kernel
  rintro ⟨c, hrun, heq⟩
  rw [hrun] at hwire
  have hshort := Except.ok.inj hwire
  simp only [heq] at hshort
  revert hshort
  decide +kernel

end Matching.WebSocket
