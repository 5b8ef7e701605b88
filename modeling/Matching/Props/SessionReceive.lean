import Matching.Proxy.SessionReceive

/-! A session takes every message by itself: what is handed on for a message depends on its own
    pieces only. A message that fits `msg_buf` is handed on as it was sent, however it was cut; of a
    longer one nothing is handed on, or what its last pieces hold, as a message that nobody sent. -/

namespace Matching.SessionReceive

variable {β : Type} {s : Session β} {ps : List (Piece β)}

/-! ### Pieces in the middle -/

/-- What is collected after pieces that end no message. -/
def collect : List β → List (Piece β) → List β
  | buf, [] => buf
  | buf, p :: ps =>
    collect (if p.bytes.length + buf.length > msgBufSz then [] else buf ++ p.bytes) ps

theorem foldl_receive : ∀ (ps : List (Piece β)) (s : Session β), (∀ p ∈ ps, ¬ p.last) →
    ps.foldl Session.receive s = ⟨collect s.msgBuf ps, s.received⟩
  | [], _, _ => rfl
  | p :: ps, s, h => by
    have hp : ¬ p.last := h p List.mem_cons_self
    have hps : ∀ q ∈ ps, ¬ q.last := fun q hq => h q (List.mem_cons_of_mem _ hq)
    rw [List.foldl_cons, foldl_receive ps _ hps, collect]
    unfold Session.receive
    by_cases hfull : p.bytes.length + s.msgBuf.length > msgBufSz
    · simp only [if_pos hfull]
    · simp only [if_neg hfull, if_neg hp]

/-- What is collected is the end of what arrived; all of it, if all of it fits. -/
theorem collect_suffix :
    ∀ (ps : List (Piece β)) (buf : List β), collect buf ps <:+ buf ++ payload ps
  | [], buf => by simp [collect, payload]
  | p :: ps, buf => by
    rw [collect]
    split
    · refine (collect_suffix ps []).trans ⟨buf ++ p.bytes, ?_⟩
      simp [payload]
    · have hsuffix := collect_suffix ps (buf ++ p.bytes)
      rwa [List.append_assoc] at hsuffix

theorem collect_fits :
    ∀ (ps : List (Piece β)) (buf : List β), (buf ++ payload ps).length ≤ msgBufSz →
    collect buf ps = buf ++ payload ps
  | [], buf, _ => by simp [collect, payload]
  | p :: ps, buf, h => by
    have hsplit : buf ++ payload (p :: ps) = buf ++ p.bytes ++ payload ps := by simp [payload]
    rw [hsplit] at h ⊢
    have hle := h
    rw [List.length_append, List.length_append] at hle
    rw [collect, if_neg (by omega), collect_fits ps _ h]

/-! ### A message -/

/-- A message is its pieces in the middle and the last one. -/
theorem IsMessage.split (h : IsMessage ps) :
    ∃ qs p, ps = qs ++ [p] ∧ p.last ∧ ∀ q ∈ qs, ¬ q.last := by
  have hlast := List.getLast?_eq_some_getLast h.ne_nil
  exact ⟨ps.dropLast, ps.getLast h.ne_nil, (List.dropLast_append_getLast h.ne_nil).symm,
    h.last _ hlast, h.notLast⟩

/-- What the last piece does to what is collected. -/
def finish (buf : List β) (p : Piece β) : List (List β) :=
  if p.bytes.length + buf.length > msgBufSz then [] else [buf ++ p.bytes]

theorem receive_last (s : Session β) {p : Piece β} (hp : p.last) :
    s.receive p = ⟨[], s.received ++ finish s.msgBuf p⟩ := by
  unfold Session.receive finish
  by_cases hfull : p.bytes.length + s.msgBuf.length > msgBufSz
  · simp only [if_pos hfull, List.append_nil]
  · simp only [if_neg hfull, if_pos hp]

/-- The pieces of a message, whatever is collected in front of them. -/
theorem foldl_message {qs : List (Piece β)} {p : Piece β} (hp : p.last) (hqs : ∀ q ∈ qs, ¬ q.last)
    (s : Session β) :
    (qs ++ [p]).foldl Session.receive s = ⟨[], s.received ++ finish (collect s.msgBuf qs) p⟩ := by
  rw [List.foldl_append, foldl_receive qs s hqs, List.foldl_cons, List.foldl_nil, receive_last _ hp]

/-- What is handed on for a message. -/
theorem handed_eq {qs : List (Piece β)} {p : Piece β} (hp : p.last) (hqs : ∀ q ∈ qs, ¬ q.last) :
    handed (qs ++ [p]) = finish (collect [] qs) p := by
  rw [handed, foldl_message hp hqs]
  rfl

/-- A session that has collected nothing has collected nothing behind a message. -/
theorem receive_message (h : IsMessage ps) (hs : s.msgBuf = []) :
    ps.foldl Session.receive s = ⟨[], s.received ++ handed ps⟩ := by
  obtain ⟨qs, p, rfl, hp, hqs⟩ := h.split
  rw [foldl_message hp hqs, handed_eq hp hqs, hs]

/-- A message that fits is handed on. -/
theorem handed_fits (h : IsMessage ps) (hfits : (payload ps).length ≤ msgBufSz) :
    handed ps = [payload ps] := by
  obtain ⟨qs, p, rfl, hp, hqs⟩ := h.split
  have hpayload : payload (qs ++ [p]) = payload qs ++ p.bytes := by simp [payload]
  rw [hpayload, List.length_append] at hfits
  have hcollect := collect_fits qs [] (by rw [List.nil_append]; omega)
  rw [List.nil_append] at hcollect
  rw [handed_eq hp hqs, hcollect, hpayload, finish, if_neg (by omega)]

/-- Of a message that does not fit, a part is handed on at most. -/
theorem handed_long (h : IsMessage ps) (hlong : msgBufSz < (payload ps).length) :
    handed ps = [] ∨ ∃ text, handed ps = [text] ∧ text <:+ payload ps ∧ text ≠ payload ps ∧
      text.length ≤ msgBufSz := by
  obtain ⟨qs, p, rfl, hp, hqs⟩ := h.split
  have hpayload : payload (qs ++ [p]) = payload qs ++ p.bytes := by simp [payload]
  rw [handed_eq hp hqs, finish]
  split
  · exact .inl rfl
  · refine .inr ⟨_, rfl, ?_, ?_, ?_⟩
    · rw [hpayload]
      obtain ⟨front, hfront⟩ := collect_suffix qs []
      rw [List.nil_append] at hfront
      exact ⟨front, by rw [← List.append_assoc, hfront]⟩
    · intro heq
      rw [← heq, List.length_append] at hlong
      omega
    · rw [List.length_append]
      omega

/-! ### Every connection -/

/-- Messages, and the pieces so far of one that has not ended: what is handed on is what each
    message by itself has handed on, in the order of the messages. One that fits `msg_buf` is handed
    on once and as it was sent; of a longer one nothing is handed on, or a proper end of it. -/
theorem received_messages (ms : List (List (Piece β))) (hms : ∀ ps ∈ ms, IsMessage ps)
    (qs : List (Piece β)) (hqs : ∀ q ∈ qs, ¬ q.last) :
    ((ms.flatten ++ qs).foldl Session.receive .init).received = ms.flatMap handed ∧
    ∀ ps ∈ ms, ((payload ps).length ≤ msgBufSz → handed ps = [payload ps]) ∧
      (msgBufSz < (payload ps).length → handed ps = [] ∨
        ∃ text, handed ps = [text] ∧ text <:+ payload ps ∧ text ≠ payload ps ∧
          text.length ≤ msgBufSz) := by
  have hall : ∀ (ms : List (List (Piece β))) (s : Session β), (∀ ps ∈ ms, IsMessage ps) →
      s.msgBuf = [] →
      ms.flatten.foldl Session.receive s = ⟨[], s.received ++ ms.flatMap handed⟩ := by
    intro ms
    induction ms with
    | nil =>
      intro s _ hs
      simp [← hs]
    | cons ps ms ih =>
      intro s hms hs
      rw [List.flatten_cons, List.foldl_append, receive_message (hms ps List.mem_cons_self) hs,
        ih _ (fun qs hq => hms qs (List.mem_cons_of_mem _ hq)) rfl, List.flatMap_cons,
        List.append_assoc]
  refine ⟨?_, fun ps hps => ⟨handed_fits (hms ps hps), handed_long (hms ps hps)⟩⟩
  rw [List.foldl_append, hall ms .init hms rfl, foldl_receive qs _ hqs]
  rfl

/-- Most of a message of 258 bytes, of whose one frame three are still to come. -/
def bulk : Piece UInt8 := ⟨List.replicate 255 3, 3, true⟩

/-- A message of two bytes in two frames, and one of 258 bytes of which the last
    is handed on by itself. -/
def twoMessages : List (List (Piece UInt8)) :=
  [[⟨[1], 0, false⟩, ⟨[2], 0, true⟩], [bulk, ⟨[4, 5], 1, true⟩, ⟨[6], 0, true⟩]]

theorem received_messages_two :
    (twoMessages.flatten.foldl Session.receive .init).received = [[1, 2], [6]] := by
  have hms : ∀ ps ∈ twoMessages, IsMessage ps := by
    rintro ps hps
    rcases List.mem_cons.mp hps with rfl | hps
    · exact ⟨by simp, by simp [Piece.last], by simp [Piece.last]⟩
    · obtain rfl := List.mem_singleton.mp hps
      have hbulk : bulk.remaining ≠ 0 := by decide
      exact ⟨by simp, by simp [Piece.last], by simp [hbulk, Piece.last]⟩
  have h := received_messages twoMessages hms [] (by simp)
  rw [List.append_nil] at h
  rw [h.1]
  decide +kernel

end Matching.SessionReceive
