import Matching.Net.OdrQuery

/-! The framing of query requests. `on_msg` keeps the incomplete request at the end of a message as
    it should, and completes it; a request that lies whole in one message it copies from the item's
    buffer, where the last request is that was split between messages. -/

namespace Matching.OdrQuery

/-- A message completes the request that is pending. -/
def Completes (pending chunk : List UInt8) : Prop :=
  pending ≠ [] ∧ sizeofRequest ≤ pending.length + chunk.length

instance (pending chunk : List UInt8) : Decidable (Completes pending chunk) := by
  unfold Completes
  infer_instance

/-- The last request that was split between messages, this one included. -/
def lastSplit (last pending chunk : List UInt8) : List UInt8 :=
  if Completes pending chunk then (pending ++ chunk).take sizeofRequest else last

/-- The requests that lie whole in one message. -/
def within (pending chunk : List UInt8) : List (List UInt8) :=
  blocks sizeofRequest (if pending ≠ [] then chunk.drop (sizeofRequest - pending.length) else chunk)

/-- Every request that lies whole in one message is the one that was split between messages last, or
    all zeros when there was none. -/
def Repeats (last pending : List UInt8) : List (List UInt8) → Prop
  | [] => True
  | chunk :: chunks =>
    (∀ r ∈ within pending chunk, Request.ofBytes r =
      Request.ofBytes (lastSplit last pending chunk)) ∧
      Repeats (lastSplit last pending chunk) (remainder sizeofRequest (pending ++ chunk)) chunks

/-- What was handled is what the connection sent, cut into requests, and the rest is kept. -/
def Framed (mktMap : ℕ → Bool) (chunks : List (List UInt8)) : Prop :=
  (RequestBuffer.start.receive mktMap chunks).1 =
      (blocks sizeofRequest chunks.flatten).map (fun r => act mktMap (Request.ofBytes r)) ∧
    (RequestBuffer.start.receive mktMap chunks).2.kept = remainder sizeofRequest chunks.flatten

namespace RequestBuffer

/-- An item between two messages: the pending bytes in front, or the last request that was split. -/
structure Holds (item : RequestBuffer) (last pending : List UInt8) : Prop where
  buff : item.buff.length = sizeofRequest
  rest : item.rest = pending.length
  short : pending.length < sizeofRequest
  kept : item.kept = pending
  last : pending = [] → item.buff = last

theorem holds_start : start.Holds (List.replicate sizeofRequest 0) [] :=
  ⟨List.length_replicate, rfl, by decide, rfl, fun _ => rfl⟩

variable (mktMap : ℕ → Bool) {item : RequestBuffer} {last pending : List UInt8}

/-! ### One message -/

theorem loop_eq (item : RequestBuffer) : ∀ msgCnt ptr size : ℕ,
    loop mktMap item msgCnt ptr size =
      (List.replicate msgCnt (act mktMap (Request.ofBytes item.buff)),
      ptr + msgCnt * sizeofRequest, size - msgCnt * sizeofRequest)
  | 0, ptr, size => by simp [loop]
  | msgCnt + 1, ptr, size => by
    simp only [loop, loop_eq item msgCnt, List.replicate_succ, Nat.succ_mul,
      Prod.mk.injEq, true_and]
    omega

/-- From the loop on: as many requests as there are, all of them what the buffer holds. -/
theorem finish_eq {src : List UInt8} {ptr size : ℕ} (hbuff : item.buff.length = sizeofRequest)
    (hrest : item.rest = 0) (hend : ptr + size = src.length) :
    (finish mktMap item src ptr size).1 =
        List.replicate (blocks sizeofRequest (src.drop ptr)).length
          (act mktMap (Request.ofBytes item.buff)) ∧
      (finish mktMap item src ptr size).2.Holds item.buff
        (remainder sizeofRequest (src.drop ptr)) := by
  have hlen : (src.drop ptr).length = size := by rw [List.length_drop]; omega
  have hmod : size % sizeofRequest < sizeofRequest := Nat.mod_lt _ (by decide)
  have hsplit := Nat.div_add_mod' size sizeofRequest
  have hleft : size - size / sizeofRequest * sizeofRequest = size % sizeofRequest := by omega
  have hrem : (remainder sizeofRequest (src.drop ptr)).length = size % sizeofRequest := by
    rw [length_remainder, hlen]
  have htail : remainder sizeofRequest (src.drop ptr) =
      src.drop (ptr + size / sizeofRequest * sizeofRequest) := by
    rw [remainder, hlen, List.drop_drop]
  have hcnt : (blocks sizeofRequest (src.drop ptr)).length = size / sizeofRequest := by
    simp [blocks, hlen]
  rw [finish, loop_eq, hleft, hcnt]
  refine ⟨rfl, ?_⟩
  rcases Nat.eq_zero_or_pos (size % sizeofRequest) with hzero | hpos
  · have hnil : remainder sizeofRequest (src.drop ptr) = [] :=
      List.length_eq_zero_iff.mp (hrem.trans hzero)
    simp only [hzero, gt_iff_lt, lt_irrefl, if_false, hnil]
    exact ⟨hbuff, hrest, by decide, by rw [kept, hrest, List.take_zero], fun _ => rfl⟩
  · have hne : remainder sizeofRequest (src.drop ptr) ≠ [] :=
      fun h => by rw [h, List.length_nil] at hrem; omega
    simp only [gt_iff_lt, hpos, if_true]
    refine ⟨(length_memcpy (by omega) (by omega)).trans hbuff, hrem.symm, by omega, ?_,
      fun h => absurd h hne⟩
    have hfront := take_memcpy_front (show size % sizeofRequest ≤ item.buff.length by omega)
      (show ptr + size / sizeofRequest * sizeofRequest + size % sizeofRequest = src.length by omega)
    rw [htail]
    exact hfront

/-- A message: the pending request is completed, and every request after it is taken for the last
    one that was split. -/
theorem onMsg_spec (hitem : item.Holds last pending) (chunk : List UInt8) :
    (item.onMsg mktMap chunk).1 =
        (if Completes pending chunk then [act mktMap
          (Request.ofBytes (lastSplit last pending chunk))] else []) ++
          List.replicate (within pending chunk).length
            (act mktMap (Request.ofBytes (lastSplit last pending chunk))) ∧
      (item.onMsg mktMap chunk).2.Holds (lastSplit last pending chunk)
        (remainder sizeofRequest (pending ++ chunk)) := by
  obtain ⟨hbuff, hrest, hshort, hkept, hlast⟩ := hitem
  by_cases hnil : pending = []
  · -- nothing is pending: the whole requests are all taken for the last one that was split
    have hno : ¬Completes pending chunk := fun h => h.1 hnil
    have hzero : item.rest = 0 := by rw [hrest, hnil]; rfl
    have hfinish := finish_eq mktMap hbuff hzero (Nat.zero_add chunk.length)
    rw [hlast hnil, List.drop_zero] at hfinish
    rw [onMsg, if_neg (not_not.mpr hzero), if_neg hno, lastSplit, if_neg hno, within,
      if_neg (not_not.mpr hnil), hnil, List.nil_append, List.nil_append]
    exact hfinish
  · have hpos : 0 < pending.length := List.length_pos_of_ne_nil hnil
    simp only [onMsg, if_pos (show item.rest ≠ 0 by omega), within, if_pos hnil]
    rcases Nat.lt_or_ge chunk.length (sizeofRequest - item.rest) with hlt | hge
    · -- it stays incomplete
      have hno : ¬Completes pending chunk := fun h => by have := h.2; omega
      have hwhole : chunk.drop (sizeofRequest - pending.length) = [] :=
        List.drop_eq_nil_of_le (by omega)
      have hlen : (pending ++ chunk).length < sizeofRequest := by rw [List.length_append]; omega
      have htake := take_memcpy (show item.rest + chunk.length ≤ item.buff.length by omega)
        (show 0 + chunk.length ≤ chunk.length by omega)
      rw [List.drop_zero, List.take_length, ← kept, hkept] at htake
      rw [if_pos hlt, if_neg hno, lastSplit, if_neg hno, hwhole, remainder_of_lt hlen]
      refine ⟨by simp [blocks],
        ⟨(length_memcpy (by omega) (by omega)).trans hbuff, ?_, hlen, htake, ?_⟩⟩
      · rw [List.length_append, hrest]
      · exact fun h => absurd (List.append_eq_nil_iff.mp h).1 hnil
    · have hyes : Completes pending chunk := ⟨hnil, by omega⟩
      have hfirst : memcpy item.buff item.rest chunk 0 (sizeofRequest - item.rest) =
          pending ++ chunk.take (sizeofRequest - pending.length) := by
        rw [memcpy_fill (by omega), List.drop_zero, ← kept, hkept, hrest]
      have hlen : (pending ++ chunk.take (sizeofRequest - pending.length)).length =
          sizeofRequest := by
        rw [List.length_append, List.length_take]; omega
      have htake : (pending ++ chunk).take sizeofRequest =
          pending ++ chunk.take (sizeofRequest - pending.length) := by
        rw [List.take_append, List.take_of_length_le hshort.le]
      have hr :=
        remainder_block (show 0 < sizeofRequest by decide) hlen
          (chunk.drop (sizeofRequest - pending.length))
      rw [List.append_assoc, List.take_append_drop] at hr
      have hfinish :=
        finish_eq mktMap
          (show (RequestBuffer.mk
          (pending ++ chunk.take (sizeofRequest - pending.length)) 0).buff.length = _ from hlen) rfl
        (show sizeofRequest - pending.length + (chunk.length - (sizeofRequest - pending.length)) =
          chunk.length by omega)
      rw [if_neg (show ¬chunk.length < sizeofRequest - item.rest by omega), if_pos hyes, lastSplit,
        if_pos hyes, htake, hr, hfirst, hrest]
      exact ⟨congrArg _ hfinish.1, hfinish.2⟩

/-- The requests a message completes and holds. -/
theorem blocks_message (last : List UInt8) (hshort : pending.length < sizeofRequest)
    (chunk : List UInt8) :
    blocks sizeofRequest (pending ++ chunk) =
      (if Completes pending chunk then [lastSplit last pending chunk] else []) ++
        within pending chunk := by
  by_cases hnil : pending = []
  · have hno : ¬Completes pending chunk := fun h => h.1 hnil
    rw [if_neg hno, within, if_neg (not_not.mpr hnil), hnil, List.nil_append, List.nil_append]
  · rw [within, if_pos hnil]
    by_cases hyes : Completes pending chunk
    · have hge := hyes.2
      have hlen : (pending ++ chunk.take (sizeofRequest - pending.length)).length =
          sizeofRequest := by
        rw [List.length_append, List.length_take]; omega
      have htake : (pending ++ chunk).take sizeofRequest =
          pending ++ chunk.take (sizeofRequest - pending.length) := by
        rw [List.take_append, List.take_of_length_le hshort.le]
      have hb :=
        blocks_block (show 0 < sizeofRequest by decide) hlen
          (chunk.drop (sizeofRequest - pending.length))
      rw [List.append_assoc, List.take_append_drop] at hb
      rw [if_pos hyes, lastSplit, if_pos hyes, htake, hb, List.singleton_append]
    · have hlt : (pending ++ chunk).length < sizeofRequest := by
        rw [List.length_append]
        exact Nat.lt_of_not_le fun h => hyes ⟨hnil, h⟩
      have hwhole : chunk.drop (sizeofRequest - pending.length) = [] := by
        rw [List.length_append] at hlt
        exact List.drop_eq_nil_of_le (by omega)
      rw [if_neg hyes, hwhole, blocks_of_lt hlt, List.nil_append, blocks_of_lt (by decide)]

/-- A message is handled as it should be when the requests in it are the one that was split last. -/
theorem onMsg_iff (hitem : item.Holds last pending) (chunk : List UInt8) :
    (item.onMsg mktMap chunk).1 = (blocks sizeofRequest (pending ++ chunk)).map
      (fun r => act mktMap (Request.ofBytes r)) ↔
      ∀ r ∈ within pending chunk, Request.ofBytes r =
        Request.ofBytes (lastSplit last pending chunk) := by
  have hfirst : (if Completes pending chunk then [lastSplit last pending chunk] else []).map
      (fun r => act mktMap (Request.ofBytes r)) =
        if Completes pending chunk then [act mktMap
          (Request.ofBytes (lastSplit last pending chunk))] else [] := by
    split <;> rfl
  rw [(onMsg_spec mktMap hitem chunk).1, blocks_message last hitem.short, List.map_append, hfirst,
    List.append_cancel_left_eq, eq_comm, List.eq_replicate_iff]
  simp [act_inj]

/-! ### All messages -/

theorem length_onMsg (hitem : item.Holds last pending) (chunk : List UInt8) :
    (item.onMsg mktMap chunk).1.length = (blocks sizeofRequest (pending ++ chunk)).length := by
  rw [(onMsg_spec mktMap hitem chunk).1, blocks_message last hitem.short, List.length_append,
    List.length_append, List.length_replicate]
  split <;> rfl

/-- The rest of a connection, and what is kept at its end. -/
theorem receive_iff :
    ∀ (chunks : List (List UInt8)) {item : RequestBuffer} {last pending : List UInt8},
    item.Holds last pending →
    ((item.receive mktMap chunks).1 =
        (blocks sizeofRequest (pending ++ chunks.flatten)).map
          (fun r => act mktMap (Request.ofBytes r)) ↔
      Repeats last pending chunks) ∧
      (item.receive mktMap chunks).2.kept = remainder sizeofRequest (pending ++ chunks.flatten)
  | [], item, last, pending, hitem => by
    rw [List.flatten_nil, List.append_nil, blocks_of_lt hitem.short, remainder_of_lt hitem.short]
    exact ⟨iff_of_true rfl trivial, hitem.kept⟩
  | chunk :: chunks, item, last, pending, hitem => by
    obtain ⟨hrec, hkept⟩ := receive_iff chunks (onMsg_spec mktMap hitem chunk).2
    obtain ⟨hb, hr⟩ :=
      blocks_append (show 0 < sizeofRequest by decide) (pending ++ chunk) chunks.flatten
    rw [List.flatten_cons, ← List.append_assoc, hb, hr]
    refine ⟨?_, hkept⟩
    have hlen : (item.onMsg mktMap chunk).1.length =
        ((blocks sizeofRequest (pending ++ chunk)).map
          (fun r => act mktMap (Request.ofBytes r))).length := by
      rw [List.length_map, length_onMsg mktMap hitem]
    rw [Repeats, ← hrec, ← onMsg_iff mktMap hitem, receive, List.map_append]
    exact List.append_eq_append_iff_of_size_eq_left hlen

end RequestBuffer

/-- What a connection sent is handled request by request if and only if every request that arrived
    in one piece is the one that last arrived in several. -/
theorem requests_framed_iff (mktMap : ℕ → Bool) (chunks : List (List UInt8)) :
    Framed mktMap chunks ↔ Repeats (List.replicate sizeofRequest 0) [] chunks := by
  obtain ⟨hiff, hkept⟩ := RequestBuffer.receive_iff mktMap chunks RequestBuffer.holds_start
  rw [List.nil_append] at hiff hkept
  rw [Framed, hiff]
  exact and_iff_left hkept

/-- One request, in one message: account 1, market 2, request 3. -/
def oneMessage : List (List UInt8) :=
  [[1, 0, 0, 0, 0, 0, 0, 0, 2, 0, 0, 0, 0, 0, 0, 0, 3, 0, 0, 0, 0, 0, 0, 0]]

/-- What is queued for the market is nobody's request. -/
theorem oneMessage_not_framed : ¬Framed (fun _ => true) oneMessage := by
  have hacts : (RequestBuffer.start.receive (fun _ => true) oneMessage).1 =
    [.enqueue 0 ⟨0, 0, 0⟩] := by decide +kernel
  rintro ⟨h, -⟩
  rw [hacts] at h
  revert h
  decide +kernel

end Matching.OdrQuery
