import Matching.Lib.Machine
import Matching.Lib.Stream

/-! `matching_tcp_service`, the way in: what `::recv` returns for a client goes to
    `order_handler::handle`, which cuts it into orders of `sizeof(order)` bytes and hands each to
    the engine. The service has one `order_handler` for all its clients. An order is its bytes; `n`
    is `sizeof(order)`. -/

namespace Matching.MatchingTcpService

variable {ι β : Type} [DecidableEq ι]

/-- `sizeof(matching::order)`: seventeen words, seven bytes and one of padding, two words. -/
def sizeofOrder : ℕ := 160

/-- The loop of `handle`: while there is a whole order, it is handed on. What is left is not. -/
def handleWhole (n : ℕ) : ℕ → List β → List (List β) × List β
  | 0, bytes => ([], bytes)
  | k + 1, bytes =>
    if n ≤ bytes.length then
      let (orders, rest) := handleWhole n k (bytes.drop n)
      (bytes.take n :: orders, rest)
    else ([], bytes)

/-- `order_handler::handle` with `rest_` bytes in `buff_`: the orders it hands on and what `buff_`
    holds afterwards. -/
def handle (n : ℕ) (buff bytes : List β) : List (List β) × List β :=
  if buff ≠ [] then
    let cpSize := min (n - buff.length) bytes.length
    let buff := buff ++ bytes.take cpSize
    if buff.length ≠ n then ([], buff)
    else
      let bytes := bytes.drop cpSize
      let (orders, rest) := handleWhole n bytes.length bytes
      (buff :: orders, rest)
  else handleWhole n bytes.length bytes

/-- The handler's buffer, the orders the engine was given, and what each client's connection
    delivered (which the code does not keep). -/
structure Service (ι β : Type) where
  buff : List β
  orders : List (List β)
  received : ι → List β

/-- What the clients' connections do. -/
inductive Event (ι β : Type) where
  | chunk (c : ι) (bytes : List β)
  | disconnect (c : ι)

namespace Service

def start : Service ι β := ⟨[], [], fun _ => []⟩

/-- `on_msg`, and the disconnect callback, which the service does not set. -/
def step (n : ℕ) (s : Service ι β) : Event ι β → Service ι β
  | .chunk c bytes =>
    let (orders, buff) := handle n s.buff bytes
    { buff := buff, orders := s.orders ++ orders,
      received := Function.update s.received c (s.received c ++ bytes) }
  | .disconnect _ => s

/-- The engine was given an interleaving of the orders the clients sent, cut at those that arrived
    whole. -/
def Framed (n : ℕ) (s : Service ι β) (sent : ι → List (List β)) : Prop :=
  Interleaves (fun c => (sent c).take ((s.received c).length / n)) s.orders

/-- No other client, connected or not, is in the middle of an order when a client's bytes arrive. -/
def Apart (n : ℕ) (s : Service ι β) : Event ι β → Prop
  | .chunk c _ => ∀ d ≠ c, n ∣ (s.received d).length
  | .disconnect _ => True

end Service

/-! ### One stream -/

variable {n : ℕ}

theorem handleWhole_eq (hn : 0 < n) : ∀ (k : ℕ) (bytes : List β), bytes.length ≤ k →
    handleWhole n k bytes = (blocks n bytes, remainder n bytes)
  | 0, bytes, h => by
    have hlt : bytes.length < n := by omega
    rw [handleWhole, blocks_of_lt hlt, remainder_of_lt hlt]
  | k + 1, bytes, h => by
    by_cases hle : n ≤ bytes.length
    · have hlen : (bytes.take n).length = n := by rw [List.length_take]; omega
      have hdrop : (bytes.drop n).length ≤ k := by rw [List.length_drop]; omega
      have hb := blocks_block hn hlen (bytes.drop n)
      have hr := remainder_block hn hlen (bytes.drop n)
      rw [List.take_append_drop] at hb hr
      simp only [handleWhole, if_pos hle, handleWhole_eq hn k _ hdrop, hb, hr]
    · have hlt : bytes.length < n := by omega
      rw [handleWhole, if_neg hle, blocks_of_lt hlt, remainder_of_lt hlt]

/-- `handle` cuts what it holds and what arrives as one sequence. -/
theorem handle_eq (hn : 0 < n) {buff : List β} (hbuff : buff.length < n) (bytes : List β) :
    handle n buff bytes = (blocks n (buff ++ bytes), remainder n (buff ++ bytes)) := by
  by_cases hnil : buff = []
  · subst hnil
    rw [handle, if_neg (not_not.mpr rfl), handleWhole_eq hn _ _ (Nat.le_refl _), List.nil_append]
  · simp only [handle, if_pos hnil]
    by_cases hfull : n - buff.length ≤ bytes.length
    · rw [Nat.min_eq_left hfull]
      have hlen : (buff ++ bytes.take (n - buff.length)).length = n := by
        rw [List.length_append, List.length_take]; omega
      have hb := blocks_block hn hlen (bytes.drop (n - buff.length))
      have hr := remainder_block hn hlen (bytes.drop (n - buff.length))
      rw [List.append_assoc, List.take_append_drop] at hb hr
      rw [if_neg (not_not.mpr hlen), handleWhole_eq hn _ _ (Nat.le_refl _), hb, hr]
    · rw [Nat.min_eq_right (by omega), List.take_length]
      have hlt : (buff ++ bytes).length < n := by rw [List.length_append]; omega
      rw [if_pos (by omega), blocks_of_lt hlt, remainder_of_lt hlt]

/-! ### All of them -/

namespace Service

/-- The engine was given what the clients' streams hold whole, and the buffer is the rest of the one
    client that may be in the middle of an order. -/
structure Inv (n : ℕ) (s : Service ι β) : Prop where
  orders : Interleaves (fun c => blocks n (s.received c)) s.orders
  buff : ∀ c, (∀ d ≠ c, n ∣ (s.received d).length) → s.buff = remainder n (s.received c)

theorem inv_start : Inv n (start : Service ι β) := by
  have hb : blocks n ([] : List β) = [] := by simp [blocks]
  refine ⟨?_, fun c _ => by simp [start, remainder]⟩
  simp only [start, hb]
  exact interleaves_nil

theorem Inv.step (hn : 0 < n) {s : Service ι β} :
    ∀ {ev : Event ι β}, s.Apart n ev → Inv n s → Inv n (s.step n ev)
  | .disconnect _, _, h => h
  | .chunk c bytes, ha, h => by
    have hbuff := h.buff c ha
    have hlt : s.buff.length < n := by rw [hbuff]; exact length_remainder_lt hn _
    obtain ⟨hb, hr⟩ := blocks_append hn (s.received c) bytes
    rw [← hbuff] at hb hr
    have hstep : s.step n (.chunk c bytes) =
        ⟨remainder n (s.buff ++ bytes), s.orders ++ blocks n (s.buff ++ bytes),
        Function.update s.received c (s.received c ++ bytes)⟩ := by
      simp only [Service.step, handle_eq hn hlt]
    rw [hstep]
    refine ⟨?_, fun d hd => ?_⟩
    · have happ := h.orders.append c (blocks n (s.buff ++ bytes))
      rw [← hb] at happ
      have hfun : (fun d => blocks n (Function.update s.received c (s.received c ++ bytes) d)) =
          Function.update (fun d => blocks n (s.received d)) c
            (blocks n (s.received c ++ bytes)) := by
        funext d
        by_cases hdc : d = c
        · subst hdc; simp
        · simp [hdc]
      rw [hfun]
      exact happ
    · by_cases hdc : d = c
      · subst hdc
        simpa using hr.symm
      · -- everyone else stands at the end of an order, so `c` now does too
        have hc : n ∣ (s.received c ++ bytes).length := by simpa using hd c (Ne.symm hdc)
        have hd' : n ∣ (s.received d).length := ha d hdc
        simp only [← hr, Function.update_of_ne hdc, remainder_of_dvd hc, remainder_of_dvd hd']

end Service

/-- As long as no client's bytes arrive while another client is in the middle of an order,
    the engine is given an interleaving of the clients' orders, each client's cut at the
    last one that arrived whole. -/
theorem orders_framed (hn : 0 < n) (sent : ι → List (List β))
    (hsent : ∀ c, ∀ o ∈ sent c, o.length = n) (evs : List (Event ι β))
    (hev : Along (Service.step n) (Service.Apart n) .start evs)
    (harrive : ∀ c, (evs.foldl (Service.step n) .start).received c <+: (sent c).flatten) :
    (evs.foldl (Service.step n) .start).Framed n sent := by
  have hinv :=
    Along.preserves (I := Service.Inv n) (fun ha hI => hI.step hn ha) evs hev Service.inv_start
  have hcut : (fun c => blocks n ((evs.foldl (Service.step n) .start).received c)) =
      fun c => (sent c).take (((evs.foldl (Service.step n) .start).received c).length / n) :=
    funext fun c => blocks_of_prefix hn (sent c) (hsent c) (harrive c)
  rw [Service.Framed, ← hcut]
  exact hinv.orders

/-- Two clients, and the one order each of them sends. -/
def twoClients (c : Bool) : List (List UInt8) := [List.replicate sizeofOrder (if c then 1 else 0)]

/-- The first client's order arrives in two pieces, then the second client's. -/
def inTurn : List (Event Bool UInt8) :=
  [.chunk false (List.replicate 100 0), .chunk false (List.replicate 60 0),
    .chunk true (List.replicate 160 1)]

theorem orders_framed_inTurn :
    (inTurn.foldl (Service.step sizeofOrder) .start).Framed sizeofOrder twoClients := by
  refine orders_framed (by decide) twoClients ?_ inTurn ?_ ?_
  · rintro c o ho
    rw [List.mem_singleton.mp ho, List.length_replicate]
  · refine ⟨?_, ?_, ?_, trivial⟩ <;> rintro (_ | _) <;> decide +kernel
  · rintro (_ | _) <;> decide +kernel

/-- The second client's order arrives between two pieces of the first client's. -/
def between : List (Event Bool UInt8) :=
  [.chunk false [0], .chunk true (List.replicate 160 1), .chunk false (List.replicate 159 0)]

/-- The engine is given two orders that nobody sent. -/
theorem between_not_framed :
    ¬(between.foldl (Service.step sizeofOrder) .start).Framed sizeofOrder twoClients := by
  have horders : (between.foldl (Service.step sizeofOrder) .start).orders =
      [0 :: List.replicate 159 1, 1 :: List.replicate 159 0] := by decide +kernel
  have hlen : ((between.foldl (Service.step sizeofOrder) .start).received false).length =
      sizeofOrder := by
    decide +kernel
  rintro ⟨ls, hls, hf⟩
  have hmem : List.replicate sizeofOrder 0 ∈ (ls.filter (fun l => l.1 = false)).map Prod.snd := by
    rw [hf false]
    simp only [hlen]
    simp [twoClients, sizeofOrder]
  obtain ⟨l, hl, heq⟩ := List.mem_map.mp hmem
  have hout : List.replicate sizeofOrder 0 ∈ ls.map Prod.snd :=
    List.mem_map.mpr ⟨l, List.mem_of_mem_filter hl, heq⟩
  rw [hls, horders] at hout
  revert hout
  decide +kernel

end Matching.MatchingTcpService
