import Matching.Md.Snapshot

/-! Market data across connections. `md_tcp_service` feeds its book the reports while it is
    connected and the recovery when it connects, and resets nothing when a connection drops.
    So what it has on record at a connection must still be in the engine's map; then its
    levels are the engine's again (`reconnect_converges`). An order that was filled or
    cancelled in between stays on its level. -/

namespace Matching

open Md (Half BasicBook Follows Mirrors)

/-- The engine, the outright book of the market data, and whether the
    connection between them is up. -/
structure Link where
  world : World
  book : BasicBook
  up : Bool

/-- What can happen at a request boundary. -/
inductive LinkEvent where
  | request (q : Order)
  | drop
  | connect (os : List Order)

namespace Link

def start (w : World) : Link := ⟨w, .empty, false⟩

/-- One event. Reports are lost while the connection is down; `set_connected` and
    `set_disconnected` are left unset. -/
def step (e : ℕ) (k : Link) : LinkEvent → Except Fault Link
  | .request q => do
    let w ← handle k.world e q
    return ⟨w,
      if k.up then k.book.feed ((w.heardBy e).drop (k.world.heardBy e).length) else k.book,
      k.up⟩
  | .drop => .ok { k with up := false }
  | .connect os => .ok ⟨k.world, k.book.feed os, true⟩

/-- A connection starts with the orders of `recovery`. -/
def Possible (e : ℕ) (k : Link) (x : LinkEvent) : Prop :=
  ∀ os, x = .connect os → k.up = false ∧ (k.world.store e).Recovery os

/-- The request is for an order of one leg and finds the order it names; while the connection is up
    its reports can be followed. What is on record at a connection is still in the map. -/
def Keeps (e : ℕ) (k : Link) : LinkEvent → Prop
  | .request q => q.IsTrade ∧ q.side ≠ .buySellStop ∧
      (q.orderAction ≠ .new → (k.world.store e).Finds q.orderId) ∧
      (k.up = true → q.Plain (k.world.store e) ∧ ∀ w, handle k.world e q = .ok w →
        ∀ z ∈ w.execs.drop k.world.execs.length, z.Heard)
  | .drop => True
  | .connect _ => Md.Rejoins k.book (k.world.store e)

/-- The book follows some view of the orders, and that of the store while the connection is up. -/
structure Sound (e : ℕ) (k : Link) : Prop where
  listens : k.world.Listens e
  follows : ∃ v, Follows k.book v ∧ (∀ id z, v id = some z → z.price ≠ stopPrice) ∧
    (k.up = true → v = (k.world.store e).shown)

variable {e : ℕ} {k k' : Link} {x : LinkEvent}

theorem shown_price {g : Store} {id : ℕ} {z : Shown} (h : g.shown id = some z) :
    z.price ≠ stopPrice := by
  obtain ⟨_, _, _, _, hz⟩ := Store.shown_eq_some h
  obtain ⟨hp, _, _, hzp, _⟩ := Order.shown_eq_some.mp hz
  exact hzp ▸ hp

/-- One event. -/
theorem Sound.step (hs : k.Sound e) (hx : k.Possible e x) (hk : k.Keeps e x)
    (h : k.step e x = .ok k') : k'.Sound e := by
  obtain ⟨v, hf, hv, hup⟩ := hs.follows
  cases x with
  | request q =>
    obtain ⟨ht, hside, hfind, hplain⟩ := hk
    obtain ⟨w, hw, h⟩ := bind_ok.mp h
    obtain rfl := pure_ok.mp h
    have hl := handle_listens ht hside hfind hs.listens hw
    refine ⟨hl, ?_⟩
    cases hc : k.up with
    | false => exact ⟨v, hf, hv, fun hn => by cases hn⟩
    | true =>
      obtain ⟨hq, hheard⟩ := hplain hc
      obtain ⟨⟨os, hos, hleads⟩, _⟩ := handle_leads ⟨hq, ht, hside⟩ hs.listens hw (hheard w hw)
      have hstart : Follows k.book (k.world.store e).shown := hup hc ▸ hf
      refine ⟨_, ?_, fun _ _ => shown_price, fun _ => rfl⟩
      rw [hos, List.drop_left]
      exact hleads _ hstart
  | drop =>
    obtain rfl := Except.ok.inj h
    exact ⟨hs.listens, v, hf, hv, fun hn => by cases hn⟩
  | connect os =>
    obtain rfl := Except.ok.inj h
    exact ⟨hs.listens, _, hs.listens.recovers hf hv hk (hx os rfl).2,
      fun _ _ => shown_price, fun _ => rfl⟩

end Link

variable {e : ℕ}

/-- After every run of connections, drops and trading requests, on an engine without impliers, whose
    events keep what is on record: while the connection is up and no order rests at `STOP_PRICE`,
    the book has the levels of the engine's books with the quantities that rest there. -/
theorem reconnect_converges (w0 : World) (e : ℕ) (h0 : w0.Fresh) (hn : 0 < w0.nextId)
    (hi : ∀ t, (w0.conf e).impliers t = []) (xs : List LinkEvent)
    (hpos : RunsAlong (Link.step e) (Link.Possible e) (Link.start w0) xs)
    (hkeep : RunsAlong (Link.step e) (Link.Keeps e) (Link.start w0) xs) (k : Link)
    (h : runs (Link.step e) (Link.start w0) xs = .ok k) (hup : k.up = true)
    (hstop : (k.world.store e).Unstopped) : Mirrors k.book (k.world.store e) := by
  have hstart : (Link.start w0).Sound e :=
    ⟨h0.listens hn hi, _, Follows.empty, fun _ _ hz => (nomatch hz), fun hc => by cases hc⟩
  have hend : k.Sound e :=
    RunsAlong.preserves (fun hok hstep hs => Link.Sound.step hs hok.1 hok.2 hstep) xs
      (hpos.and xs hkeep) h hstart
  obtain ⟨v, hf, _, hv⟩ := hend.follows
  rw [hv hup] at hf
  have hok := hend.listens.ordered e
  exact hf.mirrors hok.books (hend.listens.firm e) hok.sided hstop

/-- An order to buy. -/
def buyer : Order := { Order.default with price := 100, quantity := 5 }

/-- One to sell some of it. -/
def someOf : Order := { Order.default with side := .sell, price := 100, quantity := 2 }

/-- A connection, the order to buy, and a drop. -/
def untilDrop : List LinkEvent := [.connect [], .request buyer, .drop]

theorem untilDrop_possible :
    RunsAlong (Link.step 0) (Link.Possible 0) (Link.start (World.start 1 1000)) untilDrop := by
  refine ⟨fun os hos => ?_, fun _ _ => ⟨fun _ hos => (nomatch hos),
    fun _ _ => ⟨fun _ hos => (nomatch hos), fun _ _ => trivial⟩⟩⟩
  obtain rfl := LinkEvent.connect.inj hos
  exact ⟨rfl, List.Perm.nil⟩

/-- The order to buy is cancelled while the connection is down; it stays on its level. -/
theorem reconnect_keeps_cancelled : ∃ os k,
    RunsAlong (Link.step 0) (Link.Possible 0) (Link.start (World.start 1 1000))
      (untilDrop ++ [.request { buyer with orderAction := .cancel, orderId := 1000 }] ++
        [.connect os]) ∧
    runs (Link.step 0) (Link.start (World.start 1 1000))
      (untilDrop ++ [.request { buyer with orderAction := .cancel, orderId := 1000 }] ++
        [.connect os]) = .ok k ∧
    k.up = true ∧ (k.world.store 0).Unstopped ∧ ¬Mirrors k.book (k.world.store 0) := by
  have hcalls : (runs (Link.step 0) (Link.start (World.start 1 1000))
      (untilDrop ++ [.request { buyer with orderAction := .cancel, orderId := 1000 }])).map
      (fun k => decide (k.up = false ∧ (k.world.store 0).odrMap.entries = [] ∧
        (k.world.store 0).book .buy = [] ∧ (k.world.store 0).book .sell = [] ∧
        k.book.bid.find? 100 ≠ none)) = .ok true := by decide +kernel
  obtain ⟨k, hk, hval⟩ := map_ok.mp hcalls
  obtain ⟨hup, hmap, hbuy, hsell, hlevel⟩ := of_decide_eq_true hval
  have hempty : ∀ t p id, ¬((k.world.store 0).book t).At p id := fun t p id hat => by
    cases t
    · rw [hbuy] at hat
      simp at hat
    · rw [hsell] at hat
      simp at hat
  have hdown : RunsAlong (Link.step 0) (Link.Possible 0) (Link.start (World.start 1 1000))
      (untilDrop ++ [.request { buyer with orderAction := .cancel, orderId := 1000 }]) :=
    RunsAlong.concat untilDrop untilDrop_possible fun _ _ _ hos => (nomatch hos)
  refine ⟨[], ⟨k.world, k.book, true⟩, hdown.concat _ fun k' hk' os hos => ?_, ?_, rfl,
    fun t id => hempty t _ id, fun h => ?_⟩
  · obtain rfl := Except.ok.inj (hk.symm.trans hk')
    obtain rfl := LinkEvent.connect.inj hos
    exact ⟨hup, by rw [Store.Recovery, hmap]; exact List.Perm.nil⟩
  · rw [runs_append, hk]
    rfl
  · obtain ⟨id, hat⟩ := (h.level .sell 100).mp hlevel
    exact hempty .sell 100 id hat

/-- Some of it is sold while the connection is down. -/
theorem reconnect_converges_someOf : ∃ os k,
    runs (Link.step 0) (Link.start (World.start 1 1000))
      (untilDrop ++ [.request someOf] ++ [.connect os]) = .ok k ∧
      Mirrors k.book (k.world.store 0) := by
  have hbuyer : (handle (World.start 1 1000) 0 buyer).map
    (fun w => decide (∀ z ∈ w.execs.drop 0, z.Heard)) = .ok true := by decide +kernel
  have huntil : (runs (Link.step 0) (Link.start (World.start 1 1000)) untilDrop).map Link.up =
    .ok false := by decide +kernel
  have hcalls :
      (runs (Link.step 0) (Link.start (World.start 1 1000)) (untilDrop ++ [.request someOf])).map
      (fun k => decide ((k.up = false ∧ k.book.orders.entries.map Prod.fst = [1000] ∧
          (k.world.store 0).odrMap.entries.map Prod.fst = [1000]) ∧
        (∀ y ∈ k.book.orders.entries, ((k.world.store 0).odrMap.find? y.1).map
          (fun o => (o.price, o.bookHalf)) = some (y.2.price, y.2.bookHalf)) ∧
        max (((k.book.shown 1000).map Shown.quantity).getD 0)
          ((((k.world.store 0).shown 1000).map Shown.quantity).getD 0) < 2 ^ 64 ∧
        ∀ l ∈ (k.world.store 0).book .buy ++ (k.world.store 0).book .sell, l.1 ≠ stopPrice)) =
      .ok true := by decide +kernel
  obtain ⟨k, hk, hval⟩ := map_ok.mp hcalls
  obtain ⟨⟨hup, hkeys, hmap⟩, hkept, hlt, hstop⟩ := of_decide_eq_true hval
  have hnew : ∀ {q : Order} {g : Store}, q.orderAction = .new → ¬q.Stray → q.Plain g :=
    fun {q g} ha hs => ⟨fun hne => absurd ha hne, fun hbad => hbad.elim
      (fun hb => absurd (ha.symm.trans hb.1) (by decide)) fun hb => absurd hb hs⟩
  have hrejoin : Md.Rejoins k.book (k.world.store 0) := by
    refine ⟨fun id x hx => ?_,
      Room.of_total (List.nodup_singleton 1000) (fun id hid => ?_) (by simpa using hlt)⟩
    · obtain ⟨o, ho, he⟩ := Option.map_eq_some_iff.mp (hkept _ (OrdMap.mem_entries.mpr hx))
      obtain ⟨hp, hh⟩ := Prod.mk.inj he
      exact ⟨o, ho, hp, hh⟩
    · rcases hid with hid | hid
      · rw [← hkeys]
        rcases hx : k.book.orders.find? id with _ | x
        · exact absurd (by rw [BasicBook.shown, hx]; rfl) hid
        · exact List.mem_map.mpr ⟨_, OrdMap.mem_entries.mpr hx, rfl⟩
      · rw [← hmap]
        obtain ⟨z, hz⟩ := Option.ne_none_iff_exists'.mp hid
        obtain ⟨_, o, _, ho, _⟩ := Store.shown_eq_some hz
        exact List.mem_map.mpr ⟨_, OrdMap.mem_entries.mpr ho, rfl⟩
  have hpos : RunsAlong (Link.step 0) (Link.Possible 0) (Link.start (World.start 1 1000))
      (untilDrop ++ [.request someOf] ++
      [.connect ((k.world.store 0).odrMap.entries.map Prod.snd)]) := by
    refine RunsAlong.concat _
      (RunsAlong.concat untilDrop untilDrop_possible fun _ _ _ hos => (by cases hos))
      fun k' hk' os hos => ?_
    obtain rfl := Except.ok.inj (hk.symm.trans hk')
    obtain rfl := LinkEvent.connect.inj hos
    exact ⟨hup, List.Perm.refl _⟩
  have hkeeps : RunsAlong (Link.step 0) (Link.Keeps 0) (Link.start (World.start 1 1000))
      (untilDrop ++ [.request someOf] ++
      [.connect ((k.world.store 0).odrMap.entries.map Prod.snd)]) := by
    refine RunsAlong.concat _ (RunsAlong.concat untilDrop ?_ fun k' hk' => ?_) fun k' hk' => ?_
    · refine ⟨⟨fun _ _ hx => (by cases hx),
          Room.of_total List.nodup_nil (fun id hid => ?_) (by decide)⟩,
        fun k1 h1 => ⟨?_, fun _ _ => ⟨trivial, fun _ _ => trivial⟩⟩⟩
      · rcases hid with hid | hid
        · exact absurd rfl hid
        · exact absurd ((World.start_fresh 1 1000).shown 0 id) hid
      · obtain rfl := Except.ok.inj h1
        refine ⟨by decide, by decide, fun hne => absurd rfl hne,
          fun _ => ⟨hnew rfl (by decide), fun w hw => ?_⟩⟩
        rw [show handle (World.start 1 1000) 0 buyer = .ok w from hw] at hbuyer
        exact of_decide_eq_true (Except.ok.inj hbuyer)
    · obtain ⟨k1, hk1, hdown⟩ := map_ok.mp huntil
      obtain rfl := Except.ok.inj (hk1.symm.trans hk')
      exact ⟨by decide, by decide, fun hne => absurd rfl hne,
        fun hup => by rw [hdown] at hup; cases hup⟩
    · obtain rfl := Except.ok.inj (hk.symm.trans hk')
      exact hrejoin
  have hend : runs (Link.step 0) (Link.start (World.start 1 1000))
      (untilDrop ++ [.request someOf] ++
      [.connect ((k.world.store 0).odrMap.entries.map Prod.snd)]) =
      .ok ⟨k.world, k.book.feed ((k.world.store 0).odrMap.entries.map Prod.snd), true⟩ := by
    rw [runs_append, hk]
    rfl
  refine ⟨_, _, hend,
    reconnect_converges (World.start 1 1000) 0 (World.start_fresh 1 1000) (by decide)
    (fun t => by cases t <;> rfl) _ hpos hkeeps _ hend rfl fun t id hat => ?_⟩
  obtain ⟨l, hl, hp, _⟩ := hat
  refine hstop l (List.mem_append.mpr ?_) hp
  cases t
  · exact Or.inl hl
  · exact Or.inr hl

end Matching
