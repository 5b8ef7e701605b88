import Matching.Engine.Calls
import Matching.Engine.Local

/-! Copying an engine. The containers are copied one by one, and four of them hold pointers
    into the fifth: those of the copy are the original's, and point into its map. Only where
    there are none is the copy an engine of its own; then what either of the two is asked
    for is nothing to the other. -/

namespace Matching

/-- An `order*`: the engine into whose `_odr_map` it points, and the node. -/
abbrev Address := ℕ × ℕ

/-- The five containers, with pointers as addresses. -/
structure Containers where
  odrMap : OrdMap ℕ Order
  bidBook : List (ℤ × List Address)
  askBook : List (ℤ × List Address)
  bidStopBook : List (ℤ × List Address)
  askStopBook : List (ℤ × List Address)

namespace Containers

/-- The containers of an engine that was never copied: it stores the addresses of its own nodes. -/
def of (l : ℕ) (g : Store) : Containers where
  odrMap := g.odrMap
  bidBook := g.bidBook.map fun y => (y.1, y.2.map (Prod.mk l))
  askBook := g.askBook.map fun y => (y.1, y.2.map (Prod.mk l))
  bidStopBook := g.bidStopBook.map fun y => (y.1, y.2.map (Prod.mk l))
  askStopBook := g.askStopBook.map fun y => (y.1, y.2.map (Prod.mk l))

/-- All addresses. -/
def addresses (c : Containers) : List Address :=
  [c.bidBook, c.askBook, c.bidStopBook, c.askStopBook].flatten.flatMap (·.2)

/-- Every entry refers to an order of the map of engine `l`, which is the containers' own. -/
def Own (c : Containers) (l : ℕ) : Prop := ∀ p ∈ c.addresses, p.1 = l ∧ (c.odrMap.find? p.2).isSome

/-- The store of an engine whose entries are its own. -/
def store (c : Containers) : Store where
  odrMap := c.odrMap
  bidBook := c.bidBook.map fun y => (y.1, y.2.map Prod.snd)
  askBook := c.askBook.map fun y => (y.1, y.2.map Prod.snd)
  bidStopBook := c.bidStopBook.map fun y => (y.1, y.2.map Prod.snd)
  askStopBook := c.askStopBook.map fun y => (y.1, y.2.map Prod.snd)

end Containers

/-- The copy constructor and the copy assignment. -/
inductive Copying where | construct | assign
  deriving DecidableEq, Repr

namespace World

/-- The containers of a copy: each is the original's. -/
def copiedContainers (w : World) (src : ℕ) : Containers := .of src (w.store src)

/-- Engine `dst` is a copy of engine `src`. A new engine has a mutex of its own, which is
    free, no impliers and no records; an assignment leaves mutex and impliers as they were.
    A store knows entries by their ids alone, so that the copy's says what the containers
    say only while they are `Own`. -/
def copied (w : World) (how : Copying) (src dst : ℕ) : World :=
  let g := w.engines src
  let store := (w.copiedContainers src).store
  match how with
  | .construct =>
    { w.modify dst (fun _ =>
        { toStore := store, bidImpliers := [], askImpliers := [], miniTick := g.miniTick,
          mutexSet := [dst], cbRecords := [], isAuction := g.isAuction }) with
      locked := Function.update w.locked dst false }
  | .assign =>
    w.modify dst (fun t =>
      { t with
        toStore := store, miniTick := g.miniTick, cbRecords := g.cbRecords,
        isAuction := g.isAuction })

/-- What is reported from `w` on, when requests are handled by engine `l`; or how they go wrong. -/
def answers (w : World) (l : ℕ) (qs : List Order) : Except Fault (List Order) :=
  (run w (qs.map (Prod.mk l))).map fun v => (v.reports.drop w.reports.length).map Prod.snd

/-- Requests to engine `l` leave the orders and the books of engine `k`. -/
def Spares (w : World) (l k : ℕ) (qs : List Order) : Prop :=
  ∀ v, run w (qs.map (Prod.mk l)) = .ok v → v.store k = w.store k

/-- The copy is an engine of its own: its entries refer to its own orders, and whatever requests the
    copy or the original handles, they are answered as the original would have answered them, and
    leave the other alone. -/
def Independent (w : World) (how : Copying) (src dst : ℕ) : Prop :=
  (w.copiedContainers src).Own dst ∧ ∀ qs,
    (w.copied how src dst).answers dst qs = w.answers src qs ∧
      (w.copied how src dst).Spares dst src qs ∧
      (w.copied how src dst).answers src qs = w.answers src qs ∧
      (w.copied how src dst).Spares src dst qs

/-- Engine `l` has no impliers; then it takes its own lock only. -/
structure Plain (w : World) (l : ℕ) : Prop where
  bidImpliers : (w.conf l).bidImpliers = []
  askImpliers : (w.conf l).askImpliers = []
  mutexSet : (w.conf l).mutexSet = [l]

end World

variable {w : World} {l src dst : ℕ}

/-! ### Two places -/

/-- The process around engine `l`. -/
def World.around (w : World) (l : ℕ) : Around := ⟨l, w.engines, w.locked, w.reports, w.execs⟩

/-- What is engine `l`'s own. -/
def World.own (w : World) (l : ℕ) : Local := ⟨w.engines l, w.locked l, w.nextId, w.arg, [], []⟩

theorem Around.place_self {a : Around} {g : Engine} (hbid : g.bidImpliers = [])
    (hask : g.askImpliers = []) (hmutex : g.mutexSet = [a.l]) :
    a.place g = g := by
  obtain ⟨store, ⟨bid, ask, tick, mutex⟩, records, auction⟩ := g
  obtain rfl : bid = [] := hbid
  obtain rfl : ask = [] := hask
  obtain rfl : mutex = [a.l] := hmutex
  rfl

/-- A process is an engine of it, put to where it is. -/
theorem World.put_own (h : w.Plain l) : (w.around l).put (w.own l) = w := by
  have hplace : (w.around l).place (w.own l).engine = w.engines l :=
    Around.place_self h.bidImpliers h.askImpliers h.mutexSet
  have hengines : Function.update w.engines l (w.engines l) = w.engines :=
    Function.update_eq_self l w.engines
  have hlocked : Function.update w.locked l (w.locked l) = w.locked :=
    Function.update_eq_self l w.locked
  rw [Around.put, hplace]
  simp only [World.around, World.own, hengines, hlocked, List.map_nil, List.append_nil]

/-- What an engine answers, and what it leaves, is the same wherever it is. -/
theorem answers_put (x : Local) (hx : x.reports = []) (qs : List Order) :
    ∃ r : Except Fault Local, ∀ a : Around, (a.put x).answers a.l qs = r.map Local.reports ∧
      ∀ k ≠ a.l, (a.put x).Spares a.l k qs := by
  obtain ⟨r, hr⟩ : ∃ r : Except Fault Local, ∀ a : Around, run (a.put x) (qs.map (Prod.mk a.l)) =
    r.map a.put := uniform_run qs x
  refine ⟨r, fun a => ⟨?_, fun k hk v hv => ?_⟩⟩
  · have hdrop : ∀ y : Local,
      ((a.put y).reports.drop (a.put x).reports.length).map Prod.snd = y.reports := fun y => by
      simp only [Around.put, hx, List.map_nil, List.append_nil, List.drop_left, List.map_map]
      exact List.map_id'' (fun _ => rfl) _
    rw [World.answers, hr a]
    cases r with
    | error e => rfl
    | ok y => exact congrArg Except.ok (hdrop y)
  · rw [hr a] at hv
    obtain ⟨y, -, rfl⟩ := map_ok.mp hv
    simp only [World.store, Around.put, Function.update_of_ne hk]

/-! ### The copy -/

theorem Containers.store_of (l : ℕ) (g : Store) : (Containers.of l g).store = g := by
  have hlevel : ∀ y : ℤ × List ℕ, (y.1, (y.2.map (Prod.mk l)).map Prod.snd) = y := by
    intro y
    rw [List.map_map]
    exact Prod.ext rfl (List.map_id'' (fun _ => rfl) _)
  have hback : ∀ b : Book, (b.map fun y => (y.1, y.2.map (Prod.mk l))).map
      (fun y => (y.1, y.2.map Prod.snd)) = b := by
    intro b
    rw [List.map_map]
    exact List.map_id'' hlevel b
  simp only [Containers.store, Containers.of, hback]

theorem Containers.addresses_of (l : ℕ) (g : Store) : (Containers.of l g).addresses =
    (Ladder.ids g.bidBook ++
      (Ladder.ids g.askBook ++ (Ladder.ids g.bidStopBook ++ Ladder.ids g.askStopBook))).map
      (Prod.mk l) := by
  have hbook : ∀ b : Book, (b.map fun y => (y.1, y.2.map (Prod.mk l))).flatMap (·.2) =
      (Ladder.ids b).map (Prod.mk l) := by
    intro b
    rw [List.flatMap_map, Ladder.ids, List.map_flatMap]
  simp only [addresses, of, List.flatten_cons, List.flatten_nil, List.append_nil,
    List.flatMap_append, hbook, List.map_append]

/-- The entries of a copy are its own exactly when there are none. -/
theorem own_iff (hne : src ≠ dst) :
    (w.copiedContainers src).Own dst ↔ ∀ t, Ladder.ids (w.book src t) = [] ∧
      Ladder.ids (w.stops src t) = [] := by
  rw [Containers.Own, World.copiedContainers, Containers.addresses_of]
  constructor
  · intro hown
    have hnil : Ladder.ids (w.store src).bidBook ++ (Ladder.ids (w.store src).askBook ++
        (Ladder.ids (w.store src).bidStopBook ++ Ladder.ids (w.store src).askStopBook)) = [] := by
      refine List.eq_nil_iff_forall_not_mem.mpr fun i hi => hne ?_
      exact (hown _ (List.mem_map_of_mem hi)).1
    simp only [List.append_eq_nil_iff] at hnil
    obtain ⟨hbid, hask, hbidStop, haskStop⟩ := hnil
    intro t
    cases t with
    | buy => exact ⟨hask, hbidStop⟩
    | sell => exact ⟨hbid, haskStop⟩
  · intro hnone p hp
    obtain ⟨hask, hbidStop⟩ := hnone .buy
    obtain ⟨hbid, haskStop⟩ := hnone .sell
    simp only [World.book, World.stops, Store.book, Store.stops] at hask hbidStop hbid haskStop
    simp [hask, hbidStop, hbid, haskStop] at hp

/-- The copy, put to its place: all that is the original's own but the mutex. -/
theorem copied_put {how : Copying} (hdst : how = .assign → w.Plain dst) (hidle : w.Idle) :
    w.copied how src dst =
      (w.around dst).put { w.own src with held := (w.copied how src dst).locked dst } := by
  have hstore : (w.copiedContainers src).store = (w.engines src).toStore :=
    Containers.store_of src _
  have hrecords := hidle.cbRecords src
  cases how with
  | construct =>
    have hheld : (w.copied .construct src dst).locked dst = false := Function.update_self ..
    rw [hheld]
    simp only [World.copied, World.modify, World.around, World.own, Around.put, Around.place,
      hstore, hrecords, List.map_nil, List.append_nil]
  | assign =>
    have hheld : (w.copied .assign src dst).locked dst = w.locked dst := rfl
    have hlocked : Function.update w.locked dst (w.locked dst) = w.locked :=
      Function.update_eq_self dst w.locked
    obtain ⟨hbid, hask, hmutex⟩ := hdst rfl
    simp only [World.conf] at hbid hask hmutex
    rw [hheld]
    simp only [World.copied, World.modify, World.around, World.own, Around.put, Around.place,
      hstore, hbid, hask, hmutex, hlocked, List.map_nil, List.append_nil]

/-- Between the copying and the next request the original is as it was. -/
theorem copied_src {how : Copying} (hne : src ≠ dst) :
    (w.copied how src dst).own src = w.own src := by
  cases how with
  | construct => simp [World.own, World.copied, World.modify, hne]
  | assign => simp [World.own, World.copied, World.modify, hne]

theorem World.Plain.copied {how : Copying} (hne : src ≠ dst) (h : w.Plain src) :
    (w.copied how src dst).Plain src := by
  have hengine : (w.copied how src dst).engines src = w.engines src :=
    congrArg Local.engine (copied_src hne)
  have hconf : (w.copied how src dst).conf src = w.conf src := congrArg Engine.toConfig hengine
  exact ⟨hconf ▸ h.bidImpliers, hconf ▸ h.askImpliers, hconf ▸ h.mutexSet⟩

theorem copied_locked {how : Copying} :
    (w.copied how src dst).locked dst = (decide (how = .assign) && w.locked dst) := by
  cases how with
  | construct => exact Function.update_self ..
  | assign => rfl

/-- No request gives an engine impliers. -/
theorem run_plain {w0 : World} {rs : List (ℕ × Order)} (h0 : w0.Plain l) (h : run w0 rs = .ok w) :
    w.Plain l := by
  have hconf : w.conf l = w0.conf l :=
    run_induct (I := fun v => v.conf l = w0.conf l)
      (fun hh hv => (handle_conf hh l).trans hv) rs h rfl
  exact ⟨hconf ▸ h0.bidImpliers, hconf ▸ h0.askImpliers, hconf ▸ h0.mutexSet⟩

/-- An engine whose mutex is held answers nothing; one whose mutex is free answers a `DUMP`. -/
theorem handle_dump {d : Order} (haction : d.orderAction = .dump)
    (htime : d.timeCondition ≠ .auction) (x : Local) (a : Around) :
    handle (a.put x) a.l d = .error .deadlock ↔ x.held = true := by
  simp only [handle, Around.setArg_put, lock_put]
  rcases hheld : (x.setArg d).held with _ | _
  · have hfree : x.held = false := hheld
    have hdispatch : dispatch (a.put { x.setArg d with held := true }) a.l =
        .ok (handleDump (a.put { x.setArg d with held := true }) a.l) := by
      simp only [dispatch, Around.arg_put, Local.setArg, haction]
    simp only [hfree, Bool.false_eq_true, if_false, ok_bind, if_neg htime, hdispatch, iff_false]
    intro h
    cases h
  · have hlocked : x.held = true := hheld
    simp only [hlocked, if_true, iff_true]
    rfl

theorem deadlock_iff (x : Local) (a : Around) :
    (a.put x).answers a.l [{ Order.default with orderAction := .dump }] = .error .deadlock ↔
      x.held = true := by
  rw [← handle_dump (d := { Order.default with orderAction := .dump }) rfl (by decide) x a]
  generalize ({ Order.default with orderAction := .dump } : Order) = d
  simp only [World.answers, List.map_cons, List.map_nil, run, runs]
  cases handle (a.put x) a.l d with
  | error e => exact ⟨fun he => Except.error.inj he ▸ rfl, fun he => Except.error.inj he ▸ rfl⟩
  | ok v => exact ⟨fun h => (by cases h), fun h => by cases h⟩

/-- An order to sell. -/
def oneSeller : Order := { Order.default with side := .sell, price := 100, quantity := 5 }

end Matching
