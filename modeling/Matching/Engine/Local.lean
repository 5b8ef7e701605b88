import Matching.Lib.Uniform
import Matching.Engine.Handle

/-! An engine without impliers works on what is its own: its containers, its auction, its
    mutex, and the id counter, the order object and the history all engines share.
    `Around.put` puts that into a process; what a request does there is the same in every
    process, and the rest of the process stays. -/

namespace Matching

/-- What is an engine's own, and what was reported and executed since. -/
structure Local where
  engine : Engine
  held : Bool
  nextId : ℕ
  arg : Order
  reports : List Order
  execs : List (Side × Ref × Order × Engine)

/-- A process with a place for engine `l`. -/
structure Around where
  l : ℕ
  engines : ℕ → Engine
  locked : ℕ → Bool
  reports : List (ℕ × Order)
  execs : List Exec

namespace Around

/-- An engine without impliers, at its place. -/
def place (a : Around) (g : Engine) : Engine :=
  { g with bidImpliers := [], askImpliers := [], mutexSet := [a.l] }

/-- The process with the engine in it. -/
def put (a : Around) (x : Local) : World where
  engines := Function.update a.engines a.l (a.place x.engine)
  nextId := x.nextId
  locked := Function.update a.locked a.l x.held
  arg := x.arg
  reports := a.reports ++ x.reports.map (Prod.mk a.l)
  execs := a.execs ++ x.execs.map fun y => ⟨a.l, y.1, y.2.1, y.2.2.1, a.place y.2.2.2⟩

/-- An iterator over the engine's book. -/
def iter (a : Around) (s : Side) (cur : Option Cursor) : Iter := ⟨a.l, s, cur⟩

/-- The process, and an iterator. -/
def putIter (s : Side) (a : Around) (y : Local × Option Cursor) : World × Iter :=
  (a.put y.1, a.iter s y.2)

/-- A matcher without impliers. -/
def matcher (a : Around) (s : Side) (cur : Option Cursor) : Matcher := ⟨a.l, s, a.iter s cur, []⟩

/-- A step at a local order. -/
def record (a : Around) (s : Side) (y : ℤ × ℕ × Option Cursor) : MatchedRecord :=
  ⟨y.1, y.2.1, a.iter s y.2.2, none⟩

@[simp] theorem side_matcher (a : Around) (s : Side) (cur : Option Cursor) :
    (a.matcher s cur).side = s := rfl

@[simp] theorem loc_matcher (a : Around) (s : Side) (cur : Option Cursor) :
    (a.matcher s cur).loc = a.iter s cur := rfl

@[simp] theorem impliers_matcher (a : Around) (s : Side) (cur : Option Cursor) :
    (a.matcher s cur).impliers = [] := rfl

@[simp] theorem topMatchingQuantity_iter (a : Around) (s : Side) (cur : Option Cursor) :
    (a.iter s cur).topMatchingQuantity = (cur.map Cursor.remain).getD 0 := rfl

@[simp] theorem matchedQuantity_record (a : Around) (s : Side) (y : ℤ × ℕ × Option Cursor) :
    (a.record s y).matchedQuantity = y.2.1 := rfl

end Around

namespace Local

def modify (x : Local) (f : Engine → Engine) : Local := { x with engine := f x.engine }

def upd (x : Local) (f : Store → Store) : Local :=
  x.modify fun g => { g with toStore := f g.toStore }

def setArg (x : Local) (o : Order) : Local := { x with arg := o }

def emit (x : Local) (o : Order) : Local := { x with reports := x.reports ++ [o] }

def callback (x : Local) (o : Order) : Local :=
  if x.engine.isAuction then x.modify fun g => { g with cbRecords := g.cbRecords ++ [o] }
  else x.emit o

def bumpId (x : Local) : Local := { x with nextId := x.nextId + 1 }

def putOrder (x : Local) (id : ℕ) (o : Order) : Local :=
  x.upd fun g => { g with odrMap := g.odrMap.insert id o }

def writeRef (x : Local) (r : Ref) (o : Order) : Local :=
  match r with
  | .arg => x.setArg o
  | .entry id => x.putOrder id o

def logExec (x : Local) (s : Side) (r : Ref) (o : Order) : Local :=
  { x with execs := x.execs ++ [(s, r, o, x.engine)] }

end Local

namespace Around

variable (a : Around) (x : Local)

@[simp] theorem store_put : (a.put x).store a.l = x.engine.toStore := by
  simp [put, World.store, place]

@[simp] theorem engines_put : (a.put x).engines a.l = a.place x.engine := by simp [put]

@[simp] theorem impliers_put (s : Side) : ((a.put x).conf a.l).impliers s = [] := by
  cases s <;> simp [put, World.conf, place, Config.impliers]

@[simp] theorem miniTick_put : ((a.put x).conf a.l).miniTick = x.engine.miniTick := by
  simp [put, World.conf, place]

@[simp] theorem mutexSet_put : ((a.put x).conf a.l).mutexSet = [a.l] := by
  simp [put, World.conf, place]

@[simp] theorem book_put (s : Side) : (a.put x).book a.l s = x.engine.toStore.book s := by
  rw [World.book, store_put]

@[simp] theorem stops_put (s : Side) : (a.put x).stops a.l s = x.engine.toStore.stops s := by
  rw [World.stops, store_put]

@[simp] theorem order?_put (id : ℕ) : (a.put x).order? a.l id = x.engine.odrMap.find? id := by
  rw [World.order?, store_put]

@[simp] theorem deref_put (id : ℕ) : (a.put x).deref a.l id = orUb (x.engine.odrMap.find? id) := by
  rw [World.deref, order?_put]

@[simp] theorem arg_put : (a.put x).arg = x.arg := rfl

@[simp] theorem nextId_put : (a.put x).nextId = x.nextId := rfl

theorem modify_put {f g : Engine → Engine} (h : f (a.place x.engine) = a.place (g x.engine)) :
    (a.put x).modify a.l f = a.put (x.modify g) := by
  simp [World.modify, put, Local.modify, h]

@[simp] theorem upd_put (f : Store → Store) : (a.put x).upd a.l f = a.put (x.upd f) :=
  a.modify_put x rfl

@[simp] theorem setArg_put (o : Order) : (a.put x).setArg o = a.put (x.setArg o) := rfl

@[simp] theorem emit_put (o : Order) : (a.put x).emit a.l o = a.put (x.emit o) := by
  simp [World.emit, put, Local.emit]

@[simp] theorem callback_put (o : Order) : (a.put x).callback a.l o = a.put (x.callback o) := by
  have hauction : ((a.put x).engines a.l).isAuction = x.engine.isAuction := by rw [engines_put]; rfl
  rw [World.callback, hauction, Local.callback]
  split
  · exact a.modify_put x rfl
  · exact a.emit_put x o

@[simp] theorem bumpId_put : (a.put x).bumpId = a.put x.bumpId := rfl

@[simp] theorem putOrder_put (id : ℕ) (o : Order) :
    (a.put x).putOrder a.l id o = a.put (x.putOrder id o) := a.upd_put x _

@[simp] theorem eraseOrder_put (id : ℕ) :
    (a.put x).eraseOrder a.l id = a.put (x.upd fun g => { g with odrMap := g.odrMap.erase id }) :=
  a.upd_put x _

@[simp] theorem setBook_put (s : Side) (b : Book) :
    (a.put x).setBook a.l s b = a.put (x.upd fun g => g.setBook s b) := a.upd_put x _

@[simp] theorem setStops_put (s : Side) (b : Book) :
    (a.put x).setStops a.l s b = a.put (x.upd fun g => g.setStops s b) := a.upd_put x _

@[simp] theorem writeRef_put (r : Ref) (o : Order) :
    (a.put x).writeRef a.l r o = a.put (x.writeRef r o) := by
  cases r with
  | arg => rfl
  | entry id => exact a.putOrder_put x id o

@[simp] theorem logExec_put (s : Side) (r : Ref) (o : Order) :
    (a.put x).logExec a.l s r o = a.put (x.logExec s r o) := by
  simp [World.logExec, put, Local.logExec]

end Around

/-! ### Iterators -/

variable (x : Local) (s : Side)

theorem uniform_readRef (r : Ref) : Uniform (fun a : Around => (a.put x).readRef a.l r) value := by
  cases r with
  | arg => exact .const (.ok x.arg)
  | entry id =>
    exact (Uniform.const (orUb (x.engine.odrMap.find? id))).congr fun a => a.deref_put x id

namespace Iter

theorem uniform_load (pos : Option (ℤ × ℕ)) :
    Uniform (fun a : Around => load (a.put x) a.l s pos) (fun a cur => a.iter s cur) := by
  cases pos with
  | none => exact Uniform.ok none fun _ => rfl
  | some y =>
    obtain ⟨p, id⟩ := y
    simp only [load, Around.deref_put]
    exact (Uniform.const (orUb (x.engine.odrMap.find? id))).read fun o =>
      Uniform.ok (some ⟨p, id, o.remainQuantity⟩) fun _ => rfl

theorem uniform_reset :
    Uniform (fun a : Around => reset (a.put x) a.l s) (fun a cur => a.iter s cur) := by
  simp only [reset, Around.book_put]
  exact (Uniform.const (orUb (x.engine.toStore.book s).first)).read fun pos => uniform_load x s pos

theorem uniform_order (cur : Option Cursor) :
    Uniform (fun a : Around => (a.iter s cur).order (a.put x)) value := by
  cases cur with
  | none => exact Uniform.error Fault.ub fun _ => rfl
  | some c =>
    simp only [Around.iter, order, Around.book_put, Around.deref_put]
    exact .const _

theorem uniform_next (cur : Option Cursor) :
    Uniform (fun a : Around => (a.iter s cur).next (a.put x)) (fun a cur => a.iter s cur) := by
  cases cur with
  | none => exact Uniform.error Fault.ub fun _ => rfl
  | some c =>
    simp only [Around.iter, next, Around.book_put]
    exact (Uniform.const (orUb ((x.engine.toStore.book s).succ c.price c.id))).read fun pos =>
      uniform_load x s pos

theorem uniform_erase (cur : Option Cursor) :
    Uniform (fun a : Around => (a.iter s cur).erase (a.put x)) (Around.putIter s) := by
  cases cur with
  | none => exact Uniform.ok (x, none) fun _ => rfl
  | some c =>
    refine (uniform_order x s (some c)).read fun o => (uniform_next x s (some c)).bind fun cur => ?_
    simp only [Around.iter, Around.book_put, Around.setBook_put, Around.eraseOrder_put]
    exact Uniform.ok (_, cur) fun _ => rfl

theorem uniform_topPrice (cur : Option Cursor) :
    Uniform (fun a : Around => (a.iter s cur).topPrice (a.put x)) value := by
  cases cur with
  | none => exact Uniform.ok marketPrice fun _ => rfl
  | some c => exact (uniform_order x s (some c)).read fun o => Uniform.ok o.price fun _ => rfl

theorem uniform_topPriceOwnSide :
    Uniform (fun a : Around => topPriceOwnSide (a.put x) a.l s) value := by
  simp only [topPriceOwnSide, Around.book_put, Around.deref_put]
  exact .const _

theorem uniform_makerMatch (cur : Option Cursor) (matchedId q id1 id2 : ℕ) :
    Uniform (fun a : Around => (a.iter s cur).makerMatch (a.put x) matchedId q id1 id2)
      (Around.putIter s) := by
  cases cur with
  | none => exact Uniform.error Fault.ub fun _ => rfl
  | some c =>
    refine (uniform_order x s (some c)).read fun o => ?_
    simp only [Around.iter, Around.putOrder_put, Around.callback_put]
    refine .ite (fun _ => ?_) fun _ => Uniform.ok (_, some _) fun _ => rfl
    exact uniform_erase _ s (some c)

end Iter

theorem uniform_takerMatch (r : Ref) (matchedId : ℕ) (p : ℤ) (q id1 id2 : ℕ) :
    Uniform (fun a : Around => takerMatch (a.put x) a.l r matchedId p q id1 id2) Around.put := by
  refine (uniform_readRef x r).read fun o => ?_
  simp only [Around.writeRef_put, Around.callback_put]
  exact Uniform.ok _ fun _ => rfl

/-! ### Matching -/

namespace Matcher

theorem uniform_reset :
    Uniform (fun a : Around => reset (a.put x) a.l s) (fun a cur => a.matcher s cur) := by
  refine (Iter.uniform_reset x s).bind fun cur => ?_
  simp only [Around.impliers_put, resetLegs]
  exact Uniform.ok cur fun _ => rfl

theorem uniform_top (cur : Option Cursor) :
    Uniform (fun a : Around => (a.matcher s cur).top (a.put x)) value := by
  refine (Iter.uniform_topPrice x s cur).read fun price =>
    (Iter.uniform_topPriceOwnSide x s).read fun own => ?_
  exact Uniform.ok ⟨none, price, (cur.map Cursor.remain).getD 0⟩ fun _ => rfl

theorem uniform_topPrice (cur : Option Cursor) :
    Uniform (fun a : Around => (a.matcher s cur).topPrice (a.put x)) value :=
  (Iter.uniform_topPrice x s cur).read fun price => Uniform.ok price fun _ => rfl

end Matcher

theorem uniform_bestPrice : Uniform (fun a : Around => bestPrice (a.put x) a.l s) value :=
  (Matcher.uniform_reset x s).bind fun cur => Matcher.uniform_topPrice x s cur

/-- A step of a walk, and the matcher behind it. -/
def Around.walk (s : Side) (a : Around) (y : Option (ℤ × ℕ × Option Cursor) × Option Cursor) :
    Option MatchedRecord × Matcher :=
  (y.1.map (a.record s), a.matcher s y.2)

theorem uniform_matchOne (cur : Option Cursor) (p : ℤ) (k : ℕ) :
    Uniform (fun a : Around => (a.matcher s cur).matchOne (a.put x) p k) (Around.walk s) := by
  refine (Matcher.uniform_top x s cur).read fun t => ?_
  simp only [Around.side_matcher, Around.loc_matcher, Around.impliers_matcher,
    Around.topMatchingQuantity_iter]
  refine .ite (fun _ => Uniform.ok (none, cur) fun _ => rfl) fun _ => ?_
  refine .ite (fun _ => Uniform.ok (none, cur) fun _ => rfl) fun _ => ?_
  cases t.src with
  | none =>
    refine .ite (fun _ => (Iter.uniform_next x s cur).bind fun cur' => ?_) fun _ => ?_
    · exact Uniform.ok (some (t.price, _, cur), cur') fun _ => rfl
    · exact Uniform.ok (some (t.price, _, cur), cur) fun _ => rfl
  | some i => exact Uniform.error Fault.ub fun _ => rfl

theorem uniform_executeStep (r : Ref) (y : ℤ × ℕ × Option Cursor) :
    Uniform (fun a : Around => executeStep (a.put x) a.l r (a.record s y))
      (fun a (z : Local × Option Cursor) => (a.put z.1, a.iter s z.2, none)) := by
  simp only [executeStep, Around.nextId_put, Around.bumpId_put, Around.record]
  refine (uniform_readRef _ r).read fun o => (Iter.uniform_order _ s y.2.2).read fun o1 => ?_
  refine (Iter.uniform_makerMatch _ s y.2.2 _ _ _ _).bind fun z => ?_
  exact (uniform_takerMatch _ r _ _ _ _ _).bind fun x' => Uniform.ok (x', z.2) fun _ => rfl

theorem uniform_killTaker (r : Ref) (st : OrderStatus) :
    Uniform (fun a : Around => killTaker (a.put x) a.l r st) Around.put := by
  refine (uniform_readRef x r).read fun o => ?_
  simp only [Around.writeRef_put, Around.callback_put]
  exact Uniform.ok _ fun _ => rfl

theorem uniform_restTaker (r : Ref) :
    Uniform (fun a : Around => restTaker (a.put x) a.l s r) Around.put := by
  refine (uniform_readRef x r).read fun o => ?_
  simp only [Around.upd_put, Around.callback_put]
  exact .ite (fun _ => Uniform.ok _ fun _ => rfl) fun _ => Uniform.ok _ fun _ => rfl

theorem uniform_residual (r : Ref) :
    Uniform (fun a : Around => residual (a.put x) a.l s r) Around.put := by
  refine (uniform_readRef x r).read fun o => .ite (fun _ => Uniform.ok x fun _ => rfl) fun _ => ?_
  refine .ite (fun _ => uniform_killTaker x r _) fun _ =>
    .ite (fun _ => uniform_killTaker x r _) fun _ => ?_
  refine .ite (fun _ => (uniform_bestPrice x s.opp).read fun price => ?_) fun _ =>
    uniform_restTaker x s r
  simp only [Around.writeRef_put]
  exact .ite (fun _ => uniform_killTaker _ r _) fun _ => uniform_restTaker _ s r

theorem uniform_normalLoop (r : Ref) (tick : ℤ) : ∀ (n : ℕ) (x : Local) (cur : Option Cursor),
    Uniform (fun a : Around => normalLoop a.l s r tick n (a.put x) (a.matcher s cur))
      (fun a (z : Local × Bool) => (a.put z.1, z.2))
  | 0, _, _ => Uniform.error Fault.diverge fun _ => rfl
  | n + 1, x, cur => by
    refine (uniform_readRef x r).read fun o =>
      .ite (fun _ => Uniform.ok (x, false) fun _ => rfl) fun _ => ?_
    refine (Matcher.uniform_top x s cur).read fun t => ?_
    simp only [Around.loc_matcher, Around.impliers_matcher, Around.writeRef_put]
    refine .ite (fun _ => Uniform.ok (x, false) fun _ => rfl) fun _ =>
      .ite (fun _ => Uniform.ok (x, false) fun _ => rfl) fun _ => ?_
    refine .ite
      (fun _ => (uniform_killTaker x r _).bind fun x' => Uniform.ok (x', true) fun _ => rfl)
      fun _ => ?_
    refine .ite (fun _ => Uniform.ok (_, false) fun _ => rfl) fun _ => ?_
    cases t.src with
    | none =>
      exact (uniform_executeStep x s r (t.price, _, cur)).bind fun z =>
        uniform_normalLoop r tick n z.1 z.2
    | some i => exact Uniform.error Fault.ub fun _ => rfl

theorem uniform_normalMatch (r : Ref) (tick : ℤ) :
    Uniform (fun a : Around => normalMatch (a.put x) a.l s r tick) Around.put := by
  refine (Matcher.uniform_reset x s).bind fun cur => (uniform_readRef x r).read fun o => ?_
  refine (uniform_normalLoop s r tick _ x cur).bind fun z => ?_
  exact .ite (fun _ => Uniform.ok z.1 fun _ => rfl) fun _ => uniform_residual z.1 s r

theorem uniform_fokLoop (p : ℤ) : ∀ (n : ℕ) (cur : Option Cursor) (k : ℕ),
    Uniform (fun a : Around => fokLoop (a.put x) p n (a.matcher s cur) k)
      (fun a (z : List (ℤ × ℕ × Option Cursor) × ℕ) => (z.1.map (a.record s), z.2))
  | 0, _, _ => Uniform.error Fault.diverge fun _ => rfl
  | n + 1, cur, k => by
    refine .ite (fun _ => Uniform.ok ([], 0) fun _ => rfl) fun _ =>
      (uniform_matchOne x s cur p k).bind fun y => ?_
    obtain ⟨_ | rec, cur'⟩ := y
    · exact Uniform.ok ([], k) fun _ => rfl
    · simp only [Around.walk, Option.map_some, Around.matchedQuantity_record]
      refine (uniform_fokLoop p n cur' _).bind fun z => ?_
      exact Uniform.ok (rec :: z.1, z.2) fun _ => rfl

theorem uniform_fokExecute (r : Ref) : ∀ (recs : List (ℤ × ℕ × Option Cursor)) (x : Local),
    Uniform (fun a : Around => fokExecute a.l r (a.put x) (recs.map (a.record s))) Around.put
  | [], x => Uniform.ok x fun _ => rfl
  | rec :: recs, x => (uniform_executeStep x s r rec).bind fun z => uniform_fokExecute r recs z.1

theorem uniform_fokMatch (r : Ref) :
    Uniform (fun a : Around => fokMatch (a.put x) a.l s r) Around.put := by
  refine (Matcher.uniform_reset x s).bind fun cur => (uniform_readRef x r).read fun o => ?_
  refine (uniform_fokLoop x s o.price _ cur _).bind fun z => ?_
  exact .ite (fun _ => uniform_killTaker x r _) fun _ => uniform_fokExecute s r z.1 x

theorem uniform_execute (r : Ref) :
    Uniform (fun a : Around => execute (a.put x) a.l s r) Around.put := by
  refine (uniform_readRef x r).read fun o => ?_
  simp only [Around.logExec_put, Around.miniTick_put]
  exact .ite (fun _ => uniform_fokMatch _ s r) fun _ => uniform_normalMatch _ s r _

/-! ### Stops -/

theorem collectStops_put (best : ℤ) :
    ∃ x' ids, ∀ a : Around, collectStops (a.put x) a.l s best = (a.put x', ids) :=
  ⟨x.upd fun g => g.setStops s
    ((x.engine.toStore.stops s).filter fun l => !(best ≠ marketPrice && s.reached best l.1)),
    Ladder.ids
    ((x.engine.toStore.stops s).filter fun l => best ≠ marketPrice && s.reached best l.1),
    fun a => by simp only [collectStops, Around.stops_put, Around.setStops_put]⟩

theorem uniform_activateStop (id : ℕ) :
    Uniform (fun a : Around => activateStop (a.put x) a.l s id) Around.put := by
  simp only [activateStop, Around.deref_put, Around.putOrder_put]
  exact (Uniform.const (orUb (x.engine.odrMap.find? id))).read fun o =>
    uniform_execute _ s (.entry id)

theorem uniform_activateStops :
    ∀ (ids : List ℕ) (x : Local),
      Uniform (fun a : Around => activateStops a.l s (a.put x) ids) Around.put
  | [], x => Uniform.ok x fun _ => rfl
  | id :: ids, x => (uniform_activateStop x s id).bind fun x' => uniform_activateStops ids x'

theorem uniform_triggerLoop :
    ∀ (n : ℕ) (x : Local), Uniform (fun a : Around => triggerLoop a.l s n (a.put x)) Around.put
  | 0, _ => Uniform.error Fault.diverge fun _ => rfl
  | n + 1, x => by
    refine (uniform_bestPrice x s).read fun best => ?_
    obtain ⟨x', ids, hcollect⟩ := collectStops_put x s best
    simp only [hcollect]
    refine (uniform_activateStops s ids x').bind fun x'' => ?_
    exact .ite (fun _ => Uniform.ok x'' fun _ => rfl) fun _ => uniform_triggerLoop n x''

theorem uniform_triggerStop :
    Uniform (fun a : Around => triggerStop (a.put x) a.l s) Around.put := by
  simp only [triggerStop, Around.stops_put]
  exact uniform_triggerLoop s _ x

/-! ### New orders -/

@[simp] theorem rejectArg_put (a : Around) (st : OrderStatus) : rejectArg (a.put x) a.l st =
    a.put ((x.setArg { x.arg with orderState := st, remainQuantity := 0 }).callback
      { x.arg with orderState := st, remainQuantity := 0 }) := by
  simp only [rejectArg, Around.arg_put, Around.setArg_put, Around.callback_put]

theorem initNewOrder_put : ∃ x', ∀ a : Around, initNewOrder (a.put x) = a.put x' := by
  simp only [initNewOrder, Around.arg_put, Around.bumpId_put, Around.nextId_put, Around.setArg_put]
  rcases Decidable.em (x.arg.orderId = 0) with h | h
  · exact ⟨_, fun _ => if_pos h⟩
  · exact ⟨_, fun _ => if_neg h⟩

theorem uniform_executeArg : Uniform (fun a : Around => executeArg (a.put x) a.l s) Around.put := by
  refine (uniform_execute x s .arg).bind fun x₁ => ?_
  simp only [Around.arg_put]
  refine .ite (fun _ => (uniform_triggerStop x₁ .sell).bind fun x₂ => ?_) fun _ =>
    Uniform.ok x₁ fun _ => rfl
  exact uniform_triggerStop x₂ .buy

theorem uniform_newPlain : Uniform (fun a : Around => newPlain (a.put x) a.l s) Around.put := by
  obtain ⟨x₁, hinit⟩ := initNewOrder_put x
  simp only [newPlain, hinit, Around.arg_put, rejectArg_put]
  exact .ite (fun _ => Uniform.ok _ fun _ => rfl) fun _ => uniform_executeArg x₁ s

@[simp] theorem registerStop_put (a : Around) : registerStop (a.put x) a.l s = a.put (x.upd fun g =>
    { g.setStops s ((g.stops s).insert s.cmp (x.arg.stopTrigger s) x.arg.orderId) with
      odrMap := g.odrMap.emplace x.arg.orderId x.arg }) := by
  simp only [registerStop, Around.arg_put, Around.upd_put]

theorem uniform_executeLeg : Uniform (fun a : Around => executeLeg (a.put x) a.l s) Around.put := by
  simp only [executeLeg, Around.arg_put, Around.setArg_put]
  exact uniform_executeArg _ s

theorem uniform_newStop : Uniform (fun a : Around => newStop (a.put x) a.l s) Around.put := by
  simp only [newStop, Around.arg_put, Around.setArg_put]
  refine (uniform_bestPrice _ s).read fun best => ?_
  split
  · simp only [rejectArg_put]
    exact Uniform.ok _ fun _ => rfl
  · obtain ⟨x₁, hinit⟩ := initNewOrder_put (x.setArg { x.arg with price := stopPrice })
    simp only [hinit, Around.arg_put, registerStop_put, Around.callback_put]
    exact .ite (fun _ => uniform_executeLeg x₁ s) fun _ => Uniform.ok _ fun _ => rfl

theorem uniform_newBuySellStop :
    Uniform (fun a : Around => newBuySellStop (a.put x) a.l) Around.put := by
  simp only [newBuySellStop, Around.arg_put, Around.setArg_put]
  refine (uniform_bestPrice _ .buy).read fun bestA =>
    (uniform_bestPrice _ .sell).read fun bestB => ?_
  split
  · simp only [rejectArg_put]
    exact Uniform.ok _ fun _ => rfl
  split
  · simp only [rejectArg_put]
    exact Uniform.ok _ fun _ => rfl
  · obtain ⟨x₁, hinit⟩ := initNewOrder_put (x.setArg { x.arg with price := stopPrice })
    simp only [hinit, Around.arg_put, registerStop_put, Around.callback_put]
    refine .ite (fun _ => uniform_executeLeg x₁ .buy) fun _ =>
      .ite (fun _ => uniform_executeLeg x₁ .sell) fun _ => ?_
    exact Uniform.ok _ fun _ => rfl

theorem uniform_newChecked : Uniform (fun a : Around => newChecked (a.put x) a.l) Around.put := by
  simp only [newChecked, Around.arg_put, rejectArg_put]
  refine .ite (fun _ => Uniform.ok _ fun _ => rfl) fun _ =>
    .ite (fun _ => Uniform.ok _ fun _ => rfl) fun _ => ?_
  split
  · exact uniform_newPlain x .buy
  · exact uniform_newPlain x .sell
  · exact uniform_newStop x .buy
  · exact uniform_newStop x .sell
  · exact uniform_newBuySellStop x
  · exact Uniform.ok _ fun _ => rfl

theorem uniform_handleNew : Uniform (fun a : Around => handleNew (a.put x) a.l) Around.put := by
  simp only [handleNew, Around.arg_put, Around.setArg_put]
  rcases Decidable.em (x.arg.orderAction = .new) with h | h
  · exact (uniform_newChecked _).congr fun a => congrArg (fun w => newChecked w a.l) (if_pos h)
  · exact (uniform_newChecked x).congr fun a => congrArg (fun w => newChecked w a.l) (if_neg h)

/-! ### Cancels and amends -/

theorem uniform_unrest (o : Order) :
    Uniform (fun a : Around => unrest (a.put x) a.l s o) Around.put := by
  simp only [unrest, Around.book_put, Around.setBook_put]
  refine (Uniform.const (eraseFound (x.engine.toStore.book s) o.price o.orderId)).read fun b => ?_
  exact .ite (fun _ => uniform_triggerStop _ s) fun _ => Uniform.ok _ fun _ => rfl

theorem uniform_unstop (o : Order) :
    Uniform (fun a : Around => unstop (a.put x) a.l s o) Around.put := by
  simp only [unstop, Around.stops_put, Around.setStops_put]
  refine (Uniform.const (eraseFound (x.engine.toStore.stops s) (o.stopTrigger s) o.orderId)).read
    fun b => ?_
  exact Uniform.ok _ fun _ => rfl

theorem uniform_unlist (o : Order) :
    Uniform (fun a : Around => unlist (a.put x) a.l o) Around.put := by
  simp only [unlist]
  split
  · exact uniform_unrest x .sell o
  · exact uniform_unrest x .buy o
  · exact .ite (fun _ => uniform_unstop x .buy o) fun _ => uniform_unrest x .sell o
  · exact .ite (fun _ => uniform_unstop x .sell o) fun _ => uniform_unrest x .buy o
  · refine .ite
      (fun _ => (uniform_unstop x .buy o).bind fun x₁ => uniform_unstop x₁ .sell o) fun _ => ?_
    exact .ite (fun _ => uniform_unrest x .sell o) fun _ => uniform_unrest x .buy o

/-- The process, and a flag. -/
def Around.putFlag (a : Around) (y : Local × Bool) : World × Bool := (a.put y.1, y.2)

theorem uniform_handleCancel :
    Uniform (fun a : Around => handleCancel (a.put x) a.l) Around.putFlag := by
  simp only [handleCancel, Around.arg_put, Around.order?_put, Around.setArg_put,
    Around.callback_put, Around.putOrder_put]
  split
  · split
    · exact Uniform.ok (_, false) fun _ => rfl
    · exact Uniform.ok (_, false) fun _ => rfl
    · exact Uniform.ok (_, false) fun _ => rfl
  · rename_i ori _
    cases cancelState x.arg.orderAction with
    | some st =>
      refine (uniform_unlist _ _).bind fun x₁ => ?_
      simp only [Around.eraseOrder_put]
      exact Uniform.ok (_, true) fun _ => rfl
    | none =>
      refine (uniform_unlist x ori).bind fun x₁ => ?_
      simp only [Around.eraseOrder_put]
      exact Uniform.ok (_, true) fun _ => rfl

theorem uniform_handleAmend : Uniform (fun a : Around => handleAmend (a.put x) a.l) Around.put := by
  simp only [handleAmend, Around.arg_put, Around.order?_put, rejectArg_put, Around.putOrder_put,
    Around.callback_put]
  refine .ite (fun _ => Uniform.ok _ fun _ => rfl) fun _ =>
    .ite (fun _ => Uniform.ok _ fun _ => rfl) fun _ => ?_
  split
  · exact Uniform.ok _ fun _ => rfl
  · refine .ite (fun _ => Uniform.ok _ fun _ => rfl) fun _ =>
      (uniform_handleCancel _).bind fun y => ?_
    simp only [Around.putFlag, Around.arg_put, Around.setArg_put]
    exact .ite (fun _ => uniform_handleNew _) fun _ => Uniform.ok _ fun _ => rfl

/-! ### Requests -/

theorem foldl_emit_put {β : Type} (a : Around) (f : β → Order) : ∀ (ys : List β) (x : Local),
    ys.foldl (fun w y => w.emit a.l (f y)) (a.put x) = a.put (ys.foldl (fun x y => x.emit (f y)) x)
  | [], _ => rfl
  | y :: ys, x => by
    simp only [List.foldl_cons, Around.emit_put]
    exact foldl_emit_put a f ys _

theorem handleDump_put : ∃ x', ∀ a : Around, handleDump (a.put x) a.l = a.put x' :=
  ⟨_, fun a => by simp only [handleDump, Around.store_put, foldl_emit_put, Around.emit_put]; rfl⟩

@[simp] theorem insertResting_put (a : Around) :
    insertResting (a.put x) a.l s = a.put (x.upd fun g =>
      { g.setBook s ((g.book s).insert s.cmp x.arg.price x.arg.orderId) with
        odrMap := g.odrMap.emplace x.arg.orderId x.arg }) := by
  simp only [insertResting, Around.arg_put, Around.upd_put]

theorem handleInsert_put : ∃ x', ∀ a : Around, handleInsert (a.put x) a.l = a.put x' := by
  simp only [handleInsert, Around.arg_put, Around.setArg_put, insertResting_put, registerStop_put]
  generalize x.setArg _ = x₀
  cases hside : x₀.arg.side with
  | buy =>
    simp only [Around.arg_put, Around.emit_put]
    exact ⟨_, fun _ => rfl⟩
  | sell =>
    simp only [Around.arg_put, Around.emit_put]
    exact ⟨_, fun _ => rfl⟩
  | buyStop =>
    rcases Decidable.em (x₀.arg.price = x₀.arg.buyStopLimitPrice) with h | h
    · simp only [h, if_true, Around.arg_put, Around.emit_put]
      exact ⟨_, fun _ => rfl⟩
    · simp only [h, if_false, Around.arg_put, Around.emit_put]
      exact ⟨_, fun _ => rfl⟩
  | sellStop =>
    rcases Decidable.em (x₀.arg.price = x₀.arg.sellStopLimitPrice) with h | h
    · simp only [h, if_true, Around.arg_put, Around.emit_put]
      exact ⟨_, fun _ => rfl⟩
    · simp only [h, if_false, Around.arg_put, Around.emit_put]
      exact ⟨_, fun _ => rfl⟩
  | buySellStop =>
    simp only [Around.arg_put, Around.emit_put]
    exact ⟨_, fun _ => rfl⟩
  | other code =>
    simp only [Around.arg_put, Around.emit_put]
    exact ⟨_, fun _ => rfl⟩

theorem flushAuction_put : ∃ x', ∀ a : Around, flushAuction (a.put x) a.l = a.put x' := by
  simp only [flushAuction, Around.engines_put, Around.arg_put, foldl_emit_put]
  rcases hauction : x.engine.isAuction with _ | _
  · exact ⟨x, fun a => if_neg (by simp [Around.place, hauction])⟩
  · refine ⟨((auctionRecords x.engine.cbRecords x.arg).foldl (fun x r => x.emit r) x).modify
      fun g => { g with isAuction := false, cbRecords := [] }, fun a => ?_⟩
    rw [if_pos (by simp [Around.place, hauction])]
    exact a.modify_put _ rfl

theorem unlock_put (a : Around) : unlock (a.put x) a.l = a.put { x with held := false } := by
  simp only [unlock, Around.mutexSet_put, List.mem_singleton]
  simp only [Around.put, World.mk.injEq, true_and, and_true]
  funext m
  split
  · next hm => rw [hm, Function.update_self]
  · next hm => rw [Function.update_of_ne hm, Function.update_of_ne hm]

theorem lock_put (a : Around) :
    lock (a.put x) a.l = if x.held then .error .deadlock
      else .ok (a.put { x with held := true }) := by
  have hheld : (a.put x).locked a.l = x.held := by simp [Around.put]
  simp only [lock, Around.mutexSet_put, lockAll, hheld]
  split
  · rfl
  · refine congrArg Except.ok ?_
    simp [Around.put]

theorem uniform_dispatch : Uniform (fun a : Around => dispatch (a.put x) a.l) Around.put := by
  simp only [dispatch, Around.arg_put]
  split
  · exact uniform_handleNew x
  · exact (uniform_handleCancel x).bind fun y => Uniform.ok y.1 fun _ => rfl
  · exact uniform_handleAmend x
  · obtain ⟨x', hdump⟩ := handleDump_put x
    exact Uniform.ok x' fun a => congrArg Except.ok (hdump a)
  · obtain ⟨x', hinsert⟩ := handleInsert_put x
    exact Uniform.ok x' fun a => congrArg Except.ok (hinsert a)

/-- What a request does to its engine. -/
theorem uniform_handle (o : Order) :
    Uniform (fun a : Around => handle (a.put x) a.l o) Around.put := by
  have hleave : ∀ x₁, Uniform (fun a : Around =>
      (.ok (unlock (flushAuction (a.put x₁) a.l) a.l) : Except Fault World)) Around.put := by
    intro x₁
    obtain ⟨x₂, hflush⟩ := flushAuction_put x₁
    simp only [hflush, unlock_put]
    exact Uniform.ok _ fun _ => rfl
  have hlock : Uniform (fun a : Around => lock (a.put (x.setArg o)) a.l) Around.put := by
    simp only [lock_put]
    exact .ite (fun _ => Uniform.error Fault.deadlock fun _ => rfl) fun _ =>
      Uniform.ok _ fun _ => rfl
  refine hlock.bind fun x₁ => .ite (fun _ => .ite (fun _ => ?_) fun _ => ?_) fun _ => ?_
  · refine Uniform.bind ?_ hleave
    exact (uniform_dispatch (x₁.modify fun g => { g with isAuction := true })).congr fun a =>
      congrArg (fun w => dispatch w a.l) (a.modify_put x₁ rfl)
  · simp only [Around.setArg_put, Around.emit_put]
    exact Uniform.ok _ fun _ => rfl
  · exact (uniform_dispatch x₁).bind hleave

/-- What requests for one engine do, one after the other. -/
theorem uniform_run :
    ∀ (qs : List Order) (x : Local),
      Uniform (fun a : Around => run (a.put x) (qs.map (Prod.mk a.l))) Around.put
  | [], x => Uniform.ok x fun _ => rfl
  | q :: qs, x => (uniform_handle x q).bind fun x' => uniform_run qs x'

end Matching
