import Mathlib.Data.List.Nodup
import Matching.Engine.Walk

/-! Execution steps. `Fill` lists what one step of a matching loop can do, with everything that is
    true of the makers, the taker and the quantity before it. At fresh iterators the code's step is
    the closed form of a `Fill` followed by resets of the iterators it used (`executeStep_local`,
    `executeStep_implied`), and fresh iterators in the world it leaves are those of the matcher
    (`matcher_fillLocal`, `matcher_fillImplied`). -/

namespace Matching

/-- The leg books of the impliers attached to the matcher of side `s`. -/
def Config.legs (c : Config) (s : Side) : List (ℕ × Side) :=
  (c.impliers s).flatMap (fun i => [i.leg1, i.leg2])

/-- The legs of a matcher of engine `e` are pairwise different books of other engines. -/
structure LegsApart (w : World) (e : ℕ) (s : Side) : Prop where
  nodup : ((w.conf e).legs s).Nodup
  outside : ∀ x ∈ (w.conf e).legs s, x.1 ≠ e

/-- A taker that is a map entry is in no book of its engine. -/
def OffBook (w : World) (e : ℕ) (r : Ref) : Prop :=
  ∀ id, r = .entry id → ∀ s, id ∉ ((w.store e).book s).ids

namespace World

/-- One step against the local maker `m`. -/
def fillLocal (w : World) (e : ℕ) (s : Side) (r : Ref) (m o : Order) (price : ℤ) (q : ℕ) : World :=
  (w.bumpId.fillMaker e s (engineMakerMatch m w.nextId q o.orderId 0)).fillTaker e r
    (engineMatch o .taker w.nextId price q m.orderId 0)

/-- The first half of a step through the implier `i`: the maker `m1` of its first leg is filled. -/
def fillLeg1 (w : World) (i : Implier) (m1 m2 o : Order) (q : ℕ) : World :=
  w.bumpId.fillMaker i.leg1.1 i.leg1.2 (engineMakerMatch m1 w.nextId q o.orderId m2.orderId)

/-- One step through the implier `i` against the makers `m1` and `m2` of its legs. -/
def fillImplied (w : World) (e : ℕ) (r : Ref) (i : Implier) (m1 m2 o : Order) (price : ℤ) (q : ℕ) :
    World :=
  ((w.fillLeg1 i m1 m2 o q).fillMaker i.leg2.1 i.leg2.2
      (engineMakerMatch m2 w.nextId q o.orderId m1.orderId)).fillTaker e r
    (engineMatch o .taker w.nextId price q m1.orderId m2.orderId)

end World

/-- The price is one the taker accepts. -/
def Accepts (s : Side) (o : Order) (price : ℤ) : Prop :=
  o.price = marketPrice ∨ s.cmp o.price price = false

/-- What one step of a matching loop does to the world. -/
inductive Fill (e : ℕ) (s : Side) (r : Ref) : World → World → Prop
  | loc {w : World} {m o : Order} {q : ℕ} (ho : w.readRef e r = .ok o) (hm : Front w e s m)
      (hq : q = min m.remainQuantity o.remainQuantity) (hq0 : 0 < q) (hacc : Accepts s o m.price) :
      Fill e s r w (w.fillLocal e s r m o m.price q)
  | imp {w : World} {i : Implier} {m1 m2 o : Order} {price : ℤ} {q : ℕ}
      (hi : i ∈ (w.conf e).impliers s) (ho : w.readRef e r = .ok o)
      (hm1 : Front w i.leg1.1 i.leg1.2 m1) (hm2 : Front w i.leg2.1 i.leg2.2 m2)
      (hq : q = min (min m1.remainQuantity m2.remainQuantity) o.remainQuantity) (hq0 : 0 < q)
      (hp : price ≠ marketPrice) (hacc : Accepts s o price) :
      Fill e s r w (w.fillImplied e r i m1 m2 o price q)

variable {w : World} {l e : ℕ} {s : Side} {r : Ref} {m m1 m2 o : Order} {p : ℤ} {q : ℕ}

/-! ### Frame of a step -/

namespace World

variable {n : Order}

theorem ok_bumpId (h : w.Ok) : w.bumpId.Ok := h

/-- A write to a taker outside the books is a write to none of their orders. -/
theorem find_book_writeRef (hoff : OffBook w e r) {j : ℕ} (hj : j ∈ ((w.store l).book s).ids) :
    ((w.writeRef e r o).store l).odrMap.find? j = (w.store l).odrMap.find? j := by
  rw [find_writeRef, if_neg]
  rintro ⟨rfl, hr⟩
  exact hoff j hr s hj

theorem booksOk_writeRef (h : BooksOk (w.store l)) (hoff : OffBook w e r) :
    BooksOk ((w.writeRef e r o).store l) :=
  h.congr (fun t => by simp) (fun _ _ hj => find_book_writeRef hoff hj)

theorem live_writeRef (h : w.Live) (hoff : OffBook w e r) : (w.writeRef e r o).Live := fun l =>
  (h l).congr (fun t => by simp) (fun _ _ hj => find_book_writeRef hoff hj)

theorem live_fillTaker (h : w.Live) (hoff : OffBook w e r) : (w.fillTaker e r o).Live := by
  intro l
  have hl := live_writeRef (o := o) h hoff l
  simpa [fillTaker] using hl

theorem ok_fillTaker (h : w.Ok) (hoff : OffBook w e r) : (w.fillTaker e r o).Ok := fun l => by
  have hb := booksOk_writeRef (o := o) (h l) hoff
  simpa [fillTaker] using hb

/-- A write to a taker outside the books moves no iterator. -/
theorem front_writeRef (hoff : OffBook w e r) (l : ℕ) (s : Side) :
    (w.writeRef e r o).front l s = w.front l s := by
  simp only [front, cursor, book_writeRef]
  rcases hbk : (w.store l).book s with _ | ⟨⟨p, _ | ⟨j, js⟩⟩, bs⟩
  · rfl
  · rfl
  · simp only [find_book_writeRef hoff (j := j) (s := s) (l := l) (by simp [hbk])]

theorem resolves_writeRef (hoff : OffBook w e r) (h : Resolves w l s) :
    Resolves (w.writeRef e r o) l s := by
  rcases h with hb | ⟨m, hm⟩
  · exact Or.inl (by rw [book_writeRef, hb])
  · obtain ⟨is, b, hb⟩ := hm.book
    refine Or.inr ⟨m, ⟨⟨is, b, by rw [book_writeRef, hb]⟩, ?_, hm.remain, hm.limit⟩⟩
    rw [find_book_writeRef hoff hm.at_book.mem_ids, hm.find]

theorem reset_fillTaker (hoff : OffBook w e r) (l : ℕ) (s : Side) :
    Iter.reset (w.fillTaker e r o) l s = Iter.reset w l s := by
  simp only [Iter.reset, World.book, book_fillTaker]
  rcases hb : (w.store l).book s with _ | ⟨⟨p, _ | ⟨j, js⟩⟩, bs⟩
  · rfl
  · rfl
  · have hf : ((w.fillTaker e r o).store l).odrMap.find? j = (w.store l).odrMap.find? j := by
      have hw := find_book_writeRef (o := o) hoff (j := j) (s := s) (l := l) (by simp [hb])
      rw [← hw]
      simp [fillTaker]
    simp only [Ladder.first, orUb, Iter.load, World.deref, World.order?, hf, ok_bind]

theorem matcher_writeRef (hoff : OffBook w e r) (l : ℕ) (s : Side) :
    (w.writeRef e r o).matcher l s = w.matcher l s := by
  simp only [matcher, conf_writeRef, front_writeRef hoff]

theorem front_fillTaker (hoff : OffBook w e r) (l : ℕ) (s : Side) :
    (w.fillTaker e r o).front l s = w.front l s := by
  rw [← front_writeRef (o := o) hoff l s]
  simp only [front, cursor, fillTaker, store_callback]

theorem resolves_fillTaker (hoff : OffBook w e r) (h : Resolves w l s) :
    Resolves (w.fillTaker e r o) l s := by
  have h1 := resolves_writeRef (o := o) hoff h
  rcases h1 with hb | ⟨m, is, b⟩
  · exact Or.inl (by simpa [fillTaker] using hb)
  · exact Or.inr ⟨m, by simpa [fillTaker] using is, by simpa [fillTaker] using b,
      by assumption, by assumption⟩

theorem offBook_fillMaker (hoff : OffBook w e r) (hm : Front w l s m) (hok : w.Ok) :
    OffBook (w.fillMaker l s n) e r := by
  intro id hr t hmem
  obtain ⟨is, b, hb⟩ := hm.book
  rw [book_fillMaker] at hmem
  split_ifs at hmem with hc
  · obtain ⟨p, hat⟩ := Ladder.mem_ids.mp hmem
    rw [(hok l).at_pop hb] at hat
    exact hoff id hr s (hc.1 ▸ hat.1.mem_ids)
  · exact hoff id hr t hmem

/-- Filling a maker does not touch a taker outside the books. -/
theorem readRef_fillMaker (hoff : OffBook w e r) (hm : Front w l s m)
    (hid : n.orderId = m.orderId) :
    (w.fillMaker l s n).readRef e r = w.readRef e r := by
  cases r with
  | arg => simp [readRef]
  | entry id =>
    have hne : ¬(e = l ∧ id = n.orderId) := by
      rintro ⟨rfl, rfl⟩
      exact hoff _ rfl s (hid ▸ hm.at_book.mem_ids)
    simp [readRef, deref, find_fillMaker, hne]

end World

/-! ### Between the two legs -/

section Leg1

variable {i : Implier}

theorem World.ok_fillLeg1 (hok : w.Ok) (hm1 : Front w i.leg1.1 i.leg1.2 m1) :
    (w.fillLeg1 i m1 m2 o q).Ok :=
  World.ok_fillMaker (World.ok_bumpId hok) hm1.bumpId rfl rfl

theorem World.offBook_fillLeg1 (hok : w.Ok) (hoff : OffBook w e r)
    (hm1 : Front w i.leg1.1 i.leg1.2 m1) :
    OffBook (w.fillLeg1 i m1 m2 o q) e r :=
  World.offBook_fillMaker (w := w.bumpId) hoff hm1.bumpId hok

theorem Front.fillLeg1 (hok : w.Ok) (hne : i.leg1 ≠ i.leg2) (hm1 : Front w i.leg1.1 i.leg1.2 m1)
    (hm2 : Front w i.leg2.1 i.leg2.2 m2) : Front (w.fillLeg1 i m1 m2 o q) i.leg2.1 i.leg2.2 m2 :=
  Front.fillMaker (World.ok_bumpId hok) hm1.bumpId rfl hm2.bumpId (Ne.symm hne)

/-- The first half of an implied step moves no iterator but that of the first leg. -/
theorem World.front_fillLeg1 (hok : w.Ok) (hm1 : Front w i.leg1.1 i.leg1.2 m1) {x : ℕ × Side}
    (hx : x ≠ i.leg1) :
    (w.fillLeg1 i m1 m2 o q).front x.1 x.2 = w.front x.1 x.2 :=
  World.front_fillMaker_ne hx (World.ok_bumpId hok) hm1.bumpId (engineMakerMatch_orderId ..)

theorem Resolves.bumpId (h : Resolves w l s) : Resolves w.bumpId l s := by
  rcases h with hb | ⟨m, hm⟩
  · exact Or.inl hb
  · exact Or.inr ⟨m, hm.bumpId⟩

theorem Resolves.fillLeg1 {x : ℕ × Side} (h : Resolves w x.1 x.2) (hok : w.Ok)
    (hm1 : Front w i.leg1.1 i.leg1.2 m1) (hx : x ≠ i.leg1) :
    Resolves (w.fillLeg1 i m1 m2 o q) x.1 x.2 :=
  h.bumpId.fillMaker (World.ok_bumpId hok) hm1.bumpId (engineMakerMatch_orderId ..) hx

end Leg1

/-! ### The code's step -/

/-- Filling a maker at the front of one book does not change a reset of another. -/
theorem Iter.reset_fillMaker_ne {n : Order} {l' : ℕ} {t : Side} (hne : (l', t) ≠ (l, s))
    (hok : w.Ok) (hm : Front w l s m) (hid : n.orderId = m.orderId) :
    Iter.reset (w.fillMaker l s n) l' t = Iter.reset w l' t := by
  simp only [Iter.reset, World.book, World.book_fillMaker_ne hne]
  rcases hb : (w.store l').book t with _ | ⟨⟨p, _ | ⟨j, js⟩⟩, bs⟩
  · rfl
  · rfl
  · have hf := World.find_fillMaker_ne hne hok hm hid (j := j) (by rw [hb]; simp)
    simp only [Ladder.first, orUb, Iter.load, World.deref, World.order?, hf, ok_bind]

theorem executeStep_local (hok : w.Ok) (hoff : OffBook w e r) (hm : Front w e s m)
    (ho : w.readRef e r = .ok o) :
    executeStep w e r ⟨p, q, w.front e s, none⟩ = (do
      let loc ← Iter.reset (w.fillLocal e s r m o p q) e s
      return (w.fillLocal e s r m o p q, loc, none)) := by
  have hoff' : OffBook w.bumpId e r := hoff
  have hread : w.bumpId.readRef e r = .ok o := by cases r <;> exact ho
  have hmk := makerMatch_front (World.ok_bumpId hok) hm.bumpId w.nextId q o.orderId 0
  have hord := order_front (World.ok_bumpId hok) hm.bumpId
  have hstart : w.front e s = w.bumpId.front e s := rfl
  have hread' : (w.bumpId.fillMaker e s (engineMakerMatch m w.nextId q o.orderId 0)).readRef e r =
      .ok o := by
    rw [World.readRef_fillMaker hoff' hm.bumpId (engineMakerMatch_orderId ..), hread]
  have hreset : Iter.reset (w.fillLocal e s r m o p q) e s =
      Iter.reset (w.bumpId.fillMaker e s (engineMakerMatch m w.nextId q o.orderId 0)) e s := by
    rw [World.fillLocal,
      World.reset_fillTaker (World.offBook_fillMaker hoff' hm.bumpId (World.ok_bumpId hok))]
  simp only [executeStep, hread, hstart, hord, hmk, ok_bind, hreset]
  rcases Iter.reset
    (w.bumpId.fillMaker e s (engineMakerMatch m w.nextId q o.orderId 0)) e s with f | it
  · rfl
  · simp only [ok_bind, pure, Except.pure, takerMatch, hread']
    rfl

theorem executeStep_implied {i : Implier} (hok : w.Ok) (hoff : OffBook w e r)
    (hne : i.leg1 ≠ i.leg2) (hm1 : Front w i.leg1.1 i.leg1.2 m1)
    (hm2 : Front w i.leg2.1 i.leg2.2 m2) (ho : w.readRef e r = .ok o) :
    executeStep w e r ⟨p, q, w.front i.leg1.1 i.leg1.2, some (w.front i.leg2.1 i.leg2.2)⟩ = (do
      let leg1 ← Iter.reset (w.fillImplied e r i m1 m2 o p q) i.leg1.1 i.leg1.2
      let leg2 ← Iter.reset (w.fillImplied e r i m1 m2 o p q) i.leg2.1 i.leg2.2
      return (w.fillImplied e r i m1 m2 o p q, leg1, some leg2)) := by
  have hok0 : w.bumpId.Ok := World.ok_bumpId hok
  have hoff0 : OffBook w.bumpId e r := hoff
  have hread : w.bumpId.readRef e r = .ok o := by cases r <;> exact ho
  set w1 := w.fillLeg1 i m1 m2 o q with hw1
  have hok1 : w1.Ok := World.ok_fillLeg1 hok hm1
  have hoff1 : OffBook w1 e r := World.offBook_fillLeg1 hok hoff hm1
  have hm2' : Front w1 i.leg2.1 i.leg2.2 m2 := hm1.fillLeg1 hok hne hm2
  have hread1 : w1.readRef e r = .ok o := by
    rw [hw1, World.fillLeg1,
      World.readRef_fillMaker hoff0 hm1.bumpId (engineMakerMatch_orderId ..), hread]
  set w2 :=
    w1.fillMaker i.leg2.1 i.leg2.2 (engineMakerMatch m2 w.nextId q o.orderId m1.orderId) with hw2
  have hoff2 : OffBook w2 e r := World.offBook_fillMaker hoff1 hm2' hok1
  have hread2 : w2.readRef e r = .ok o := by
    rw [hw2, World.readRef_fillMaker hoff1 hm2' (engineMakerMatch_orderId ..), hread1]
  have hmk1 :
      (w.bumpId.front i.leg1.1 i.leg1.2).makerMatch w.bumpId w.nextId q o.orderId m2.orderId =
      (do let it ← Iter.reset w1 i.leg1.1 i.leg1.2; return (w1, it)) :=
    makerMatch_front hok0 hm1.bumpId w.nextId q o.orderId m2.orderId
  have hmk2 : (w1.front i.leg2.1 i.leg2.2).makerMatch w1 w.nextId q o.orderId m1.orderId =
      (do let it ← Iter.reset w2 i.leg2.1 i.leg2.2; return (w2, it)) :=
    makerMatch_front hok1 hm2' w.nextId q o.orderId m1.orderId
  have hord1 := order_front hok0 hm1.bumpId
  have hord2 := order_front hok0 hm2.bumpId
  have hs1 : w.front i.leg1.1 i.leg1.2 = w.bumpId.front i.leg1.1 i.leg1.2 := rfl
  have hs2 : w.front i.leg2.1 i.leg2.2 = w.bumpId.front i.leg2.1 i.leg2.2 := rfl
  have hs2' : w.bumpId.front i.leg2.1 i.leg2.2 = w1.front i.leg2.1 i.leg2.2 :=
    (World.front_fillLeg1 hok hm1 (Ne.symm hne)).symm
  have hend : w.fillImplied e r i m1 m2 o p q =
      w2.fillTaker e r (engineMatch o .taker w.nextId p q m1.orderId m2.orderId) := rfl
  have hr1 : Iter.reset (w.fillImplied e r i m1 m2 o p q) i.leg1.1 i.leg1.2 =
      Iter.reset w1 i.leg1.1 i.leg1.2 := by
    rw [hend, World.reset_fillTaker hoff2, hw2,
      Iter.reset_fillMaker_ne hne hok1 hm2' (engineMakerMatch_orderId ..)]
  have hr2 : Iter.reset (w.fillImplied e r i m1 m2 o p q) i.leg2.1 i.leg2.2 =
      Iter.reset w2 i.leg2.1 i.leg2.2 := by rw [hend, World.reset_fillTaker hoff2]
  simp only [executeStep, hread, hs1, hs2, hord1, hord2, hmk1, ok_bind, hr1, hr2]
  rcases Iter.reset w1 i.leg1.1 i.leg1.2 with f | it1
  · rfl
  · simp only [ok_bind, pure, Except.pure]
    rw [hs2', hmk2]
    rcases Iter.reset w2 i.leg2.1 i.leg2.2 with f | it2
    · rfl
    · simp only [ok_bind, pure, Except.pure, takerMatch, hread2]
      rfl

/-! ### Fresh iterators stay fresh -/

section Frame

variable (w e s r m o p q)

@[simp] theorem World.conf_fillLocal (l : ℕ) : (w.fillLocal e s r m o p q).conf l = w.conf l := by
  simp [World.fillLocal]

@[simp] theorem World.conf_fillImplied (i : Implier) (l : ℕ) :
    (w.fillImplied e r i m1 m2 o p q).conf l = w.conf l := by
  simp [World.fillImplied, World.fillLeg1]

end Frame

theorem World.ok_fillLocal (hok : w.Ok) (hoff : OffBook w e r) (hm : Front w e s m) :
    (w.fillLocal e s r m o p q).Ok :=
  World.ok_fillTaker (World.ok_fillMaker (World.ok_bumpId hok) hm.bumpId rfl rfl)
    (World.offBook_fillMaker hoff hm.bumpId hok)

theorem World.offBook_fillTaker {n : Order} (hoff : OffBook w e r) :
    OffBook (w.fillTaker e r n) e r := by
  intro id hr t
  rw [World.book_fillTaker]
  exact hoff id hr t

theorem World.offBook_fillLocal (hok : w.Ok) (hoff : OffBook w e r) (hm : Front w e s m) :
    OffBook (w.fillLocal e s r m o p q) e r :=
  World.offBook_fillTaker (World.offBook_fillMaker (w := w.bumpId) hoff hm.bumpId hok)

theorem World.live_fillLocal (h : w.Live) (hok : w.Ok) (hoff : OffBook w e r) (hm : Front w e s m) :
    (w.fillLocal e s r m o p q).Live :=
  World.live_fillTaker (World.live_fillMaker (w := w.bumpId) h hok hm.bumpId rfl)
    (World.offBook_fillMaker (w := w.bumpId) hoff hm.bumpId hok)

/-- A local step keeps the fronts of all other books. -/
theorem Resolves.fillLocal (hok : w.Ok) (hoff : OffBook w e r) (hm : Front w e s m) {l : ℕ}
    {t : Side} (hne : (l, t) ≠ (e, s)) (h : Resolves w l t) :
    Resolves (w.fillLocal e s r m o p q) l t := by
  have h1 :=
    h.bumpId.fillMaker (n := engineMakerMatch m w.nextId q o.orderId 0)
      (World.ok_bumpId hok) hm.bumpId
    (engineMakerMatch_orderId ..) hne
  exact World.resolves_fillTaker (World.offBook_fillMaker (w := w.bumpId) hoff hm.bumpId hok) h1

theorem World.front_fillLocal (hok : w.Ok) (hoff : OffBook w e r) (hm : Front w e s m) {l : ℕ}
    {t : Side} (hne : (l, t) ≠ (e, s)) : (w.fillLocal e s r m o p q).front l t = w.front l t := by
  have h2 := World.front_fillMaker_ne (n := engineMakerMatch m w.nextId q o.orderId 0) hne
    (World.ok_bumpId hok) hm.bumpId (engineMakerMatch_orderId ..)
  rw [World.fillLocal,
    World.front_fillTaker (World.offBook_fillMaker (w := w.bumpId) hoff hm.bumpId hok), h2]
  rfl

section Implied

variable {i : Implier} (hok : w.Ok) (hoff : OffBook w e r) (hne : i.leg1 ≠ i.leg2)
  (hm1 : Front w i.leg1.1 i.leg1.2 m1) (hm2 : Front w i.leg2.1 i.leg2.2 m2)
include hok hoff hne hm1 hm2

theorem World.ok_fillImplied : (w.fillImplied e r i m1 m2 o p q).Ok :=
  World.ok_fillTaker
    (World.ok_fillMaker (World.ok_fillLeg1 hok hm1) (hm1.fillLeg1 hok hne hm2) rfl rfl)
      (World.offBook_fillMaker (World.offBook_fillLeg1 hok hoff hm1) (hm1.fillLeg1 hok hne hm2)
      (World.ok_fillLeg1 hok hm1))

theorem World.live_fillImplied (h : w.Live) : (w.fillImplied e r i m1 m2 o p q).Live :=
  World.live_fillTaker (World.live_fillMaker
    (World.live_fillMaker (w := w.bumpId) h (World.ok_bumpId hok) hm1.bumpId rfl)
    (World.ok_fillLeg1 hok hm1) (hm1.fillLeg1 hok hne hm2) rfl)
    (World.offBook_fillMaker (World.offBook_fillLeg1 hok hoff hm1) (hm1.fillLeg1 hok hne hm2)
      (World.ok_fillLeg1 hok hm1))

/-- An implied step keeps the fronts of all books but the legs. -/
theorem Resolves.fillImplied {x : ℕ × Side} (h1 : x ≠ i.leg1) (h2 : x ≠ i.leg2)
    (h : Resolves w x.1 x.2) :
    Resolves (w.fillImplied e r i m1 m2 o p q) x.1 x.2 := by
  have hmid : Resolves (w.fillLeg1 i m1 m2 o q) x.1 x.2 := h.fillLeg1 hok hm1 h1
  exact World.resolves_fillTaker
    (World.offBook_fillMaker (World.offBook_fillLeg1 hok hoff hm1) (hm1.fillLeg1 hok hne hm2)
      (World.ok_fillLeg1 hok hm1))
    (hmid.fillMaker (World.ok_fillLeg1 hok hm1) (hm1.fillLeg1 hok hne hm2)
      (engineMakerMatch_orderId ..) h2)

theorem World.offBook_fillImplied : OffBook (w.fillImplied e r i m1 m2 o p q) e r :=
  World.offBook_fillTaker (World.offBook_fillMaker (World.offBook_fillLeg1 hok hoff hm1)
    (hm1.fillLeg1 hok hne hm2) (World.ok_fillLeg1 hok hm1))

theorem World.front_fillImplied {x : ℕ × Side} (h1 : x ≠ i.leg1) (h2 : x ≠ i.leg2) :
    (w.fillImplied e r i m1 m2 o p q).front x.1 x.2 = w.front x.1 x.2 := by
  have hok1 : (w.fillLeg1 i m1 m2 o q).Ok := World.ok_fillLeg1 hok hm1
  have hm2' : Front (w.fillLeg1 i m1 m2 o q) i.leg2.1 i.leg2.2 m2 := hm1.fillLeg1 hok hne hm2
  have hoff1 : OffBook (w.fillLeg1 i m1 m2 o q) e r := World.offBook_fillLeg1 hok hoff hm1
  rw [World.fillImplied, World.front_fillTaker (World.offBook_fillMaker hoff1 hm2' hok1),
    World.front_fillMaker_ne h2 hok1 hm2' (engineMakerMatch_orderId ..),
    World.front_fillLeg1 hok hm1 h1]

end Implied

theorem World.matcher_fillLocal (hok : w.Ok) (hoff : OffBook w e r) (hm : Front w e s m)
    (hap : LegsApart w e s) :
    (w.fillLocal e s r m o p q).matcher e s =
      { w.matcher e s with loc := (w.fillLocal e s r m o p q).front e s } := by
  simp only [World.matcher, World.conf_fillLocal, Matcher.mk.injEq, true_and]
  refine List.map_congr_left (fun i hi => ?_)
  have hout : ∀ x ∈ [i.leg1, i.leg2], (x.1, x.2) ≠ (e, s) := by
    intro x hx he
    exact hap.outside x (List.mem_flatMap.mpr ⟨i, hi, hx⟩) (congrArg Prod.fst he)
  rw [World.front_fillLocal hok hoff hm (hout i.leg1 (by simp)),
    World.front_fillLocal hok hoff hm (hout i.leg2 (by simp))]

/-- The legs of an implier differ from each other and from those of every other one. -/
theorem LegsApart.legs_ne (h : LegsApart w e s) {k j : ℕ} {i i' : Implier}
    (hi : ((w.conf e).impliers s)[k]? = some i) (hi' : ((w.conf e).impliers s)[j]? = some i')
    (hne : k ≠ j) :
    ∀ x ∈ [i'.leg1, i'.leg2], x ≠ i.leg1 ∧ x ≠ i.leg2 := by
  obtain ⟨hk, rfl⟩ := List.getElem?_eq_some_iff.mp hi
  obtain ⟨hj, rfl⟩ := List.getElem?_eq_some_iff.mp hi'
  have hdis := (List.nodup_flatMap.mp h.nodup).2
  intro x hx
  have hd : List.Disjoint [((w.conf e).impliers s)[k].leg1, ((w.conf e).impliers s)[k].leg2]
      [((w.conf e).impliers s)[j].leg1, ((w.conf e).impliers s)[j].leg2] := by
    rcases Nat.lt_or_gt_of_ne hne with hlt | hlt
    · exact List.pairwise_iff_getElem.mp hdis k j hk hj hlt
    · exact List.disjoint_comm.mp (List.pairwise_iff_getElem.mp hdis j k hj hk hlt)
  constructor
  · rintro rfl; exact hd (by simp) hx
  · rintro rfl; exact hd (by simp) hx

theorem LegsApart.leg_ne (h : LegsApart w e s) {i : Implier} (hi : i ∈ (w.conf e).impliers s) :
    i.leg1 ≠ i.leg2 := by
  have hnd := (List.nodup_flatMap.mp h.nodup).1 i hi
  simpa using hnd

theorem LegsApart.outside_of_mem (h : LegsApart w e s) {i : Implier}
    (hi : i ∈ (w.conf e).impliers s) :
    i.leg1.1 ≠ e ∧ i.leg2.1 ≠ e :=
  ⟨h.outside i.leg1 (List.mem_flatMap.mpr ⟨i, hi, by simp⟩),
    h.outside i.leg2 (List.mem_flatMap.mpr ⟨i, hi, by simp⟩)⟩

theorem World.matcher_fillImplied {i : Implier} {k : ℕ} (hok : w.Ok) (hoff : OffBook w e r)
    (hap : LegsApart w e s) (hi : ((w.conf e).impliers s)[k]? = some i)
    (hm1 : Front w i.leg1.1 i.leg1.2 m1) (hm2 : Front w i.leg2.1 i.leg2.2 m2) :
    (w.fillImplied e r i m1 m2 o p q).matcher e s =
      { w.matcher e s with
        impliers := (w.matcher e s).impliers.set k
          ⟨i, (w.fillImplied e r i m1 m2 o p q).front i.leg1.1 i.leg1.2,
            (w.fillImplied e r i m1 m2 o p q).front i.leg2.1 i.leg2.2⟩ } := by
  have hmem : i ∈ (w.conf e).impliers s := List.mem_of_getElem? hi
  have hne : i.leg1 ≠ i.leg2 := hap.leg_ne hmem
  obtain ⟨hout1, hout2⟩ := hap.outside_of_mem hmem
  have hloc := World.front_fillImplied (o := o) (p := p) (q := q) (x := (e, s)) hok hoff hne hm1 hm2
    (fun he => hout1 (congrArg Prod.fst he).symm) (fun he => hout2 (congrArg Prod.fst he).symm)
  simp only [World.matcher, World.conf_fillImplied, Matcher.mk.injEq, true_and]
  refine ⟨hloc, List.ext_getElem? (fun j => ?_)⟩
  rw [List.getElem?_set, List.getElem?_map, List.getElem?_map]
  by_cases hj : k = j
  · subst hj
    obtain ⟨hlen, rfl⟩ := List.getElem?_eq_some_iff.mp hi
    simp [hlen]
  · rw [if_neg hj]
    rcases hi' : ((w.conf e).impliers s)[j]? with _ | i'
    · rfl
    · have hx := hap.legs_ne hi hi' hj
      have h1 := World.front_fillImplied (o := o) (p := p) (q := q) hok hoff hne hm1 hm2
        (hx i'.leg1 (by simp)).1 (hx i'.leg1 (by simp)).2
      have h2 := World.front_fillImplied (o := o) (p := p) (q := q) hok hoff hne hm1 hm2
        (hx i'.leg2 (by simp)).1 (hx i'.leg2 (by simp)).2
      simp [h1, h2]

end Matching
