import Matching.Engine.Books

/-! Iterators over well-formed books. While the books are in order a reset puts an iterator
    on the front order of its book (`World.front`) or fails because that entry dangles;
    `top` is a pure function of the cursors (`pureTop`); and a maker fill at a fresh
    iterator is the closed form `fillMaker` followed by a reset (`makerMatch_front`), which
    moves no iterator of another book. -/

namespace Matching

/-! ### Fresh iterators -/

namespace World

/-- Where `reset` puts an iterator, with the quantity it caches. -/
def cursor (w : World) (l : ℕ) (s : Side) : Option Cursor :=
  match (w.store l).book s with
  | (p, id :: _) :: _ =>
    some ⟨p, id, (((w.store l).odrMap.find? id).map Order.remainQuantity).getD 0⟩
  | _ => none

def front (w : World) (l : ℕ) (s : Side) : Iter := ⟨l, s, w.cursor l s⟩

/-- The iterators of the matcher of engine `e` and side `s` after a `reset`. -/
def matcher (w : World) (e : ℕ) (s : Side) : Matcher :=
  ⟨e, s, w.front e s,
    ((w.conf e).impliers s).map
      (fun i => ⟨i, w.front i.leg1.1 i.leg1.2, w.front i.leg2.1 i.leg2.2⟩)⟩

/-- The books of every engine are in order. -/
def Ok (w : World) : Prop := ∀ l, BooksOk (w.store l)

/-- No book entry of any engine dangles. -/
def Live (w : World) : Prop := ∀ l, (w.store l).Live

end World

/-- `m` is the front order of book `s` of engine `l`. -/
structure Front (w : World) (l : ℕ) (s : Side) (m : Order) : Prop where
  book : ∃ is b, (w.store l).book s = (m.price, m.orderId :: is) :: b
  find : (w.store l).odrMap.find? m.orderId = some m
  remain : 0 < m.remainQuantity
  limit : m.price ≠ marketPrice

/-- Reading the front of a book does not read a dangling entry. -/
def Resolves (w : World) (l : ℕ) (s : Side) : Prop := (w.store l).book s = [] ∨ ∃ m, Front w l s m

variable {w : World} {l e : ℕ} {s : Side} {m : Order}

namespace Front

theorem at_book (h : Front w l s m) : ((w.store l).book s).At m.price m.orderId := by
  obtain ⟨is, b, hb⟩ := h.book
  exact BooksOk.at_front hb

theorem cursor (h : Front w l s m) :
    w.cursor l s = some ⟨m.price, m.orderId, m.remainQuantity⟩ := by
  obtain ⟨is, b, hb⟩ := h.book
  simp [World.cursor, hb, h.find]

theorem front (h : Front w l s m) :
    w.front l s = ⟨l, s, some ⟨m.price, m.orderId, m.remainQuantity⟩⟩ := by
  rw [World.front, h.cursor]

theorem bumpId (h : Front w l s m) : Front w.bumpId l s m := ⟨h.book, h.find, h.remain, h.limit⟩

/-- The front entry of a book, when it resolves, is a front order. -/
theorem mk_of_find (h : BooksOk (w.store l)) {p : ℤ} {id : ℕ} {is : List ℕ} {b : Book}
    (hb : (w.store l).book s = (p, id :: is) :: b) (ho : (w.store l).odrMap.find? id = some m) :
    Front w l s m ∧ m.price = p ∧ m.orderId = id := by
  obtain ⟨rfl, rfl, hpos, hlim⟩ := h.restsAt (BooksOk.at_front hb) ho
  exact ⟨⟨⟨is, b, hb⟩, ho, hpos, hlim⟩, rfl, rfl⟩

/-- The front order of another book is another entry, or an order of another engine. -/
theorem ne_of_ne (hok : w.Ok) {l' : ℕ} {t : Side} {m' : Order} (h : Front w l s m)
    (h' : Front w l' t m') (hne : (l', t) ≠ (l, s)) : ¬(l' = l ∧ m'.orderId = m.orderId) := by
  rintro ⟨rfl, hid⟩
  have ht : t ≠ s := fun he => hne (he ▸ rfl)
  have hmem := h'.at_book.mem_ids
  rw [Side.eq_opp_of_ne ht, hid] at hmem
  exact (hok _).apart h.at_book.mem_ids hmem

end Front

theorem Resolves.of_live (hok : BooksOk (w.store l)) (h : (w.store l).Live) : Resolves w l s := by
  rcases hb : (w.store l).book s with _ | ⟨⟨p, _ | ⟨id, is⟩⟩, b⟩
  · exact Or.inl hb
  · have hwf := hok.wf s
    rw [hb] at hwf
    exact absurd rfl (hwf.full _ (List.mem_cons_self ..))
  · obtain ⟨o, ho⟩ := Option.ne_none_iff_exists'.mp (h s p id (BooksOk.at_front hb))
    exact Or.inr ⟨o, (Front.mk_of_find hok hb ho).1⟩

theorem Resolves.cursor_cases (h : Resolves w l s) :
    (w.cursor l s = none ∧ (w.store l).book s = []) ∨ ∃ m, Front w l s m := by
  rcases h with hb | hm
  · exact Or.inl ⟨by simp [World.cursor, hb], hb⟩
  · exact Or.inr hm

theorem Resolves.front_of_cursor (h : Resolves w l s) {c : Cursor} (hc : w.cursor l s = some c) :
    ∃ m, Front w l s m ∧ c = ⟨m.price, m.orderId, m.remainQuantity⟩ := by
  rcases h.cursor_cases with ⟨hn, _⟩ | ⟨m, hm⟩
  · rw [hn] at hc; cases hc
  · exact ⟨m, hm, Option.some.inj (hc.symm.trans hm.cursor)⟩

namespace Iter

theorem load_eq {p : ℤ} {id : ℕ} {o : Order} (ho : (w.store l).odrMap.find? id = some o) :
    load w l s (some (p, id)) = .ok ⟨l, s, some ⟨p, id, o.remainQuantity⟩⟩ := by
  simp [load, World.deref, orUb, ho, pure, Except.pure]

theorem load_ub {p : ℤ} {id : ℕ} (ho : (w.store l).odrMap.find? id = none) :
    load w l s (some (p, id)) = .error .ub := by
  simp [load, World.deref, orUb, ho, bind, Except.bind]

theorem reset_eq (h : Resolves w l s) : reset w l s = .ok (w.front l s) := by
  rcases h.cursor_cases with ⟨hc, hb⟩ | ⟨m, hm⟩
  · simp [reset, hb, Ladder.first, orUb, load, World.front, hc]
  · obtain ⟨is, b, hb⟩ := hm.book
    simp [reset, hb, Ladder.first, orUb, load_eq hm.find, hm.front]

/-- A reset succeeds where the front resolves and is undefined behaviour where it dangles. -/
theorem reset_cases (hok : BooksOk (w.store l)) (s : Side) :
    Resolves w l s ∨ (reset w l s = .error .ub ∧ ¬(w.store l).Live) := by
  by_cases h : Resolves w l s
  · exact Or.inl h
  right
  refine ⟨?_, fun hl => h (Resolves.of_live hok hl)⟩
  rcases hb : (w.store l).book s with _ | ⟨⟨p, _ | ⟨id, is⟩⟩, b⟩
  · exact absurd (Or.inl hb) h
  · simp [reset, hb, Ladder.first, orUb, bind, Except.bind]
  · rcases ho : (w.store l).odrMap.find? id with _ | o
    · simp [reset, hb, Ladder.first, orUb, load_ub ho]
    · exact absurd (Or.inr ⟨o, (Front.mk_of_find hok hb ho).1⟩) h

theorem reset_ok {it : Iter} (hok : BooksOk (w.store l)) (h : reset w l s = .ok it) :
    Resolves w l s ∧ it = w.front l s := by
  rcases reset_cases hok s with hr | ⟨hub, _⟩
  · exact ⟨hr, Except.ok.inj (h.symm.trans (reset_eq hr))⟩
  · rw [hub] at h; cases h

/-- An iterator whose position is in its book and resolves reads a resting order. -/
theorem order_eq {it : Iter} {c : Cursor} {o : Order} (h : BooksOk (w.store it.engine))
    (hc : it.cur = some c) (hat : ((w.store it.engine).book it.side).At c.price c.id)
    (ho : (w.store it.engine).odrMap.find? c.id = some o) : it.order w = .ok o := by
  have hhas := (Ladder.has_iff (h.wf it.side)).mpr hat
  simp [order, hc, hhas, World.deref, ho, orUb]

end Iter

theorem order_front (hok : w.Ok) (hm : Front w l s m) : (w.front l s).order w = .ok m :=
  Iter.order_eq (hok l) hm.cursor hm.at_book hm.find

/-! ### Fills at the front -/

namespace World

variable {n : Order}

theorem booksOk_fillMaker (h : BooksOk (w.store l)) (hm : Front w l s m)
    (hid : n.orderId = m.orderId) (hp : n.price = m.price) {l' : ℕ} (h' : BooksOk (w.store l')) :
    BooksOk ((w.fillMaker l s n).store l') := by
  by_cases hl : l' = l
  · subst hl
    obtain ⟨is, b, hb⟩ := hm.book
    refine h.fill hb ⟨hid, hp, hm.limit⟩ (fun t => ?_) (fun j => ?_)
    · simp [book_fillMaker]
    · simp [find_fillMaker, hid]
  · refine h'.congr (fun t => ?_) (fun t j _ => ?_)
    · simp [book_fillMaker, hl]
    · simp [find_fillMaker, hl]

theorem ok_fillMaker (h : w.Ok) (hm : Front w l s m) (hid : n.orderId = m.orderId)
    (hp : n.price = m.price) :
    (w.fillMaker l s n).Ok := fun l' => booksOk_fillMaker (h l) hm hid hp (h l')

theorem live_fillMaker (h : w.Live) (hok : w.Ok) (hm : Front w l s m)
    (hid : n.orderId = m.orderId) :
    (w.fillMaker l s n).Live := by
  intro l'
  by_cases hl : l' = l
  · subst hl
    obtain ⟨is, b, hb⟩ := hm.book
    refine (h l').fill (o := n) (hok l') hb (fun t => ?_) (fun j => ?_)
    · simp [book_fillMaker]
    · simp [find_fillMaker, hid]
  · refine (h l').congr (fun t => ?_) (fun t j _ => ?_)
    · simp [book_fillMaker, hl]
    · simp [find_fillMaker, hl]

section Elsewhere

variable {l' : ℕ} {t : Side} (hne : (l', t) ≠ (l, s))
include hne

theorem book_fillMaker_ne : ((w.fillMaker l s n).store l').book t = (w.store l').book t := by
  rw [book_fillMaker, if_neg]
  rintro ⟨rfl, rfl, _⟩
  exact hne rfl

variable (hok : w.Ok) (hm : Front w l s m) (hid : n.orderId = m.orderId)
include hok hm hid

theorem find_fillMaker_ne {j : ℕ} (hj : j ∈ ((w.store l').book t).ids) :
    ((w.fillMaker l s n).store l').odrMap.find? j = (w.store l').odrMap.find? j := by
  rw [find_fillMaker, if_neg]
  rintro ⟨rfl, rfl⟩
  have ht : t ≠ s := fun he => hne (he ▸ rfl)
  rw [Side.eq_opp_of_ne ht, hid] at hj
  exact (hok l').apart hm.at_book.mem_ids hj

/-- A fill at the front of one book moves no iterator of another book. -/
theorem front_fillMaker_ne : (w.fillMaker l s n).front l' t = w.front l' t := by
  simp only [front, cursor, book_fillMaker_ne hne]
  rcases hbk : (w.store l').book t with _ | ⟨⟨q, _ | ⟨j, js⟩⟩, bs⟩
  · rfl
  · rfl
  · simp only [find_fillMaker_ne hne hok hm hid (j := j) (by simp [hbk])]

end Elsewhere

end World

/-- A front order of another book is untouched by a fill. -/
theorem Front.fillMaker {n : Order} {l' : ℕ} {t : Side} {m' : Order} (hok : w.Ok)
    (hm : Front w l s m) (hid : n.orderId = m.orderId) (h : Front w l' t m')
    (hne : (l', t) ≠ (l, s)) :
    Front (w.fillMaker l s n) l' t m' := by
  obtain ⟨is, b, hb⟩ := h.book
  refine ⟨⟨is, b, ?_⟩, ?_, h.remain, h.limit⟩
  · rw [World.book_fillMaker_ne hne, hb]
  · rw [World.find_fillMaker_ne hne hok hm hid h.at_book.mem_ids, h.find]

theorem Resolves.fillMaker {n : Order} {l' : ℕ} {t : Side} (h : Resolves w l' t) (hok : w.Ok)
    (hm : Front w l s m) (hid : n.orderId = m.orderId) (hne : (l', t) ≠ (l, s)) :
    Resolves (w.fillMaker l s n) l' t := by
  rcases h with hb | ⟨m', hm'⟩
  · exact Or.inl ((World.book_fillMaker_ne hne).trans hb)
  · exact Or.inr ⟨m', Front.fillMaker hok hm hid hm' hne⟩

/-- A front order that is filled in part stays the front. -/
theorem Front.fillSelf {n : Order} (hm : Front w l s m) (hid : n.orderId = m.orderId)
    (hp : n.price = m.price) (hq : n.remainQuantity ≠ 0) : Front (w.fillMaker l s n) l s n := by
  obtain ⟨is, b, hb⟩ := hm.book
  refine ⟨⟨is, b, ?_⟩, ?_, Nat.pos_of_ne_zero hq, hp ▸ hm.limit⟩
  · rw [World.book_fillMaker, if_neg (fun h => hq h.2.2), hb, hp, hid]
  · rw [World.find_fillMaker, if_pos ⟨rfl, rfl⟩, if_neg hq]

/-- `maker_match` at a fresh iterator: the fill, then the iterator on the new front. -/
theorem makerMatch_front (hok : w.Ok) (hm : Front w l s m) (mid q a a2 : ℕ) :
    (w.front l s).makerMatch w mid q a a2 = (do
      let it ← Iter.reset (w.fillMaker l s (engineMakerMatch m mid q a a2)) l s
      return (w.fillMaker l s (engineMakerMatch m mid q a a2), it)) := by
  obtain ⟨is, b, hb⟩ := hm.book
  have hord := order_front hok hm
  rw [hm.front] at hord ⊢
  set m' := engineMakerMatch m mid q a a2 with hm'
  have hid : m'.orderId = m.orderId := rfl
  have hp : m'.price = m.price := rfl
  have hok' := World.ok_fillMaker hok hm hid hp
  set w1 := (w.putOrder l m.orderId m').callback l m' with hw1
  have hbook1 : ∀ t, (w1.store l).book t = (w.store l).book t := by simp [hw1]
  have hfind1 : ∀ j, (w1.store l).odrMap.find? j =
      if j = m.orderId then some m' else (w.store l).odrMap.find? j := by simp [hw1]
  have hhas : ((w.store l).book s).has m.price m.orderId = true :=
    (Ladder.has_iff ((hok l).wf s)).mpr hm.at_book
  have hord1 : (⟨l, s, some ⟨m.price, m.orderId, m.remainQuantity⟩⟩ : Iter).order w1 = .ok m' := by
    simp only [Iter.order, World.book, hbook1, hhas, if_true, World.deref,
      World.order?, hfind1, orUb]
  have hfill : w.fillMaker l s m' =
      if m'.remainQuantity = 0 then (w1.setBook l s (w1.book l s).pop).eraseOrder l m.orderId
      else w1 := by
    simp only [World.fillMaker, hid, hw1]
  by_cases hq : m'.remainQuantity = 0
  · -- the filled maker leaves; the iterator moves to what follows it
    have hb' : ((w.fillMaker l s m').store l).book s = ((w.store l).book s).pop := by
      rw [World.book_fillMaker]; simp [hq]
    have hpop : ((w.store l).book s).eraseAt m.price m.orderId = ((w.store l).book s).pop := by
      rw [hb, Ladder.eraseAt_head]
    have hsucc : ((w.store l).book s).succ m.price m.orderId =
        Ladder.first ((w.store l).book s).pop := by
      rw [hb]
      exact Ladder.succ_of_tail (hb ▸ (hok l).wf s) (Ladder.Tail.refl _)
    have hnext : (⟨l, s, some ⟨m.price, m.orderId, m.remainQuantity⟩⟩ : Iter).next w1 =
        Iter.reset (w.fillMaker l s m') l s := by
      simp only [Iter.next, Iter.reset, World.book, hbook1, hsucc, ← hb']
      rcases hbk : ((w.fillMaker l s m').store l).book s with _ | ⟨⟨p', _ | ⟨id', is'⟩⟩, b'⟩
      · rfl
      · rfl
      · have hne : id' ≠ m.orderId := by
          have hat' := BooksOk.at_front hbk
          rw [hb', (hok l).at_pop hb] at hat'
          exact hat'.2
        have hfind : (w1.store l).odrMap.find? id' =
            ((w.fillMaker l s m').store l).odrMap.find? id' := by
          rw [hfind1, World.find_fillMaker, if_neg hne, if_neg (fun h => hne (h.2.trans hid))]
        simp only [Ladder.first, orUb, Iter.load, World.deref, World.order?, hfind, ok_bind]
    simp only [Iter.makerMatch, hord, ok_bind, ← hm', ← hw1, hq, if_true, Iter.erase, hord1, hnext]
    simp only [hid, World.book, hbook1, hpop, hfill, if_true, hq]
  · have hfront : Front (w.fillMaker l s m') l s m' := hm.fillSelf hid hp hq
    simp only [Iter.makerMatch, hord, ok_bind, ← hm', ← hw1, hq, if_false,
      Iter.reset_eq (Or.inr ⟨m', hfront⟩), hfront.front]
    rw [hfill, if_neg hq]
    rfl

/-! ### Choosing the best source -/

/-- The position of an iterator is in its book and resolves. -/
def Iter.InBook (w : World) (it : Iter) : Prop :=
  ∀ c, it.cur = some c → ((w.store it.engine).book it.side).At c.price c.id ∧
    (w.store it.engine).odrMap.find? c.id ≠ none

theorem Iter.InBook.order {it : Iter} {c : Cursor} (h : it.InBook w) (hok : w.Ok)
    (hc : it.cur = some c) :
    ∃ o, it.order w = .ok o ∧ o.price = c.price := by
  obtain ⟨hat, hne⟩ := h c hc
  obtain ⟨o, ho⟩ := Option.ne_none_iff_exists'.mp hne
  exact ⟨o, Iter.order_eq (hok _) hc hat ho, ((hok _).restsAt hat ho).price⟩

namespace Matcher

/-- All iterators of a matcher are in their books. -/
structure InBook (w : World) (m : Matcher) : Prop where
  loc : m.loc.InBook w
  legs : ∀ L ∈ m.impliers, L.leg1.InBook w ∧ L.leg2.InBook w

/-- `topStep` on the cursors. -/
def pureStep (s : Side) (tick own : ℤ) (i : ℕ) (L : ImpliedLegs) (t : Top) : Top :=
  match L.leg1.cur, L.leg2.cur with
  | some c1, some c2 =>
    let price := L.imp.matchdPrice c1.price c2.price tick
    if price = marketPrice then t
    else
      let price := if own ≠ marketPrice ∧ s.cmp price own then beyondOwn s own tick else price
      if t.price = marketPrice ∨ s.cmp price t.price then
        ⟨some i, price, if c1.remain < c2.remain then c1.remain else c2.remain⟩
      else t
  | _, _ => t

def pureLoop (s : Side) (tick own : ℤ) : ℕ → List ImpliedLegs → Top → Top
  | _, [], t => t
  | i, L :: Ls, t => pureLoop s tick own (i + 1) Ls (pureStep s tick own i L t)

/-- `top` on the cursors, given the best price of the taker's own book. -/
def pureTop (m : Matcher) (own tick : ℤ) : Top :=
  pureLoop m.side tick own 0 m.impliers
    ⟨none, (m.loc.cur.map Cursor.price).getD marketPrice, m.loc.topMatchingQuantity⟩

theorem topStep_eq {L : ImpliedLegs} (hok : w.Ok) (h1 : L.leg1.InBook w) (h2 : L.leg2.InBook w)
    (tick own : ℤ) (i : ℕ) (t : Top) :
    topStep w s tick own i L t = .ok (pureStep s tick own i L t) := by
  rcases hc1 : L.leg1.cur with _ | c1
  · simp [topStep, pureStep, Iter.valid, hc1, pure, Except.pure]
  rcases hc2 : L.leg2.cur with _ | c2
  · simp [topStep, pureStep, Iter.valid, hc1, hc2, pure, Except.pure]
  obtain ⟨o1, ho1, hr1⟩ := h1.order hok hc1
  obtain ⟨o2, ho2, hr2⟩ := h2.order hok hc2
  simp only [topStep, pureStep, Iter.valid, hc1, hc2, Option.isSome_some, Bool.and_self,
    if_true, ho1, ho2, ok_bind, hr1, hr2, Iter.topMatchingQuantity, Option.map_some,
    Option.getD_some, pure,
    Except.pure]
  split_ifs <;> rfl

theorem topLoop_eq (hok : w.Ok) (tick own : ℤ) : ∀ (Ls : List ImpliedLegs) (i : ℕ) (t : Top),
    (∀ L ∈ Ls, L.leg1.InBook w ∧ L.leg2.InBook w) →
    topLoop w s tick own i Ls t = .ok (pureLoop s tick own i Ls t)
  | [], _, _, _ => rfl
  | L :: Ls, i, t, h => by
    obtain ⟨h1, h2⟩ := h L (List.mem_cons_self ..)
    simp only [topLoop, pureLoop, topStep_eq hok h1 h2, ok_bind]
    exact topLoop_eq hok tick own Ls (i + 1) _ (fun L' hL' => h L' (List.mem_cons_of_mem _ hL'))

end Matcher

/-- The best price of the taker's own book. -/
def World.ownPrice (w : World) (e : ℕ) (s : Side) : ℤ :=
  match (w.store e).book s.opp with
  | (p, _ :: _) :: _ => p
  | _ => marketPrice

theorem Iter.topPriceOwnSide_eq (h : Resolves w e s.opp) :
    topPriceOwnSide w e s = .ok (w.ownPrice e s) := by
  rcases h with hb | ⟨m, hm⟩
  · simp [topPriceOwnSide, World.ownPrice, hb]
  · obtain ⟨is, b, hb⟩ := hm.book
    simp [topPriceOwnSide, World.ownPrice, hb, World.deref, hm.find, orUb, pure, Except.pure]

theorem Iter.topPriceOwnSide_ub (hok : BooksOk (w.store e)) (h : ¬Resolves w e s.opp) :
    topPriceOwnSide w e s = .error .ub := by
  rcases hb : (w.store e).book s.opp with _ | ⟨⟨p, _ | ⟨id, is⟩⟩, b⟩
  · exact absurd (Or.inl hb) h
  · have hwf := hok.wf s.opp
    rw [hb] at hwf
    exact absurd rfl (hwf.full _ (List.mem_cons_self ..))
  · rcases ho : (w.store e).odrMap.find? id with _ | o
    · simp [topPriceOwnSide, hb, World.deref, ho, orUb, bind, Except.bind]
    · exact absurd (Or.inr ⟨o, (Front.mk_of_find hok hb ho).1⟩) h

theorem Iter.topPrice_eq {it : Iter} (hok : w.Ok) (h : it.InBook w) :
    it.topPrice w = .ok ((it.cur.map Cursor.price).getD marketPrice) := by
  rcases hc : it.cur with _ | c
  · simp [topPrice, valid, hc, pure, Except.pure]
  · obtain ⟨o, ho, hr⟩ := h.order hok hc
    simp [topPrice, valid, hc, ho, hr, pure, Except.pure]

theorem Matcher.top_eq {m : Matcher} (hok : w.Ok) (h : m.InBook w)
    (hown : Resolves w m.engine m.side.opp) :
    m.top w = .ok (m.pureTop (w.ownPrice m.engine m.side) (w.conf m.engine).miniTick) := by
  simp only [top, Iter.topPrice_eq hok h.loc, Iter.topPriceOwnSide_eq hown, ok_bind,
    topLoop_eq hok _ _ _ _ _ h.legs, pureTop]

/-- The books a matcher reads its offers from: the opposite book and the legs of its impliers. -/
def Config.sources (c : Config) (e : ℕ) (s : Side) : List (ℕ × Side) :=
  (e, s) :: (c.impliers s).flatMap (fun i => [i.leg1, i.leg2])

theorem Config.mem_sources {c : Config} {i : Implier} (hi : i ∈ c.impliers s) :
    i.leg1 ∈ c.sources e s ∧ i.leg2 ∈ c.sources e s :=
  ⟨List.mem_cons_of_mem _ (List.mem_flatMap.mpr ⟨i, hi, by simp⟩),
    List.mem_cons_of_mem _ (List.mem_flatMap.mpr ⟨i, hi, by simp⟩)⟩

theorem Resolves.inBook (h : Resolves w l s) : (w.front l s).InBook w := by
  intro c hc
  obtain ⟨m, hm, rfl⟩ := h.front_of_cursor hc
  exact ⟨hm.at_book,
    by rw [show ((w.front l s).engine) = l from rfl, hm.find]; exact Option.some_ne_none m⟩

theorem World.matcher_inBook (h : ∀ x ∈ (w.conf e).sources e s, Resolves w x.1 x.2) :
    (w.matcher e s).InBook w := by
  refine ⟨(h (e, s) (List.mem_cons_self ..)).inBook, fun L hL => ?_⟩
  obtain ⟨i, hi, rfl⟩ := List.mem_map.mp hL
  obtain ⟨h1, h2⟩ := Config.mem_sources (e := e) hi
  exact ⟨(h _ h1).inBook, (h _ h2).inBook⟩

theorem Matcher.reset_eq (h : ∀ x ∈ (w.conf e).sources e s, Resolves w x.1 x.2) :
    Matcher.reset w e s = .ok (w.matcher e s) := by
  have hlegs : ∀ imps : List Implier,
      (∀ i ∈ imps, Resolves w i.leg1.1 i.leg1.2 ∧ Resolves w i.leg2.1 i.leg2.2) → resetLegs w imps =
        .ok (imps.map (fun i => ⟨i, w.front i.leg1.1 i.leg1.2, w.front i.leg2.1 i.leg2.2⟩)) := by
    intro imps
    induction imps with
    | nil => exact fun _ => rfl
    | cons i imps ih =>
      intro hi
      obtain ⟨h1, h2⟩ := hi i (List.mem_cons_self ..)
      simp only [resetLegs, Iter.reset_eq h1, Iter.reset_eq h2,
        ih (fun j hj => hi j (List.mem_cons_of_mem _ hj)), ok_bind, pure, Except.pure,
        List.map_cons]
  have hl := hlegs ((w.conf e).impliers s) (fun i hi =>
    ⟨h _ (Config.mem_sources hi).1, h _ (Config.mem_sources hi).2⟩)
  simp only [reset, Iter.reset_eq (h (e, s) (List.mem_cons_self ..)), hl, ok_bind,
    pure, Except.pure, World.matcher]

/-- A matcher is reset, or one of the books it reads has a dangling front. -/
theorem Matcher.reset_cases (hok : w.Ok) (e : ℕ) (s : Side) :
    (∀ x ∈ (w.conf e).sources e s, Resolves w x.1 x.2) ∨
      (Matcher.reset w e s = .error .ub ∧ ¬w.Live) := by
  have hlegs : ∀ imps : List Implier,
      (∀ i ∈ imps, Resolves w i.leg1.1 i.leg1.2 ∧ Resolves w i.leg2.1 i.leg2.2) ∨
      (resetLegs w imps = .error .ub ∧ ¬w.Live) := by
    intro imps
    induction imps with
    | nil => exact Or.inl (by simp)
    | cons i imps ih =>
      rcases Iter.reset_cases (hok i.leg1.1) i.leg1.2 with h1 | ⟨h1, hl⟩
      · rcases Iter.reset_cases (hok i.leg2.1) i.leg2.2 with h2 | ⟨h2, hl⟩
        · rcases ih with ih | ⟨ih, hl⟩
          · left
            intro j hj
            rcases List.mem_cons.mp hj with rfl | hj
            · exact ⟨h1, h2⟩
            · exact ih j hj
          · exact Or.inr
              ⟨by simp only [resetLegs, Iter.reset_eq h1, Iter.reset_eq h2, ih, ok_bind]; rfl, hl⟩
        · exact Or.inr ⟨by simp only [resetLegs, Iter.reset_eq h1, h2, ok_bind]; rfl,
            fun h => hl (h _)⟩
      · exact Or.inr ⟨by simp only [resetLegs, h1]; rfl, fun h => hl (h _)⟩
  rcases Iter.reset_cases (hok e) s with h1 | ⟨h1, hl⟩
  · rcases hlegs ((w.conf e).impliers s) with h2 | ⟨h2, hl⟩
    · left
      intro x hx
      rcases List.mem_cons.mp hx with rfl | hx
      · exact h1
      · obtain ⟨i, hi, hx⟩ := List.mem_flatMap.mp hx
        simp only [List.mem_cons, List.not_mem_nil, or_false] at hx
        rcases hx with rfl | rfl
        · exact (h2 i hi).1
        · exact (h2 i hi).2
    · exact Or.inr ⟨by simp only [reset, Iter.reset_eq h1, h2, ok_bind]; rfl, hl⟩
  · exact Or.inr ⟨by simp only [reset, h1]; rfl, fun h => hl (h _)⟩

/-- The best offer to a taker of side `s`, with fresh iterators. -/
def World.offer (w : World) (e : ℕ) (s : Side) : Top :=
  (w.matcher e s).pureTop (w.ownPrice e s) (w.conf e).miniTick

/-- No front order a matching loop of engine `e` and side `s` reads is a dangling entry. -/
structure Fronts (w : World) (e : ℕ) (s : Side) : Prop where
  own : Resolves w e s.opp
  src : ∀ x ∈ (w.conf e).sources e s, Resolves w x.1 x.2

theorem Fronts.of_live (hok : w.Ok) (h : w.Live) : Fronts w e s :=
  ⟨Resolves.of_live (hok e) (h e), fun x _ => Resolves.of_live (hok x.1) (h x.1)⟩

theorem Fronts.loc (h : Fronts w e s) : Resolves w e s := h.src (e, s) (List.mem_cons_self ..)

theorem Fronts.leg (h : Fronts w e s) {i : Implier} (hi : i ∈ (w.conf e).impliers s) :
    Resolves w i.leg1.1 i.leg1.2 ∧ Resolves w i.leg2.1 i.leg2.2 :=
  ⟨h.src _ (Config.mem_sources hi).1, h.src _ (Config.mem_sources hi).2⟩

theorem World.top_matcher (hok : w.Ok) (h : Fronts w e s) :
    (w.matcher e s).top w = .ok (w.offer e s) :=
  Matcher.top_eq hok (World.matcher_inBook h.src) h.own

/-- The loop of `top` keeps its start value or ends with an implier whose two legs are valid. -/
theorem Matcher.pureLoop_cases (tick own : ℤ) : ∀ (Ls : List ImpliedLegs) (i : ℕ) (t : Top),
    pureLoop s tick own i Ls t = t ∨
    ∃ k L c1 c2, Ls[k]? = some L ∧ L.leg1.cur = some c1 ∧ L.leg2.cur = some c2 ∧
      (pureLoop s tick own i Ls t).src = some (i + k) ∧
      (pureLoop s tick own i Ls t).quantity = min c1.remain c2.remain
  | [], _, _ => Or.inl rfl
  | L :: Ls, i, t => by
    rcases pureLoop_cases tick own Ls (i + 1) (pureStep s tick own i L t) with h | h
    · rw [pureLoop, h]
      unfold pureStep
      rcases hc1 : L.leg1.cur with _ | c1
      · exact Or.inl rfl
      rcases hc2 : L.leg2.cur with _ | c2
      · exact Or.inl rfl
      have hmin : (if c1.remain < c2.remain then c1.remain else c2.remain) =
          min c1.remain c2.remain := by
        split_ifs with h
        · exact (min_eq_left h.le).symm
        · exact (min_eq_right (not_lt.mp h)).symm
      simp only [hmin]
      split_ifs
      · exact Or.inl rfl
      · exact Or.inr ⟨0, L, c1, c2, rfl, hc1, hc2, rfl, rfl⟩
      · exact Or.inl rfl
      · exact Or.inr ⟨0, L, c1, c2, rfl, hc1, hc2, rfl, rfl⟩
      · exact Or.inl rfl
    · obtain ⟨k, L', c1, c2, hk, hc1, hc2, hsrc, hq⟩ := h
      exact Or.inr ⟨k + 1, L', c1, c2, by simpa using hk, hc1,
        hc2, by rw [pureLoop, hsrc]; congr 1; omega, by rw [pureLoop, hq]⟩

end Matching
