import Mathlib.Data.List.Dedup
import Mathlib.Data.List.Induction
import Matching.Net.OdrQuery

/-! The answer to an open-order query. `handle_odr` keeps one order for each account, and keeps it
    when its state is not `OPEN`; `handle_request` answers with as many orders as there are accounts
    in the map, whoever asks, and copies all of them to the first place. -/

namespace Matching.OdrQuery

/-! ### What is asked for -/

/-- The last report of an order. -/
def lastReport (reports : List Order) (id : ℕ) : Option Order :=
  reports.reverse.find? (fun o => o.orderId = id)

/-- The last report of an account. -/
def lastOfAccount (reports : List Order) (account : ℕ) : Option Order :=
  reports.reverse.find? (fun o => o.accountId = account)

/-- `OPEN` or `PARTIAL_FILL`, with remaining quantity. -/
def IsOpen (o : Order) : Prop :=
  (o.orderState = .opened ∨ o.orderState = .partialFill) ∧ 0 < o.remainQuantity

instance (o : Order) : Decidable (IsOpen o) := by
  unfold IsOpen
  infer_instance

/-- The last reports of the orders of an account and a market that are open. -/
def openOrders (reports : List Order) (account market : ℕ) : List Order :=
  ((reports.map (fun o => o.orderId)).dedup.filterMap (lastReport reports)).filter
    (fun o => IsOpen o ∧ o.accountId = account ∧ o.marketId = market)

/-- The response holds the open orders of the account and the market, each
    once, and nothing else. -/
def Exact (reports : List Order) (items : List (ℕ × Order)) (req : Request) : Prop :=
  (handleRequest items req).orders.Perm (openOrders reports req.accountId req.marketId)

/-- The last report of its account, in a state other than `OPEN`. -/
def Lasting (reports : List Order) (o : Order) : Prop :=
  lastOfAccount reports o.accountId = some o ∧ o.orderState ≠ .opened

/-- No account's last report is in a state other than `OPEN` and there is nothing to
    answer, or one account's is, and that report is the one open order of the account
    and the market that is asked for. -/
def OneLasting (reports : List Order) (req : Request) : Prop :=
  (∀ o, ¬Lasting reports o) ∧ openOrders reports req.accountId req.marketId = [] ∨
    ∃ o, (∀ o', Lasting reports o' ↔ o' = o) ∧ openOrders reports req.accountId req.marketId = [o]

/-! ### What is kept -/

theorem store_concat (reports : List Order) (o : Order) :
    store (reports ++ [o]) = handleOdr (store reports) o := by
  rw [store, List.foldl_append]
  rfl

theorem lastOfAccount_concat (reports : List Order) (o : Order) (account : ℕ) :
    lastOfAccount (reports ++ [o]) account = if o.accountId = account then some o
      else lastOfAccount reports account := by
  rw [lastOfAccount, List.reverse_append, List.reverse_singleton, List.singleton_append,
    List.find?_cons]
  by_cases h : o.accountId = account <;> simp [h, lastOfAccount]

/-- An account is in the map with its last report, if that is not `OPEN`. -/
theorem find?_store (reports : List Order) (account : ℕ) :
    (store reports).find? account = (lastOfAccount reports account).filter
      (fun o => o.orderState ≠ .opened) := by
  induction reports using List.reverseRecOn with
  | nil => rfl
  | append_singleton reports o ih =>
    rw [store_concat, lastOfAccount_concat, handleOdr]
    by_cases hstate : .opened ≠ o.orderState
    · rw [if_pos ⟨hstate, Nat.one_ne_zero⟩, OrdMap.find?_insert, ih]
      by_cases hacc : o.accountId = account
      · simp [hacc, Option.filter, Ne.symm hstate]
      · simp [hacc, Ne.symm hacc]
    · rw [if_neg (fun h => hstate h.1), OrdMap.find?_erase, ih]
      rw [not_not] at hstate
      by_cases hacc : o.accountId = account
      · simp [hacc, Option.filter, hstate.symm]
      · simp [hacc, Ne.symm hacc]

theorem mem_store {reports : List Order} {e : ℕ × Order} :
    e ∈ (store reports).entries ↔ e.1 = e.2.accountId ∧ Lasting reports e.2 := by
  obtain ⟨account, o⟩ := e
  rw [OrdMap.mem_entries, find?_store, Option.filter_eq_some_iff, Lasting, decide_eq_true_iff]
  constructor
  · rintro ⟨hlast, hstate⟩
    have hacc : o.accountId = account := by simpa using List.find?_some hlast
    subst hacc
    exact ⟨rfl, hlast, hstate⟩
  · rintro ⟨hacc, h⟩
    obtain rfl : account = o.accountId := hacc
    exact h

/-! ### What is answered -/

theorem foldl_set (items : List (ℕ × Order)) (b : Order) (bs : List Order) :
    items.foldl (fun buff item => buff.set 0 item.2) (b :: bs) =
      (items.getLast?.map Prod.snd).getD b :: bs := by
  induction items using List.reverseRecOn with
  | nil => rfl
  | append_singleton items x ih =>
    rw [List.foldl_append, ih]
    simp

/-- Only the last order of the loop is in the response; zeros are in the place of the others. -/
theorem orders_cons (x : ℕ × Order) (items : List (ℕ × Order)) (req : Request) :
    (handleRequest (x :: items) req).orders =
      (((x :: items).getLast?.map Prod.snd).getD zeroOrder) ::
        List.replicate items.length zeroOrder :=
  foldl_set (x :: items) zeroOrder _

/-- Zeros are no open order. -/
theorem zeroOrder_notMem (reports : List Order) (account market : ℕ) :
    zeroOrder ∉ openOrders reports account market := by
  intro h
  have hopen := (List.mem_filter.mp h).2
  simp [IsOpen, zeroOrder, Order.default] at hopen

/-- Whatever order the loop takes, the response is the open orders of the account and the
    market if and only if there are none and no account is kept, or one account is kept and
    its order is the only open one. -/
theorem response_exact_iff (reports : List Order) (req : Request) (items : List (ℕ × Order))
    (hitems : items.Perm (store reports).entries) :
    Exact reports items req ↔ OneLasting reports req := by
  have hlasting : ∀ o, Lasting reports o ↔ (o.accountId, o) ∈ items := fun o => by
    rw [hitems.mem_iff, mem_store]
    exact (and_iff_right rfl).symm
  rcases items with _ | ⟨x, _ | ⟨y, items⟩⟩
  · -- nobody is kept
    have hnone : ∀ o, ¬Lasting reports o := fun o h => by simpa using (hlasting o).mp h
    have hnil : (handleRequest [] req).orders = [] := rfl
    rw [Exact, hnil, List.nil_perm]
    constructor
    · intro h
      exact .inl ⟨hnone, h⟩
    · rintro (⟨-, h⟩ | ⟨o, ho, -⟩)
      · exact h
      · exact absurd ((ho o).mpr rfl) (hnone o)
  · -- one account is kept
    have hx : x.1 = x.2.accountId ∧ Lasting reports x.2 :=
      mem_store.mp (hitems.subset List.mem_cons_self)
    have hone : ∀ o, Lasting reports o ↔ o = x.2 := fun o => by
      refine ⟨fun h => ?_, fun h => h ▸ hx.2⟩
      have hmem := (hlasting o).mp h
      rw [List.mem_singleton] at hmem
      exact congrArg Prod.snd hmem
    have horders : (handleRequest [x] req).orders = [x.2] := rfl
    rw [Exact, horders, List.singleton_perm]
    constructor
    · intro h
      exact .inr ⟨x.2, hone, h.symm⟩
    · rintro (⟨hnone, -⟩ | ⟨o, ho, h⟩)
      · exact absurd hx.2 (hnone x.2)
      · rw [h, (hone o).mp ((ho o).mpr rfl)]
  · -- several are kept: a place is left empty
    have hx : x.1 = x.2.accountId ∧ Lasting reports x.2 :=
      mem_store.mp (hitems.subset List.mem_cons_self)
    have hy : y.1 = y.2.accountId ∧ Lasting reports y.2 :=
      mem_store.mp (hitems.subset (List.mem_cons_of_mem _ List.mem_cons_self))
    constructor
    · intro h
      have hzero : zeroOrder ∈ (handleRequest (x :: y :: items) req).orders := by
        rw [orders_cons]
        exact List.mem_cons_of_mem _ List.mem_cons_self
      exact absurd (h.subset hzero) (zeroOrder_notMem _ _ _)
    · rintro (⟨hnone, -⟩ | ⟨o, ho, -⟩)
      · exact absurd hx.2 (hnone x.2)
      · have hxy : x.2 = y.2 := ((ho _).mp hx.2).trans ((ho _).mp hy.2).symm
        have hkey : x = y := Prod.ext (by rw [hx.1, hy.1, hxy]) hxy
        have hnodup : (store reports).entries.Nodup :=
          (store reports).sorted.imp fun h heq => absurd (heq ▸ h) (lt_irrefl _)
        rw [← hitems.nodup_iff] at hnodup
        exact absurd (hkey ▸ List.mem_cons_self) (List.nodup_cons.mp hnodup).1

/-- An order of account 1 in market 2, partly filled. -/
def partlyFilled : Order := { Order.default with
  accountId := 1
  marketId := 2
  orderId := 3
  quantity := 5
  remainQuantity := 4
  orderState := .partialFill }

theorem response_exact_partlyFilled :
    Exact [partlyFilled] (store [partlyFilled]).entries ⟨1, 2, 7⟩ := by
  refine (response_exact_iff _ _ _ (List.Perm.refl _)).mpr
    (.inr ⟨partlyFilled, fun o => ?_, by decide +kernel⟩)
  constructor
  · rintro ⟨h, -⟩
    exact (List.mem_singleton.mp (List.mem_of_find?_eq_some h))
  · rintro rfl
    exact ⟨by decide +kernel, by decide⟩

/-- The same order, just entered. -/
def entered : Order := { partlyFilled with
  quantity := 4
  orderState := .opened }

/-- An open order is left out of the response. -/
theorem response_not_exact_entered : ¬Exact [entered] (store [entered]).entries ⟨1, 2, 7⟩ := by
  have horders : (handleRequest (store [entered]).entries ⟨1, 2, 7⟩).orders = [] := by
    decide +kernel
  have hopen : openOrders [entered] 1 2 = [entered] := by decide +kernel
  rw [Exact, horders, hopen]
  exact fun h => absurd h.length_eq (by decide)

end Matching.OdrQuery
