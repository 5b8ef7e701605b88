import Mathlib.Data.Fintype.Card
import Mathlib.Data.Set.Finite.Basic
import Mathlib.Order.WellFounded
import Mathlib.Data.List.Chain
import Mathlib.Logic.Relation

/-! Finite graphs given by the links of each node. A link from `x` to `y` closes no cycle where `y`
    does not reach `x`; in a graph without cycles a walk is no longer than the number of nodes, and
    every node is reached from one that nothing links to. -/

namespace Matching.Graph

open Relation

variable {κ : Type}

/-- `x` has a link to `y`. -/
def Linked (links : κ → List κ) (x y : κ) : Prop := y ∈ links x

/-- `y` is `x`, or is linked to from `x` directly or through others. -/
def Reaches (links : κ → List κ) : κ → κ → Prop := ReflTransGen (Linked links)

/-- No node reaches itself over a link. -/
def Acyclic (links : κ → List κ) : Prop := ∀ x, ¬ TransGen (Linked links) x x

variable {links : κ → List κ} {x y : κ}

/-! ### Adding a link -/

section Add
variable [DecidableEq κ]

/-- The graph with a link from `x` to `y`. -/
def add (links : κ → List κ) (x y : κ) : κ → List κ := Function.update links x (links x ++ [y])

theorem link_add {a b : κ} : Linked (add links x y) a b ↔ Linked links a b ∨ a = x ∧ b = y := by
  unfold Linked add
  rw [Function.update_apply]
  split
  · next h =>
    subst h
    simp
  · next h => simp [h]

/-- From a node that does not reach `x`, the link from `x` leads nowhere new. -/
theorem reaches_of_add (h : ¬ Reaches links y x) {b : κ} (hb : Reaches (add links x y) y b) :
    Reaches links y b := by
  induction hb with
  | refl => exact .refl
  | tail _ hlink ih =>
    rcases link_add.mp hlink with hold | ⟨rfl, -⟩
    · exact ih.tail hold
    · exact absurd ih h

/-- A walk over the larger graph is one over the smaller, or takes the link. -/
theorem trans_of_add {a b : κ} (h : TransGen (Linked (add links x y)) a b) :
    TransGen (Linked links) a b ∨ Reaches (add links x y) a x ∧ Reaches (add links x y) y b := by
  induction h with
  | single hlink =>
    rcases link_add.mp hlink with hold | ⟨rfl, rfl⟩
    · exact .inl (.single hold)
    · exact .inr ⟨.refl, .refl⟩
  | tail hwalk hlink ih =>
    rcases link_add.mp hlink with hold | ⟨rfl, rfl⟩
    · rcases ih with ih | ⟨hx, hy⟩
      · exact .inl (ih.tail hold)
      · exact .inr ⟨hx, hy.tail hlink⟩
    · exact .inr ⟨hwalk.to_reflTransGen, .refl⟩

theorem Acyclic.add (hacyclic : Acyclic links) (h : ¬ Reaches links y x) :
    Acyclic (add links x y) := by
  intro a ha
  rcases trans_of_add ha with hold | ⟨hx, hy⟩
  · exact hacyclic a hold
  · exact h (reaches_of_add h (hy.trans hx))

end Add

/-! ### Finitely many nodes -/

/-- A walk in a graph without cycles meets no node twice. -/
theorem Acyclic.nodup (h : Acyclic links) {walk : List κ} (hwalk : walk.IsChain (Linked links)) :
    walk.Nodup := by
  have hall : walk.Pairwise (TransGen (Linked links)) :=
    (hwalk.imp fun _ _ => TransGen.single).pairwise
  refine hall.imp fun {a b} hab heq => ?_
  subst heq
  exact h a hab

/-- A walk is no longer than the list of the nodes. -/
theorem Acyclic.length_le (h : Acyclic links) {nodes walk : List κ}
    (hwalk : walk.IsChain (Linked links)) (hnodes : ∀ a ∈ walk, a ∈ nodes) :
    walk.length ≤ nodes.length :=
  ((h.nodup hwalk).subperm hnodes).length_le

/-- Going back along a relation without cycles comes to an end. -/
theorem exists_first {R : κ → κ → Prop} (hacyclic : ∀ x, ¬ TransGen R x x) {nodes : List κ}
    (hnodes : ∀ a b, R a b → a ∈ nodes) (x : κ) (hx : x ∈ nodes) :
    ∃ s, s ∈ nodes ∧ ReflTransGen R s x ∧ ∀ a, ¬ R a s := by
  let Above : {a // a ∈ nodes} → {a // a ∈ nodes} → Prop := fun a b => TransGen R a.1 b.1
  have : Finite {a // a ∈ nodes} := List.finite_toSet nodes
  have : IsTrans _ Above := ⟨fun _ _ _ => TransGen.trans⟩
  have : Std.Irrefl Above := ⟨fun a => hacyclic a.1⟩
  have hwf : WellFounded Above := Finite.wellFounded_of_trans_of_irrefl Above
  obtain ⟨⟨s, hs⟩, hreach, hmin⟩ := hwf.has_min {a | ReflTransGen R a.1 x} ⟨⟨x, hx⟩, .refl⟩
  refine ⟨s, hs, hreach, fun a ha => ?_⟩
  exact hmin ⟨a, hnodes a s ha⟩ (hreach.head ha) (.single ha)

/-- Every node is reached from one that nothing links to. -/
theorem Acyclic.exists_source (h : Acyclic links) {nodes : List κ}
    (hnodes : ∀ a b, Linked links a b → a ∈ nodes) (x : κ) (hx : x ∈ nodes) :
    ∃ s, s ∈ nodes ∧ Reaches links s x ∧ ∀ a, ¬ Linked links a s :=
  exists_first h hnodes x hx

/-- Every node reaches one without links. -/
theorem Acyclic.exists_sink (h : Acyclic links) {nodes : List κ}
    (hnodes : ∀ a b, Linked links a b → b ∈ nodes) (x : κ) (hx : x ∈ nodes) :
    ∃ s, s ∈ nodes ∧ Reaches links x s ∧ ∀ b, ¬ Linked links s b := by
  have hback : ∀ y, ¬ TransGen (Function.swap (Linked links)) y y :=
    fun y hy => h y (transGen_swap.mp hy)
  obtain ⟨s, hs, hreach, hlast⟩ := exists_first hback (fun a b hab => hnodes b a hab) x hx
  exact ⟨s, hs, reflTransGen_swap.mp hreach, hlast⟩

/-- Among some of the nodes there is one that links to none of them. -/
theorem Acyclic.exists_last (h : Acyclic links) {part : List κ} {x : κ} (hx : x ∈ part) :
    ∃ s, s ∈ part ∧ ∀ b ∈ part, ¬ Linked links s b := by
  have hle : (fun b a => Linked links a b ∧ b ∈ part) ≤ Function.swap (Linked links) :=
    fun _ _ hab => hab.1
  have hback : ∀ y, ¬ TransGen (fun b a => Linked links a b ∧ b ∈ part) y y := fun y hy =>
    h y (transGen_swap.mp (TransGen.mono hle y y hy))
  obtain ⟨s, hs, -, hlast⟩ := exists_first hback (fun _ _ hab => hab.2) x hx
  exact ⟨s, hs, fun b hb hlink => hlast b ⟨hlink, hb⟩⟩

/-- A link from a node that the target reaches closes a cycle. -/
theorem not_acyclic_add [DecidableEq κ] (h : Reaches links y x) :
    ¬ Acyclic (Graph.add links x y) := by
  intro hacyclic
  have hle : Linked links ≤ Linked (Graph.add links x y) := fun _ _ hab => link_add.mpr (.inl hab)
  have hback : Reaches (Graph.add links x y) y x := ReflTransGen.mono hle y x h
  exact hacyclic x (TransGen.head' (link_add.mpr (.inr ⟨rfl, rfl⟩)) hback)

/-! ### Sorted nodes -/

/-- Each node of the list comes after the nodes it links to, other than
    `root`, which is not listed. -/
def Sorted (links : κ → List κ) (root : κ) (rt : List κ) : Prop :=
  ∀ l x r, rt = l ++ x :: r → ∀ y, Linked links x y → y = root ∨ y ∈ l

theorem sorted_nil (root : κ) : Sorted links root [] := by
  intro l x r h
  simp at h

/-- A node can come last when all it links to is listed. -/
theorem Sorted.concat {root : κ} {rt : List κ} (h : Sorted links root rt)
    (hx : ∀ y, Linked links x y → y = root ∨ y ∈ rt) :
    Sorted links root (rt ++ [x]) := by
  intro l a r heq y hy
  rcases List.eq_nil_or_concat r with rfl | ⟨r', z, rfl⟩
  · obtain ⟨rfl, hlast⟩ := List.append_inj' heq rfl
    obtain rfl : x = a := List.singleton_inj.mp hlast
    exact hx y hy
  · have hconcat : rt ++ [x] = (l ++ a :: r') ++ [z] := by simpa using heq
    exact h l a r' (List.append_inj' hconcat rfl).1 y hy

end Matching.Graph
