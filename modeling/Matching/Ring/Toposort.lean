import Mathlib.Data.List.Induction
import Matching.Ring.Configure

/-! `configure::toposort`: passes over a copy of the graph, each of which lists the consumers whose
    dependencies are all listed already. An `unordered_map` is gone through in an order that is not
    said; what is left of it keeps its order. -/

namespace Matching.Ring

open Graph

variable {κ : Type} [DecidableEq κ]

/-- The variables of `toposort`: `records`, `rt`, and the nodes of `grap` a pass has left behind,
    with their `link_set`. -/
structure Sorting (κ : Type) where
  records : List κ
  rt : List κ
  left : List (κ × List κ)

namespace Configure

/-- One node of a pass: the dependencies that are recorded leave its `link_set`, and the node leaves
    `grap` when none is left. -/
def visit (root : κ) (s : Sorting κ) (node : κ × List κ) : Sorting κ :=
  let linkSet := node.2.filter (fun dep => dep ∉ s.records)
  if linkSet = [] ∧ node.1 ≠ root then
    { s with records := node.1 :: s.records, rt := s.rt ++ [node.1] }
  else { s with left := s.left ++ [(node.1, linkSet)] }

/-- `while (!grap.empty())`. -/
def sortPasses (root : κ) : ℕ → List κ → List κ → List (κ × List κ) → Option (List κ)
  | 0, _, _, _ => none
  | fuel + 1, records, rt, grap =>
    if grap = [] then some rt
    else
      let s := grap.foldl (visit root) ⟨records, rt, []⟩
      sortPasses root fuel s.records s.rt s.left

/-- `toposort()`, where `order` is the order of `grap_`; `check_ring` may have
    put the disruptor there. -/
def toposort (c : Configure κ) (order : List κ) (fuel : ℕ) : Option (List κ) :=
  sortPasses c.root fuel [c.root] []
    ((order.filter (fun x => x ≠ c.root)).map fun x => (x, c.linkSet x))

/-- `order` is the consumers of `grap_`, each once, and perhaps the disruptor. -/
structure Lists (c : Configure κ) (order : List κ) : Prop where
  nodup : order.Nodup
  mem : ∀ x, x ≠ c.root → (x ∈ order ↔ x ∈ c.nodes)

/-! ### A pass -/

/-- In a pass, with `todo` still to be visited: the recorded nodes are the listed ones, each after
    its dependencies, and what a node depends on is recorded or left in its set. -/
structure Sorts (links : κ → List κ) (root : κ) (all : List κ) (s : Sorting κ)
    (todo : List (κ × List κ)) : Prop where
  records : ∀ x, x ∈ s.records ↔ x = root ∨ x ∈ s.rt
  sorted : Sorted links root s.rt
  keys : (s.rt ++ (s.left ++ todo).map Prod.fst).Perm all
  deps : ∀ node ∈ s.left ++ todo, ∀ y, Linked links node.1 y → y ∈ node.2 ∨ y ∈ s.records
  sound : ∀ node ∈ s.left ++ todo, ∀ y ∈ node.2, Linked links node.1 y

variable {links : κ → List κ} {root : κ} {all : List κ} {s : Sorting κ} {node : κ × List κ}
  {todo : List (κ × List κ)}

theorem Sorts.visit (h : Sorts links root all s (node :: todo)) :
    Sorts links root all (visit root s node) todo := by
  obtain ⟨hrec, hsorted, hkeys, hdeps, hsound⟩ := h
  have hmem : node ∈ s.left ++ node :: todo := List.mem_append_right _ List.mem_cons_self
  have hrest : ∀ e ∈ s.left ++ todo, e ∈ s.left ++ node :: todo := fun e he =>
    (List.mem_append.mp he).elim (List.mem_append_left _) fun h =>
      List.mem_append_right _ (List.mem_cons_of_mem _ h)
  unfold Configure.visit
  simp only
  split
  · next hempty =>
    -- everything it depends on is recorded
    have hall : ∀ y, Linked links node.1 y → y ∈ s.records := fun y hy => by
      refine (hdeps node hmem y hy).elim (fun hleft => ?_) id
      have hno := List.filter_eq_nil_iff.mp hempty.1 y hleft
      simpa using hno
    refine ⟨fun x => ?_, hsorted.concat fun y hy => (hrec y).mp (hall y hy), ?_,
      fun e he y hy => ?_, fun e he => hsound e (hrest e he)⟩
    · rw [List.mem_cons, hrec, List.mem_append, List.mem_singleton]
      tauto
    · refine List.Perm.trans ?_ hkeys
      simp only [List.map_append, List.map_cons, List.append_assoc, List.singleton_append]
      exact List.Perm.append_left _ List.perm_middle.symm
    · exact (hdeps e (hrest e he) y hy).imp id (List.mem_cons_of_mem _)
  · refine ⟨hrec, hsorted, ?_, fun e he y hy => ?_, fun e he y hy => ?_⟩
    · simpa only [List.append_assoc, List.singleton_append, List.map_append,
        List.map_cons] using hkeys
    · rw [List.append_assoc, List.singleton_append] at he
      rcases List.mem_append.mp he with he | he
      · exact hdeps e (List.mem_append_left _ he) y hy
      rcases List.mem_cons.mp he with rfl | he
      · refine (hdeps node hmem y hy).elim (fun hleft => ?_) .inr
        by_cases hy' : y ∈ s.records
        · exact .inr hy'
        · exact .inl (List.mem_filter.mpr ⟨hleft, by simpa using hy'⟩)
      · exact hdeps e (List.mem_append_right _ (List.mem_cons_of_mem _ he)) y hy
    · rw [List.append_assoc, List.singleton_append] at he
      rcases List.mem_append.mp he with he | he
      · exact hsound e (List.mem_append_left _ he) y hy
      rcases List.mem_cons.mp he with rfl | he
      · exact hsound node hmem y (List.mem_filter.mp hy).1
      · exact hsound e (List.mem_append_right _ (List.mem_cons_of_mem _ he)) y hy

theorem Sorts.pass : ∀ (todo : List (κ × List κ)) {s : Sorting κ}, Sorts links root all s todo →
    Sorts links root all (todo.foldl (Configure.visit root) s) []
  | [], _, h => h
  | _ :: todo, _, h => Sorts.pass todo h.visit

/-! ### A pass lists somebody -/

/-- What is recorded stays recorded, and nothing comes back. -/
theorem visit_left (root : κ) (s : Sorting κ) (node : κ × List κ) :
    s.records ⊆ (visit root s node).records ∧
      (visit root s node).left.length ≤ s.left.length + 1 := by
  unfold visit
  simp only
  split
  · exact ⟨List.subset_cons_self _ _, Nat.le_succ _⟩
  · exact ⟨List.Subset.refl _, by simp⟩

theorem pass_left_le (root : κ) : ∀ (todo : List (κ × List κ)) (s : Sorting κ),
    (todo.foldl (visit root) s).left.length ≤ s.left.length + todo.length
  | [], _ => le_refl _
  | node :: todo, s => by
    have hnode := (visit_left root s node).2
    have hrest := pass_left_le root todo (visit root s node)
    simp only [List.foldl_cons, List.length_cons]
    omega

/-- A node all of whose dependencies are recorded leaves `grap`. -/
theorem pass_left_lt (root : κ) :
    ∀ (todo : List (κ × List κ)) (s : Sorting κ) {node : κ × List κ}, node ∈ todo → node.1 ≠ root →
    (∀ y ∈ node.2, y ∈ s.records) →
      (todo.foldl (visit root) s).left.length < s.left.length + todo.length
  | e :: todo, s, node, hmem, hroot, hdeps => by
    obtain ⟨hsub, hle⟩ := visit_left root s e
    simp only [List.foldl_cons, List.length_cons]
    rcases List.mem_cons.mp hmem with rfl | hmem
    · have hempty : node.2.filter (fun dep => dep ∉ s.records) = [] :=
        List.filter_eq_nil_iff.mpr fun y hy => by simpa using hdeps y hy
      have hleft : (visit root s node).left = s.left := by
        unfold visit
        rw [if_pos ⟨hempty, hroot⟩]
      have hrest := pass_left_le root todo (visit root s node)
      rw [hleft] at hrest
      omega
    · have hrest := pass_left_lt root todo (visit root s e) hmem hroot fun y hy => hsub (hdeps y hy)
      omega

/-! ### All passes -/

/-- The passes come to an end, with every node listed after its dependencies. -/
theorem sortPasses_spec (hacyclic : Acyclic links)
    (hlinks : ∀ x ∈ all, ∀ y, Linked links x y → y = root ∨ y ∈ all) (hroot : root ∉ all) :
    ∀ (fuel : ℕ) {records rt : List κ} {grap : List (κ × List κ)},
    Sorts links root all ⟨records, rt, []⟩ grap → grap.length < fuel →
    ∃ sorted, sortPasses root fuel records rt grap = some sorted ∧ sorted.Perm all ∧
      Sorted links root sorted
  | fuel + 1, records, rt, grap, h, hfuel => by
    unfold sortPasses
    split
    · next hnil =>
      subst hnil
      exact ⟨rt, rfl, by simpa using h.keys, h.sorted⟩
    · next hne =>
      -- among the nodes that are left there is one that depends on none of them
      obtain ⟨e, rest, hgrap⟩ := List.exists_cons_of_ne_nil hne
      have he : e.1 ∈ grap.map Prod.fst := List.mem_map_of_mem (hgrap ▸ List.mem_cons_self)
      obtain ⟨x, hx, hlast⟩ := hacyclic.exists_last he
      obtain ⟨node, hnode, rfl⟩ := List.mem_map.mp hx
      have hall : ∀ y, y ∈ all ↔ y ∈ rt ∨ y ∈ grap.map Prod.fst := fun y => by
        rw [← h.keys.mem_iff, List.mem_append, List.nil_append]
      have hmem : node.1 ∈ all := (hall _).mpr (.inr hx)
      have hfree : ∀ y ∈ node.2, y ∈ records := fun y hy => by
        have hlink := h.sound node hnode y hy
        refine (h.records y).mpr ((hlinks _ hmem y hlink).imp id fun hin => ?_)
        exact ((hall y).mp hin).resolve_right fun hleft => hlast y hleft hlink
      have hlt :=
        pass_left_lt root grap ⟨records, rt, []⟩ hnode (fun heq => hroot (heq ▸ hmem)) hfree
      have hpass := h.pass
      simp only [List.length_nil, Nat.zero_add] at hlt
      refine sortPasses_spec hacyclic hlinks hroot fuel ?_ (by omega)
      obtain ⟨hrec, hsorted, hkeys, hdeps, hsound⟩ := hpass
      rw [List.append_nil] at hkeys hdeps hsound
      exact ⟨hrec, hsorted, hkeys, hdeps, hsound⟩

variable {c : Configure κ} {x y : κ}

/-- `toposort` lists every consumer once, after those it depends on. -/
theorem Good.toposort (h : c.Good) {order : List κ} (horder : c.Lists order) {fuel : ℕ}
    (hfuel : order.length < fuel) :
    ∃ rt, c.toposort order fuel = some rt ∧ rt.Nodup ∧ (∀ x, x ∈ rt ↔ c.Consumer x) ∧
      Sorted c.linkSet c.root rt := by
  have hall : ∀ x, x ∈ order.filter (fun x => x ≠ c.root) ↔ c.Consumer x := fun x => by
    rw [List.mem_filter, decide_eq_true_iff]
    constructor
    · rintro ⟨hx, hne⟩
      exact h.linked x ((horder.mem x hne).mp hx)
    · intro hx
      obtain ⟨y, hy⟩ := List.exists_mem_of_ne_nil _ hx
      have hne : x ≠ c.root := fun heq => hx (heq ▸ h.rootless)
      exact ⟨(horder.mem x hne).mpr (h.sources x y hy), hne⟩
  have hlinks : ∀ x ∈ order.filter (fun x => x ≠ c.root), ∀ y, Linked c.linkSet x y →
      y = c.root ∨ y ∈ order.filter (fun x => x ≠ c.root) := fun x _ y hy =>
    (h.targets x y hy).imp id fun hnode => (hall y).mpr (h.linked y hnode)
  have hroot : c.root ∉ order.filter (fun x => x ≠ c.root) := by simp
  have hinit : Sorts c.linkSet c.root (order.filter (fun x => x ≠ c.root)) ⟨[c.root], [], []⟩
      ((order.filter (fun x => x ≠ c.root)).map fun x => (x, c.linkSet x)) := by
    refine ⟨by simp, sorted_nil _, by simp [List.map_map, Function.comp_def], fun e he y hy => ?_,
      fun e he y hy => ?_⟩
    · obtain ⟨x, -, rfl⟩ := List.mem_map.mp he
      exact .inl hy
    · obtain ⟨x, -, rfl⟩ := List.mem_map.mp he
      exact hy
  have hlen :
      ((order.filter (fun x => x ≠ c.root)).map fun x => (x, c.linkSet x)).length < fuel := by
    rw [List.length_map]
    exact (List.length_filter_le _ _).trans_lt hfuel
  obtain ⟨rt, hrt, hperm, hsorted⟩ := sortPasses_spec h.acyclic hlinks hroot fuel hinit hlen
  exact ⟨rt, hrt, hperm.nodup_iff.mpr (horder.nodup.filter _),
    fun x => hperm.mem_iff.trans (hall x), hsorted⟩

/-! ### The calls -/

/-- `check_ring` comes to an end, and throws where the dependency would close a cycle. -/
theorem Good.checkRing_iff (h : c.Good) (x y : κ) {fuel : ℕ} (hfuel : c.nodes.length + 2 ≤ fuel) :
    checkRing c.linkSet x fuel y ≠ none ∧
      (checkRing c.linkSet x fuel y = some true ↔ ¬ Acyclic (add c.linkSet x y)) := by
  have hends : checkRing c.linkSet x fuel y ≠ none := by
    by_cases hy : y ∈ c.nodes
    · exact h.checkRing_isSome hy hfuel
    · have hnil : c.linkSet y = [] :=
        List.eq_nil_iff_forall_not_mem.mpr fun z hz => hy (h.sources y z hz)
      obtain ⟨fuel, rfl⟩ : ∃ f, fuel = f + 1 := ⟨fuel - 1, by omega⟩
      rw [checkRing, hnil]
      split <;> simp
  refine ⟨hends, fun hfound => not_acyclic_add (reaches_of_checkRing fuel y hfound),
    fun hcycle => ?_⟩
  rcases hc : checkRing c.linkSet x fuel y with _ | _ | _
  · exact absurd hc hends
  · exact absurd (h.acyclic.add (not_reaches_of_checkRing fuel y hc)) hcycle
  · rfl

/-- A call that throws records nothing. -/
theorem linkSet_of_throw {e : LinkError} (hthrow : (c.xDependsY x y).2 = some e) :
    (c.xDependsY x y).1.linkSet = c.linkSet := by
  unfold xDependsY at hthrow ⊢
  split
  · rfl
  · next hx =>
    rw [if_neg hx] at hthrow
    split
    · next hy =>
      rw [if_pos hy] at hthrow
      simp only at hthrow ⊢
      split
      · simp
      · next hnew =>
        rw [if_neg hnew] at hthrow
        cases hthrow
    · next hy =>
      rw [if_neg hy] at hthrow
      split
      · rfl
      · next hfound =>
        rw [if_neg hfound] at hthrow
        split
        · rfl
        · next hnew =>
          rw [if_neg hnew] at hthrow
          simp only at hthrow ⊢
          split
          · next hring =>
            rw [if_pos hring] at hthrow
            cases hthrow
          · simp

/-- A call that returns records the dependency. -/
theorem linkSet_of_return (hreturn : (c.xDependsY x y).2 = none) :
    (c.xDependsY x y).1.linkSet = add c.linkSet x y := by
  unfold xDependsY at hreturn ⊢
  by_cases hx : x = c.root
  · rw [if_pos hx] at hreturn
    cases hreturn
  rw [if_neg hx] at hreturn ⊢
  by_cases hy : y = c.root
  · rw [if_pos hy] at hreturn ⊢
    simp only at hreturn ⊢
    by_cases hdup : y ∈ (c.touch x).linkSet x
    · rw [if_pos hdup] at hreturn
      cases hreturn
    · rw [if_neg hdup]
      simp only [addUpper]
      split <;> simp [Configure.link]
  rw [if_neg hy] at hreturn ⊢
  by_cases hfound : y ∉ c.nodes
  · simp [if_pos hfound] at hreturn
  by_cases hdup : y ∈ c.linkSet x
  · simp [if_neg hfound, if_pos hdup] at hreturn
  simp only [if_neg hfound, if_neg hdup] at hreturn ⊢
  split
  · simp [addUpper, Configure.link]
  · next hring =>
    rw [if_neg hring] at hreturn
    cases hreturn

/-- On a consumer that is in the graph a call throws `ring_link` where the
    dependency would close a cycle. -/
theorem Good.ringLink_iff (h : c.Good) (hx : x ≠ c.root) (hy : y ∈ c.nodes) :
    (c.xDependsY x y).2 = some .ringLink ↔ ¬ Acyclic (add c.linkSet x y) := by
  have hyroot : y ≠ c.root := fun heq => h.linked y hy (heq ▸ h.rootless)
  unfold Configure.xDependsY
  rw [if_neg hx, if_neg hyroot, if_neg (not_not.mpr hy)]
  by_cases hdup : y ∈ c.linkSet x
  · have hnoreach : ¬ Reaches c.linkSet y x :=
      fun hreach => h.acyclic x (Relation.TransGen.head' hdup hreach)
    rw [if_pos hdup]
    exact iff_of_false nofun (not_not.mpr (h.acyclic.add hnoreach))
  · have hlonger : c.nodes.length + 2 ≤ (c.touch x).nodes.length + 2 := by
      unfold touch
      split <;> simp
    obtain ⟨hends, hring⟩ := h.checkRing_iff x y hlonger
    rw [if_neg hdup, ← hring]
    simp only [touch_linkSet]
    rcases hc : checkRing c.linkSet x ((c.touch x).nodes.length + 2) y with _ | _ | _
    · exact absurd hc hends
    · simp
    · simp

@[simp] theorem xDependsY_root (c : Configure κ) (x y : κ) : (c.xDependsY x y).1.root = c.root := by
  unfold xDependsY
  split
  · rfl
  split
  · simp only
    split
    · simp
    · simp only [addUpper]
      split <;> simp [Configure.link]
  split
  · rfl
  split
  · rfl
  simp only
  split
  · simp [addUpper, Configure.link]
  · simp

theorem configured_root (root : κ) (calls : List (κ × κ)) :
    (configured root calls).root = root := by
  induction calls using List.reverseRecOn with
  | nil => rfl
  | append_singleton calls call ih =>
    rw [configured, List.foldl_append, List.foldl_cons, List.foldl_nil, xDependsY_root]; exact ih

end Configure

open Configure in
/-- After any sequence of dependency calls, of which some may have thrown: the graph has no cycle
    and every consumer reaches the disruptor, a call that throws records nothing and one that
    returns the dependency, `check_ring` throws where the dependency would close a cycle and returns
    otherwise, and with it a call on a consumer of the graph, and `toposort` lists every consumer
    once, after those it depends on. -/
theorem configured_sorted (root : κ) (calls : List (κ × κ)) :
    Acyclic (configured root calls).linkSet ∧
      (∀ x, (configured root calls).Consumer x → Reaches (configured root calls).linkSet x root) ∧
      (∀ x y e, ((configured root calls).xDependsY x y).2 = some e →
        ((configured root calls).xDependsY x y).1.linkSet = (configured root calls).linkSet) ∧
      (∀ x y, ((configured root calls).xDependsY x y).2 = none →
        ((configured root calls).xDependsY x y).1.linkSet =
          add (configured root calls).linkSet x y) ∧
      (∀ x y, x ≠ root → y ∈ (configured root calls).nodes →
        (((configured root calls).xDependsY x y).2 = some .ringLink ↔
        ¬ Acyclic (add (configured root calls).linkSet x y))) ∧
      (∀ x y fuel, (configured root calls).nodes.length + 2 ≤ fuel →
        checkRing (configured root calls).linkSet x fuel y ≠ none ∧
          (checkRing (configured root calls).linkSet x fuel y = some true ↔
            ¬ Acyclic (add (configured root calls).linkSet x y))) ∧
      ∀ order fuel, (configured root calls).Lists order → order.length < fuel →
        ∃ rt, (configured root calls).toposort order fuel = some rt ∧ rt.Nodup ∧
          (∀ x, x ∈ rt ↔ (configured root calls).Consumer x) ∧
            Sorted (configured root calls).linkSet root rt := by
  have hgood := configured_good root calls
  have hroot := configured_root root calls
  refine ⟨hgood.acyclic, fun x hx => ?_, fun x y e => linkSet_of_throw,
    fun x y => linkSet_of_return, fun x y hx hy => hgood.ringLink_iff (by rwa [hroot]) hy,
    fun x y fuel => hgood.checkRing_iff x y,
    fun order fuel horder hfuel => ?_⟩
  · have hreach := hgood.rooted hx
    rwa [hroot] at hreach
  · obtain ⟨rt, hrt⟩ := hgood.toposort horder hfuel
    rw [hroot] at hrt
    exact ⟨rt, hrt⟩

open Configure in
/-- A consumer that depends on two others, of which one depends on the other; the call for the other
    direction throws. -/
theorem configured_sorted_threeConsumers :
    (configured 0 [(1, 0), (2, 1), (1, 2), (3, 2), (3, 1)]).toposort [3, 2, 1] 4 = some [1, 2, 3] ∧
      ((configured 0 [(1, 0), (2, 1)]).xDependsY 1 2).2 = some .ringLink ∧
        ¬ Acyclic (add (configured 0 [(1, 0), (2, 1)]).linkSet 1 2) := by
  obtain ⟨-, -, -, -, hring, -⟩ := configured_sorted 0 [(1, 0), (2, 1)]
  have hthrows : ((configured 0 [(1, 0), (2, 1)]).xDependsY 1 2).2 = some .ringLink := by
    decide +kernel
  exact ⟨by decide +kernel, hthrows, (hring 1 2 (by decide) (by decide +kernel)).mp hthrows⟩

end Matching.Ring
