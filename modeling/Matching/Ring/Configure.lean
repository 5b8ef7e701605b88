import Matching.Lib.Graph

/-! `ring_buffer_disruptor::configure`: the graph of consumers, built one dependency at a time, with
    a level `max_step` for each consumer; `commit` makes the producer wait for the consumers on the
    highest level. A pointer is a `κ`; `root` is the disruptor itself, the others are consumers. -/

namespace Matching.Ring

open Graph

variable {κ : Type} [DecidableEq κ]

/-- The exceptions of `configure`. -/
inductive LinkError where
  | linkNotFound
  | ringLinkToOther
  | duplicateLink
  | ringLink
  | noComsumerLink
  deriving DecidableEq, Repr

/-- `grap_` is `nodes` with the fields of each `grap_node`, which are `0` and empty for other
    pointers; `maxSteps` is the content of `max_step_`, a pair for each pointer in the set of a
    step. `uppers` is what was passed to `add` of each barrier. -/
structure Configure (κ : Type) where
  root : κ
  nodes : List κ
  linkSet : κ → List κ
  maxStep : κ → ℕ
  maxSteps : List (ℕ × κ)
  alreadyCommit : Bool
  uppers : κ → List κ

namespace Configure

/-- `configure(r_)`, for a disruptor and consumers that were just built. -/
def start (root : κ) : Configure κ := ⟨root, [], fun _ => [], fun _ => 0, [], false, fun _ => []⟩

/-- `grap_[x]`. -/
def touch (c : Configure κ) (x : κ) : Configure κ :=
  if x ∈ c.nodes then c else { c with nodes := c.nodes ++ [x] }

/-- `check_ring(x, y)`: whether it throws. `fuel` bounds the depth of the recursion. A node that it
    adds to `grap_` is the disruptor's, which no other call looks up. -/
def checkRing (links : κ → List κ) (x : κ) : ℕ → κ → Option Bool
  | 0, _ => none
  | fuel + 1, y =>
    if x = y then some true
    else (links y).foldr (fun next rest => match checkRing links x fuel next with
      | some false => rest
      | found => found) (some false)

/-- `node.max_step = step; max_step_[node.max_step].insert(&x)`, where the step is greater. -/
def raise (c : Configure κ) (x : κ) (step : ℕ) : Configure κ :=
  if step > c.maxStep x then
    { c with maxStep := Function.update c.maxStep x step, maxSteps := (step, x) :: c.maxSteps }
  else c

/-- `node.link_set.insert(&y)`. -/
def link (c : Configure κ) (x y : κ) : Configure κ := { c with linkSet := Graph.add c.linkSet x y }

/-- `x.add(y)`. -/
def addUpper (c : Configure κ) (x y : κ) : Configure κ :=
  { c with uppers := Graph.add c.uppers x y }

/-- `x_depends_y(x, y)`, with the exception it throws. -/
def xDependsY (c : Configure κ) (x y : κ) : Configure κ × Option LinkError :=
  if x = c.root then (c, some .ringLinkToOther)
  else if y = c.root then
    let c := c.touch x
    if y ∈ c.linkSet x then (c, some .duplicateLink)
    else ((if c.maxStep x = 0 then (c.link x y).raise x 1 else c.link x y).addUpper x y, none)
  else if y ∉ c.nodes then (c, some .linkNotFound)
  else if y ∈ c.linkSet x then (c, some .duplicateLink)
  else
    let c := c.touch x
    if checkRing c.linkSet x (c.nodes.length + 2) y = some false then
      (((c.link x y).raise x (c.maxStep y + 1)).addUpper x y, none)
    else (c, some .ringLink)

/-- The largest key of `max_step_`. -/
def top (c : Configure κ) : Option ℕ := (c.maxSteps.map Prod.fst).max?

/-- `commit()`, with the exception it throws. -/
def commit (c : Configure κ) : Configure κ × Option LinkError :=
  if c.alreadyCommit then (c, none)
  else
    match c.top with
    | none => (c, some .noComsumerLink)
    | some step =>
      let gated := (c.maxSteps.filter (fun e => e.1 = step)).map Prod.snd
      ({ c with
          uppers := Function.update c.uppers c.root (c.uppers c.root ++ gated),
          alreadyCommit := true }, none)

/-- The dependency calls in order; the caller goes on after an exception. -/
def configured (root : κ) (calls : List (κ × κ)) : Configure κ :=
  calls.foldl (fun c call => (c.xDependsY call.1 call.2).1) (start root)

/-- `x` is a consumer of the graph: some dependency of it was accepted. -/
def Consumer (c : Configure κ) (x : κ) : Prop := c.linkSet x ≠ []

section
variable {c : Configure κ} {x y : κ} {step : ℕ}

@[simp] theorem touch_root : (c.touch x).root = c.root := by unfold touch; split <;> rfl
@[simp] theorem touch_linkSet : (c.touch x).linkSet = c.linkSet := by unfold touch; split <;> rfl
@[simp] theorem touch_maxStep : (c.touch x).maxStep = c.maxStep := by unfold touch; split <;> rfl
@[simp] theorem touch_maxSteps : (c.touch x).maxSteps = c.maxSteps := by unfold touch; split <;> rfl
@[simp] theorem touch_uppers : (c.touch x).uppers = c.uppers := by unfold touch; split <;> rfl
@[simp] theorem touch_alreadyCommit : (c.touch x).alreadyCommit = c.alreadyCommit := by
  unfold touch; split <;> rfl

theorem mem_touch {z : κ} : z ∈ (c.touch x).nodes ↔ z ∈ c.nodes ∨ z = x := by
  unfold touch
  split
  · next h => exact ⟨.inl, fun hz => hz.elim id (fun heq => heq ▸ h)⟩
  · simp

@[simp] theorem raise_root : (c.raise x step).root = c.root := by unfold raise; split <;> rfl
@[simp] theorem raise_nodes : (c.raise x step).nodes = c.nodes := by unfold raise; split <;> rfl
@[simp] theorem raise_linkSet : (c.raise x step).linkSet = c.linkSet := by
  unfold raise; split <;> rfl
@[simp] theorem raise_uppers : (c.raise x step).uppers = c.uppers := by unfold raise; split <;> rfl
@[simp] theorem raise_alreadyCommit : (c.raise x step).alreadyCommit = c.alreadyCommit := by
  unfold raise; split <;> rfl

theorem raise_maxStep (z : κ) :
    (c.raise x step).maxStep z = if z = x then max step (c.maxStep x) else c.maxStep z := by
  unfold raise
  split
  · next h =>
    simp only [Function.update_apply]
    split
    · omega
    · rfl
  · next h =>
    split
    · next heq =>
      subst heq
      omega
    · rfl

theorem mem_raise {e : ℕ × κ} :
    e ∈ (c.raise x step).maxSteps ↔ e ∈ c.maxSteps ∨ (e = (step, x) ∧ c.maxStep x < step) := by
  unfold raise
  split
  · next h => simp [h, or_comm]
  · next h => simp [show ¬ c.maxStep x < step from h]

end

/-! ### `check_ring` -/

/-- What `check_ring` returns from, it has searched. -/
theorem not_reaches_of_checkRing {links : κ → List κ} {x : κ} :
    ∀ (fuel : ℕ) (y : κ), checkRing links x fuel y = some false →
    ¬ Reaches links y x
  | 0, _, h => nomatch h
  | fuel + 1, y, h => by
    unfold checkRing at h
    split at h
    · cases h
    · next hne =>
      have hall : ∀ next ∈ links y, checkRing links x fuel next = some false := by
        clear hne
        generalize links y = nexts at h
        induction nexts with
        | nil => nofun
        | cons a rest ih =>
          simp only [List.foldr_cons] at h
          split at h
          · next ha =>
            intro next hnext
            rcases List.mem_cons.mp hnext with rfl | hmem
            · exact ha
            · exact ih h next hmem
          · next ha => exact absurd h ha
      intro hreach
      rcases Relation.ReflTransGen.cases_head hreach with heq | ⟨next, hlink, hrest⟩
      · exact hne heq.symm
      · exact not_reaches_of_checkRing fuel next (hall next hlink) hrest

/-- What a search comes to, other than nothing found, it comes to from one of the links. -/
theorem next_of_checkRing {links : κ → List κ} {x : κ} {fuel : ℕ} {y : κ} {found : Option Bool}
    (hne : x ≠ y) (hfound : found ≠ some false) (h : checkRing links x (fuel + 1) y = found) :
    ∃ next ∈ links y, checkRing links x fuel next = found := by
  unfold checkRing at h
  rw [if_neg hne] at h
  clear hne
  generalize links y = nexts at h
  induction nexts with
  | nil => exact absurd h.symm hfound
  | cons a rest ih =>
    simp only [List.foldr_cons] at h
    split at h
    · obtain ⟨next, hmem, hnext⟩ := ih h
      exact ⟨next, List.mem_cons_of_mem a hmem, hnext⟩
    · exact ⟨a, List.mem_cons_self, h⟩

/-- What `check_ring` throws for, it has found. -/
theorem reaches_of_checkRing {links : κ → List κ} {x : κ} :
    ∀ (fuel : ℕ) (y : κ), checkRing links x fuel y = some true →
    Reaches links y x
  | 0, _, h => nomatch h
  | fuel + 1, y, h => by
    by_cases heq : x = y
    · exact heq ▸ .refl
    · obtain ⟨next, hlink, hfound⟩ := next_of_checkRing heq (show some true ≠ some false by simp) h
      exact .head hlink (reaches_of_checkRing fuel next hfound)

/-- A search that is not finished has gone down a walk as long as its fuel. -/
theorem walk_of_checkRing {links : κ → List κ} {x : κ} :
    ∀ (fuel : ℕ) (y : κ), checkRing links x fuel y = none →
    ∃ walk, (y :: walk).IsChain (Linked links) ∧ walk.length = fuel
  | 0, y, _ => ⟨[], .singleton y, rfl⟩
  | fuel + 1, y, h => by
    have hne : x ≠ y := by
      intro heq
      rw [checkRing, if_pos heq] at h
      cases h
    obtain ⟨next, hlink, hnone⟩ := next_of_checkRing hne (show none ≠ some false by simp) h
    obtain ⟨walk, hwalk, hlen⟩ := walk_of_checkRing fuel next hnone
    exact ⟨next :: walk, .cons_cons hlink hwalk, by rw [List.length_cons, hlen]⟩

/-! ### What the dependency calls keep -/

/-- The graph has no cycle, `grap_` holds its consumers and they depend on each other or the
    disruptor; a consumer is recorded at its level, and never above it; each barrier was given what
    its consumer depends on. -/
structure Good (c : Configure κ) : Prop where
  acyclic : Acyclic c.linkSet
  sources : ∀ x y, Linked c.linkSet x y → x ∈ c.nodes
  targets : ∀ x y, Linked c.linkSet x y → y = c.root ∨ y ∈ c.nodes
  rootless : c.linkSet c.root = []
  linked : ∀ x ∈ c.nodes, c.Consumer x
  leveled : ∀ x, c.Consumer x ↔ 0 < c.maxStep x
  recorded : ∀ x, c.Consumer x → (c.maxStep x, x) ∈ c.maxSteps
  bounded : ∀ e ∈ c.maxSteps, c.Consumer e.2 ∧ e.1 ≤ c.maxStep e.2
  uppers : c.uppers = c.linkSet
  open_ : c.alreadyCommit = false

omit [DecidableEq κ] in
theorem start_good (root : κ) : (start root).Good where
  acyclic := fun _ h => by
    obtain ⟨_, -, hlink⟩ := Relation.TransGen.tail'_iff.mp h
    cases hlink
  sources := nofun
  targets := nofun
  rootless := rfl
  linked := nofun
  leveled := fun _ => ⟨fun h => absurd rfl h, nofun⟩
  recorded := fun _ h => absurd rfl h
  bounded := nofun
  uppers := rfl
  open_ := rfl

variable {c : Configure κ} {x y : κ}

/-- A pointer that has a node is not given another. -/
theorem touch_of_mem (h : x ∈ c.nodes) : c.touch x = c := if_pos h

/-- A link that closes no cycle is added, and its source is raised to a step that is recorded. -/
theorem Good.link (h : c.Good) {step : ℕ} (hx : x ≠ c.root) (hy : y = c.root ∨ y ∈ c.nodes)
    (hcycle : ¬ Reaches c.linkSet y x) (hstep : 0 < step) :
    ((((c.touch x).link x y).raise x step).addUpper x y).Good := by
  have hnodes : ∀ z, z ∈ ((((c.touch x).link x y).raise x step).addUpper x y).nodes ↔
      z ∈ c.nodes ∨ z = x := fun z => by
    simpa [addUpper, Configure.link] using mem_touch
  have hroot : ((((c.touch x).link x y).raise x step).addUpper x y).root = c.root := by
    simp [addUpper, Configure.link]
  have hlinkSet : ((((c.touch x).link x y).raise x step).addUpper x y).linkSet =
      add c.linkSet x y := by
    simp [addUpper, Configure.link]
  have hcons : ∀ z, ((((c.touch x).link x y).raise x step).addUpper x y).Consumer z ↔
      c.Consumer z ∨ z = x := by
    intro z
    unfold Consumer
    rw [hlinkSet, add, Function.update_apply]
    split
    · next heq => simp [heq]
    · next hne => simp [hne]
  have hlevel : ∀ z, ((((c.touch x).link x y).raise x step).addUpper x y).maxStep z =
      if z = x then max step (c.maxStep x) else c.maxStep z := by
    intro z
    simpa [addUpper, Configure.link] using raise_maxStep (c := (c.touch x).link x y) z
  have hentry : ∀ e, e ∈ ((((c.touch x).link x y).raise x step).addUpper x y).maxSteps ↔
      e ∈ c.maxSteps ∨ (e = (step, x) ∧ c.maxStep x < step) := by
    intro e
    simpa [addUpper, Configure.link] using mem_raise (c := (c.touch x).link x y)
  -- one goal for each field of `Good`, in their order
  refine ⟨?_, ?_, ?_, ?_, ?_, ?_, ?_, ?_, ?_, ?_⟩
  · rw [hlinkSet]
    exact h.acyclic.add hcycle
  · intro a b hab
    rw [hlinkSet, link_add] at hab
    rw [hnodes]
    rcases hab with hab | ⟨rfl, -⟩
    · exact .inl (h.sources a b hab)
    · exact .inr rfl
  · intro a b hab
    rw [hlinkSet, link_add] at hab
    rw [hroot, hnodes]
    rcases hab with hab | ⟨-, rfl⟩
    · exact (h.targets a b hab).imp id .inl
    · exact hy.imp id .inl
  · rw [hlinkSet, hroot]
    simpa [add, Function.update_apply, Ne.symm hx] using h.rootless
  · intro z hz
    rw [hcons]
    exact ((hnodes z).mp hz).imp (h.linked z) id
  · intro z
    rw [hcons, hlevel, h.leveled]
    split
    · next heq => simp only [heq, or_true, true_iff]; omega
    · next hne => simp [hne]
  · intro z hz
    rw [hlevel, hentry]
    split
    · next heq =>
      subst heq
      rcases Nat.lt_or_ge (c.maxStep z) step with hlt | hge
      · exact .inr ⟨by rw [Nat.max_eq_left hlt.le], hlt⟩
      · refine .inl ?_
        rw [Nat.max_eq_right hge]
        exact h.recorded z ((h.leveled z).mpr (hstep.trans_le hge))
    · next hne => exact .inl (h.recorded z (((hcons z).mp hz).resolve_right hne))
  · intro e he
    rw [hcons, hlevel]
    rcases (hentry e).mp he with hold | ⟨rfl, -⟩
    · obtain ⟨hz, hle⟩ := h.bounded e hold
      refine ⟨.inl hz, ?_⟩
      split
      · next heq =>
        rw [heq] at hle
        omega
      · exact hle
    · exact ⟨.inr rfl, by simp⟩
  · rw [hlinkSet]
    simp only [addUpper, raise_uppers, Configure.link, touch_uppers, h.uppers]
  · simpa [addUpper, Configure.link] using h.open_

/-- `check_ring` comes to an end. -/
theorem Good.checkRing_isSome (h : c.Good) (hy : y ∈ c.nodes) {fuel : ℕ}
    (hfuel : c.nodes.length + 2 ≤ fuel) :
    checkRing c.linkSet x fuel y ≠ none := by
  intro hnone
  obtain ⟨walk, hwalk, hlen⟩ := walk_of_checkRing _ y hnone
  have hmem : ∀ a ∈ y :: walk, a ∈ c.root :: c.nodes := by
    intro a ha
    rcases List.mem_cons.mp ha with rfl | ha
    · exact List.mem_cons_of_mem _ hy
    · have hall := (hwalk.imp fun _ _ => Relation.TransGen.single).pairwise
      obtain ⟨b, -, hb⟩ := Relation.TransGen.tail'_iff.mp ((List.pairwise_cons.mp hall).1 a ha)
      rcases h.targets b a hb with rfl | hnode
      · exact List.mem_cons_self
      · exact List.mem_cons_of_mem _ hnode
  have hle := h.acyclic.length_le hwalk hmem
  simp only [List.length_cons] at hle
  omega

/-- Where a dependency would close a cycle, its source has a node already. -/
theorem Good.mem_of_checkRing (h : c.Good) (hx : x ≠ c.root) (hy : y ∈ c.nodes) {fuel : ℕ}
    (hfuel : c.nodes.length + 2 ≤ fuel) (hring : checkRing c.linkSet x fuel y ≠ some false) :
    x ∈ c.nodes := by
  have hfound : checkRing c.linkSet x fuel y = some true := by
    cases hc : checkRing c.linkSet x fuel y with
    | none => exact absurd hc (h.checkRing_isSome hy hfuel)
    | some found =>
      cases found with
      | true => rfl
      | false => exact absurd hc hring
  rcases Relation.ReflTransGen.cases_tail (reaches_of_checkRing fuel y hfound) with rfl | ⟨z, -, hz⟩
  · exact hy
  · exact (h.targets z x hz).resolve_left hx

/-- A dependency call keeps the graph good; where it throws, the graph stays as it is. -/
theorem Good.xDependsY (h : c.Good) (x y : κ) : (c.xDependsY x y).1.Good := by
  unfold Configure.xDependsY
  split
  · exact h
  · next hx =>
    split
    · next hy =>
      subst hy
      simp only [touch_linkSet]
      split
      · next hdup =>
        rw [touch_of_mem (h.sources x _ hdup)]
        exact h
      · have hcycle : ¬ Reaches c.linkSet c.root x := by
          intro hreach
          rcases Relation.ReflTransGen.cases_head hreach with heq | ⟨next, hlink, -⟩
          · exact hx heq.symm
          · rw [Linked, h.rootless] at hlink
            cases hlink
        have hraise : (if (c.touch x).maxStep x = 0 then ((c.touch x).link x c.root).raise x 1
            else (c.touch x).link x c.root) = ((c.touch x).link x c.root).raise x 1 := by
          split
          · rfl
          · next hne =>
            have hlow : ¬ 1 > ((c.touch x).link x c.root).maxStep x := by
              simp only [Configure.link]
              omega
            rw [raise, if_neg hlow]
        rw [hraise]
        exact h.link hx (.inl rfl) hcycle Nat.one_pos
    · next hy =>
      split
      · exact h
      · next hnode =>
        have hnode := not_not.mp hnode
        split
        · exact h
        · simp only [touch_linkSet]
          split
          · next hring =>
            exact h.link hx (.inr hnode) (not_reaches_of_checkRing _ y hring) (Nat.succ_pos _)
          · next hring =>
            have hfuel : c.nodes.length + 2 ≤ (c.touch x).nodes.length + 2 := by
              unfold Configure.touch
              split <;> simp
            rw [touch_of_mem (h.mem_of_checkRing hx hnode hfuel hring)]
            exact h

theorem configured_good (root : κ) (calls : List (κ × κ)) : (configured root calls).Good := by
  have hall : ∀ (calls : List (κ × κ)) {c : Configure κ}, c.Good →
      (calls.foldl (fun c call => (c.xDependsY call.1 call.2).1) c).Good := by
    intro calls
    induction calls with
    | nil => exact fun h => h
    | cons call rest ih => exact fun h => ih (h.xDependsY call.1 call.2)
  exact hall calls (start_good root)

/-! ### What `commit` gates -/

/-- Some gated consumer is `x` or depends on it, directly or through others. -/
def Covers (c : Configure κ) (x : κ) : Prop := ∃ g ∈ c.uppers c.root, Reaches c.linkSet g x

/-- Every consumer that none depends on is on the highest level. -/
def SinksOnTop (c : Configure κ) : Prop :=
  ∀ x, c.Consumer x → (∀ z, ¬ Linked c.linkSet z x) → ∀ z, c.maxStep z ≤ c.maxStep x

/-- The producer waits for the consumers on the highest level. -/
theorem Good.mem_gated (h : c.Good) {c' : Configure κ} (hc : c.commit = (c', none)) (x : κ) :
    x ∈ c'.uppers c'.root ↔ c.Consumer x ∧ ∀ z, c.maxStep z ≤ c.maxStep x := by
  rw [commit, if_neg (by rw [h.open_]; nofun)] at hc
  split at hc
  · cases hc
  · next step htop =>
    cases hc
    obtain ⟨hmem, hmax⟩ := List.max?_eq_some_iff.mp htop
    have hgated : x ∈ Function.update c.uppers c.root
        (c.uppers c.root ++ (c.maxSteps.filter (fun e => e.1 = step)).map Prod.snd) c.root ↔
          (step, x) ∈ c.maxSteps := by
      rw [Function.update_self, h.uppers, h.rootless]
      simp
    simp only
    rw [hgated]
    have hlevel : ∀ z, c.maxStep z ≤ step := by
      intro z
      rcases Nat.eq_zero_or_pos (c.maxStep z) with hzero | hpos
      · omega
      · exact hmax _ (List.mem_map_of_mem (h.recorded z ((h.leveled z).mpr hpos)))
    constructor
    · intro hx
      obtain ⟨hcons, hle⟩ := h.bounded _ hx
      exact ⟨hcons, fun z => (hlevel z).trans hle⟩
    · rintro ⟨hcons, htop'⟩
      obtain ⟨e, he, rfl⟩ := List.mem_map.mp hmem
      obtain ⟨-, hle⟩ := h.bounded e he
      have heq : c.maxStep x = e.1 := by
        have hup := htop' e.2
        have hdown := hlevel x
        omega
      rw [← heq]
      exact h.recorded x hcons

/-- `commit` adds to what the producer waits for, and to nothing else. -/
theorem commit_links {c' : Configure κ} {e : Option LinkError} (hc : c.commit = (c', e)) :
    c'.linkSet = c.linkSet ∧ c'.root = c.root ∧ ∀ x, x ≠ c.root → c'.uppers x = c.uppers x := by
  unfold commit at hc
  split at hc
  · cases hc
    exact ⟨rfl, rfl, fun _ _ => rfl⟩
  · split at hc
    · cases hc
      exact ⟨rfl, rfl, fun _ _ => rfl⟩
    · cases hc
      exact ⟨rfl, rfl, fun x hx => Function.update_of_ne hx _ _⟩

omit [DecidableEq κ] in
/-- Every consumer depends on the disruptor, directly or through others. -/
theorem Good.rooted (h : c.Good) (hx : c.Consumer x) : Reaches c.linkSet x c.root := by
  obtain ⟨y, hy⟩ := List.exists_mem_of_ne_nil _ hx
  have hnodes : ∀ a b, Linked c.linkSet a b → b ∈ c.root :: c.nodes :=
    fun a b hab => List.mem_cons.mpr (h.targets a b hab)
  obtain ⟨s, hs, hreach, hsink⟩ :=
    h.acyclic.exists_sink hnodes x (List.mem_cons_of_mem _ (h.sources x y hy))
  rcases List.mem_cons.mp hs with rfl | hs
  · exact hreach
  · obtain ⟨z, hz⟩ := List.exists_mem_of_ne_nil _ (h.linked s hs)
    exact absurd hz (hsink z)

/-- The gated consumers cover the graph exactly when every consumer that none depends on is
    on the highest level. -/
theorem Good.covers_iff (h : c.Good) {c' : Configure κ} (hc : c.commit = (c', none)) :
    (∀ x, c'.Consumer x → c'.Covers x) ↔ c.SinksOnTop := by
  obtain ⟨hlinks, -, -⟩ := commit_links hc
  simp only [Consumer, Covers, hlinks]
  constructor
  · intro hcovers x hx hsink
    obtain ⟨g, hg, hreach⟩ := hcovers x hx
    rcases Relation.ReflTransGen.cases_tail hreach with rfl | ⟨z, -, hz⟩
    · exact ((h.mem_gated hc x).mp hg).2
    · exact absurd hz (hsink z)
  · intro htop x hx
    obtain ⟨y, hy⟩ := List.exists_mem_of_ne_nil _ hx
    obtain ⟨s, -, hreach, hsource⟩ := h.acyclic.exists_source h.sources x (h.sources x y hy)
    have hs : c.Consumer s := by
      rcases Relation.ReflTransGen.cases_head hreach with rfl | ⟨z, hz, -⟩
      · exact hx
      · exact List.ne_nil_of_mem hz
    exact ⟨s, (h.mem_gated hc s).mpr ⟨hs, htop s hs hsource⟩, hreach⟩

end Configure

end Matching.Ring
