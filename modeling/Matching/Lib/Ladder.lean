import Mathlib.Data.List.Basic
import Mathlib.Data.List.Nodup
import Mathlib.Data.List.Perm.Basic
import Mathlib.Data.List.Sort
import Mathlib.Order.Basic
import Mathlib.Order.Lattice
import Mathlib.Tactic.SplitIfs
import Mathlib.Tactic.Tauto

/-! Two-level ordered containers `map<key, ordered set of ids>`, the shape of a price ladder: the
    levels are sorted by an arbitrary comparator, the ids of one level ascend. `At b p i` is
    membership; `Tail b' b` says that `b'` is what a walk that consumes `b` from the front still has
    in front of it, and `succ_of_tail` that the iterator successor in the untouched `b` is the first
    position of the consumed rest. -/

namespace Matching

/-- A comparator that is a strict total order. -/
class StrictLt {κ : Type} (lt : κ → κ → Bool) : Prop where
  irrefl : ∀ a, lt a a = false
  trans : ∀ {a b c}, lt a b = true → lt b c = true → lt a c = true
  tri : ∀ {a b}, a ≠ b → lt a b = false → lt b a = true

abbrev Ladder (κ ι : Type) := List (κ × List ι)

namespace Ladder

variable {κ ι : Type} [DecidableEq κ] [LinearOrder ι]

/-- `i` is stored at key `p`. -/
def At (b : Ladder κ ι) (p : κ) (i : ι) : Prop := ∃ l ∈ b, l.1 = p ∧ i ∈ l.2

/-- All ids, best level first and ascending inside a level. -/
def ids (b : Ladder κ ι) : List ι := b.flatMap (·.2)

/-- `find`: the level stored under `p`. -/
def level? (p : κ) : Ladder κ ι → Option (List ι)
  | [] => none
  | l :: ls => if l.1 = p then some l.2 else level? p ls

/-- The position `(p, i)` is a live one. -/
def has (b : Ladder κ ι) (p : κ) (i : ι) : Bool := ((b.level? p).getD []).contains i

/-- Ordered insertion of an id into a level. -/
def addId (i : ι) : List ι → List ι
  | [] => [i]
  | j :: js => if i < j then i :: j :: js else if i = j then j :: js else j :: addId i js

/-- `book[p][i] = …`: the level is created when it is missing. -/
def insert (lt : κ → κ → Bool) (p : κ) (i : ι) : Ladder κ ι → Ladder κ ι
  | [] => [(p, [i])]
  | l :: ls =>
    if p = l.1 then (l.1, addId i l.2) :: ls
    else if lt p l.1 then (p, [i]) :: l :: ls else l :: insert lt p i ls

/-- Put the level `p` in front unless it is empty. -/
def consLevel (p : κ) (is : List ι) (b : Ladder κ ι) : Ladder κ ι :=
  match is with
  | [] => b
  | i :: js => (p, i :: js) :: b

/-- Erase `i` from the level `p`, and the level when it became empty. -/
def eraseAt (p : κ) (i : ι) : Ladder κ ι → Ladder κ ι
  | [] => []
  | l :: ls => if l.1 = p then consLevel l.1 (l.2.erase i) ls else l :: eraseAt p i ls

/-- `begin()` of the nested maps: the inner `none` is `end()`, the outer one
    an empty first level. -/
def first : Ladder κ ι → Option (Option (κ × ι))
  | [] => some none
  | (_, []) :: _ => none
  | (p, i :: _) :: _ => some (some (p, i))

/-- The position after `(p, i)`; the outer `none` says that `(p, i)` is not a live position. -/
def succ (p : κ) (i : ι) : Ladder κ ι → Option (Option (κ × ι))
  | [] => none
  | l :: ls =>
    if l.1 = p then
      match l.2.dropWhile (· ≠ i) with
      | [] => none
      | [_] => first ls
      | _ :: j :: _ => some (some (p, j))
    else succ p i ls

/-- The ladder without its first id. -/
def pop : Ladder κ ι → Ladder κ ι
  | [] => []
  | (p, is) :: ls => consLevel p is.tail ls

/-- The ladder without the ids in `gone` and without the levels that became empty. -/
def without (gone : List ι) : Ladder κ ι → Ladder κ ι
  | [] => []
  | l :: ls => consLevel l.1 (l.2.filter (· ∉ gone)) (without gone ls)

/-- Sorted levels, none of them empty, each with ascending ids. -/
structure WF (lt : κ → κ → Bool) (b : Ladder κ ι) : Prop where
  keys : b.Pairwise (fun x y => lt x.1 y.1 = true)
  full : ∀ l ∈ b, l.2 ≠ []
  asc : ∀ l ∈ b, l.2.Pairwise (· < ·)

/-! ### Membership -/

section
omit [DecidableEq κ] [LinearOrder ι]

@[simp] theorem at_nil (p : κ) (i : ι) : At ([] : Ladder κ ι) p i ↔ False := by simp [At]

@[simp] theorem at_cons (l : κ × List ι) (b : Ladder κ ι) (p : κ) (i : ι) :
    At (l :: b) p i ↔ (l.1 = p ∧ i ∈ l.2) ∨ At b p i := by simp [At]

theorem mem_ids {b : Ladder κ ι} {i : ι} : i ∈ b.ids ↔ ∃ p, At b p i := by
  simp only [ids, List.mem_flatMap, At]
  constructor
  · rintro ⟨l, hl, hi⟩; exact ⟨l.1, l, hl, rfl, hi⟩
  · rintro ⟨_, l, hl, _, hi⟩; exact ⟨l, hl, hi⟩

theorem At.mem_ids {b : Ladder κ ι} {p : κ} {i : ι} (h : At b p i) : i ∈ b.ids :=
  Ladder.mem_ids.mpr ⟨p, h⟩

@[simp] theorem at_consLevel (p q : κ) (is : List ι) (j : ι) (b : Ladder κ ι) :
    At (consLevel p is b) q j ↔ (p = q ∧ j ∈ is) ∨ At b q j := by
  cases is <;> simp [consLevel]

@[simp] theorem ids_consLevel (p : κ) (is : List ι) (b : Ladder κ ι) :
    (consLevel p is b).ids = is ++ b.ids := by
  cases is <;> simp [consLevel, ids]

@[simp] theorem ids_nil : ids ([] : Ladder κ ι) = [] := rfl

@[simp] theorem ids_cons (l : κ × List ι) (b : Ladder κ ι) : ids (l :: b) = l.2 ++ b.ids := rfl

end

omit [DecidableEq κ] in
theorem wf_nil (lt : κ → κ → Bool) : WF lt ([] : Ladder κ ι) :=
  ⟨List.Pairwise.nil, by simp, by simp⟩

section
variable {lt : κ → κ → Bool}

section
omit [DecidableEq κ]

theorem WF.tail {l : κ × List ι} {b : Ladder κ ι} (h : WF lt (l :: b)) : WF lt b :=
  ⟨(List.pairwise_cons.mp h.keys).2, fun x hx => h.full x (List.mem_cons_of_mem _ hx),
    fun x hx => h.asc x (List.mem_cons_of_mem _ hx)⟩

theorem WF.sublist {b b' : Ladder κ ι} (h : WF lt b) (hs : List.Sublist b' b) : WF lt b' :=
  ⟨h.keys.sublist hs, fun x hx => h.full x (hs.subset hx), fun x hx => h.asc x (hs.subset hx)⟩

theorem WF.cons {p : κ} {is : List ι} {b : Ladder κ ι} (h : WF lt b) (hp : ∀ l ∈ b, lt p l.1 = true)
    (hne : is ≠ []) (hs : is.Pairwise (· < ·)) : WF lt ((p, is) :: b) := by
  refine ⟨List.pairwise_cons.mpr ⟨hp, h.keys⟩, fun x hx => ?_, fun x hx => ?_⟩
  · rcases List.mem_cons.mp hx with rfl | hx
    · exact hne
    · exact h.full x hx
  · rcases List.mem_cons.mp hx with rfl | hx
    · exact hs
    · exact h.asc x hx

/-- The keys of a well-formed ladder come after the key of its first level. -/
theorem WF.lt_of_at {l : κ × List ι} {b : Ladder κ ι} (h : WF lt (l :: b)) {p : κ} {i : ι}
    (hat : At b p i) : lt l.1 p = true := by
  obtain ⟨x, hx, rfl, _⟩ := hat
  exact (List.pairwise_cons.mp h.keys).1 x hx

theorem WF.consLevel {p : κ} {is : List ι} {b : Ladder κ ι} (h : WF lt b)
    (hp : ∀ l ∈ b, lt p l.1 = true) (hs : is.Pairwise (· < ·)) : WF lt (consLevel p is b) := by
  cases is with
  | nil => exact h
  | cons i js => exact h.cons hp (by simp) hs

theorem WF.ne_key [StrictLt lt] {l : κ × List ι} {b : Ladder κ ι} (h : WF lt (l :: b)) :
    ∀ x ∈ b, x.1 ≠ l.1 := by
  intro x hx he
  have hlt : lt l.1 l.1 = true := he ▸ (List.pairwise_cons.mp h.keys).1 x hx
  have hirr : lt l.1 l.1 = false := StrictLt.irrefl l.1
  exact Bool.false_ne_true (hirr.symm.trans hlt)

end

omit [LinearOrder ι] in
theorem mem_of_level? {p : κ} {is : List ι} : ∀ {b : Ladder κ ι}, b.level? p = some is → (p, is) ∈ b
  | [], h => by simp [level?] at h
  | l :: ls, h => by
    simp only [level?] at h
    split_ifs at h with hp
    · obtain rfl := Option.some.inj h
      exact hp ▸ List.mem_cons_self ..
    · exact List.mem_cons_of_mem _ (mem_of_level? h)

theorem level?_of_mem [StrictLt lt] {p : κ} {is : List ι} :
    ∀ {b : Ladder κ ι}, WF lt b → (p, is) ∈ b → b.level? p = some is
  | l :: ls, hwf, hmem => by
    rcases List.mem_cons.mp hmem with rfl | hmem
    · simp [level?]
    · have hne : l.1 ≠ p := fun he => hwf.ne_key _ hmem he.symm
      simp only [level?, if_neg hne]
      exact level?_of_mem hwf.tail hmem

theorem level?_of_at [StrictLt lt] {b : Ladder κ ι} (hwf : WF lt b) {p : κ} {i : ι} (h : At b p i) :
    ∃ is, b.level? p = some is ∧ i ∈ is := by
  obtain ⟨l, hl, rfl, hi⟩ := h
  exact ⟨l.2, level?_of_mem hwf hl, hi⟩

/-- What is behind everything else at its key stands last in the level. -/
theorem level?_last [StrictLt lt] {b : Ladder κ ι} (hwf : WF lt b) {p : κ} {i : ι} (h : At b p i)
    (hlast : ∀ j, At b p j → j ≤ i) : ∃ is, b.level? p = some (is ++ [i]) := by
  obtain ⟨l, hl, rfl, hi⟩ := h
  obtain ⟨pre, post, hsplit⟩ := List.append_of_mem hi
  rcases post with _ | ⟨j, js⟩
  · exact ⟨pre, by rw [level?_of_mem hwf hl, hsplit]⟩
  · have hasc := hwf.asc l hl
    rw [hsplit] at hasc
    have hlt : i < j :=
      List.rel_of_pairwise_cons (List.pairwise_append.mp hasc).2.1 List.mem_cons_self
    have hle : j ≤ i := hlast j ⟨l, hl, rfl, by rw [hsplit]; simp⟩
    exact absurd hlt (not_lt.mpr hle)

theorem at_of_has {b : Ladder κ ι} {p : κ} {i : ι} (h : b.has p i = true) : At b p i := by
  unfold has at h
  cases hl : b.level? p with
  | none => simp [hl] at h
  | some is => exact ⟨(p, is), mem_of_level? hl, rfl, by simpa [hl] using h⟩

theorem has_iff [StrictLt lt] {b : Ladder κ ι} (hwf : WF lt b) {p : κ} {i : ι} :
    b.has p i = true ↔ At b p i := by
  refine ⟨at_of_has, fun h => ?_⟩
  obtain ⟨is, his, hi⟩ := level?_of_at hwf h
  simpa [has, his] using hi

/-! ### Insertion -/

theorem mem_addId {i j : ι} : ∀ {is : List ι}, j ∈ addId i is ↔ j = i ∨ j ∈ is
  | [] => by simp [addId]
  | k :: ks => by
    have ih : j ∈ addId i ks ↔ j = i ∨ j ∈ ks := mem_addId
    simp only [addId]
    split_ifs with h1 h2
    · simp
    · subst h2; simp
    · simp only [List.mem_cons, ih]; tauto

theorem addId_ne_nil (i : ι) (is : List ι) : addId i is ≠ [] :=
  List.ne_nil_of_mem (mem_addId.mpr (Or.inl rfl : i = i ∨ i ∈ is))

theorem asc_addId (i : ι) : ∀ {is : List ι}, is.Pairwise (· < ·) → (addId i is).Pairwise (· < ·)
  | [], _ => by simp [addId]
  | k :: ks, h => by
    obtain ⟨hk, hks⟩ := List.pairwise_cons.mp h
    simp only [addId]
    split_ifs with h1 h2
    · refine List.pairwise_cons.mpr ⟨fun j hj => ?_, h⟩
      rcases List.mem_cons.mp hj with rfl | hj
      · exact h1
      · exact h1.trans (hk j hj)
    · exact h
    · refine List.pairwise_cons.mpr ⟨fun j hj => ?_, asc_addId i hks⟩
      rcases mem_addId.mp hj with rfl | hj
      · exact lt_of_le_of_ne (not_lt.mp h1) (Ne.symm h2)
      · exact hk j hj

theorem at_insert (p q : κ) (i j : ι) : ∀ b : Ladder κ ι,
    At (insert lt p i b) q j ↔ (q = p ∧ j = i) ∨ At b q j
  | [] => by simp [insert, eq_comm]
  | l :: ls => by
    have ih := at_insert p q i j ls
    simp only [insert]
    split_ifs with h1 h2
    · simp only [at_cons, mem_addId, h1]
      constructor
      · rintro (⟨rfl, rfl | h⟩ | h)
        · exact Or.inl ⟨rfl, rfl⟩
        · exact Or.inr (Or.inl ⟨rfl, h⟩)
        · exact Or.inr (Or.inr h)
      · rintro (⟨rfl, rfl⟩ | ⟨rfl, h⟩ | h)
        · exact Or.inl ⟨rfl, Or.inl rfl⟩
        · exact Or.inl ⟨rfl, Or.inr h⟩
        · exact Or.inr h
    · simp [eq_comm]
    · simp only [at_cons, ih]; tauto

theorem mem_ids_insert {p : κ} {i j : ι} {b : Ladder κ ι} :
    j ∈ (insert lt p i b).ids ↔ j = i ∨ j ∈ b.ids := by
  simp only [mem_ids, at_insert]
  constructor
  · rintro ⟨q, ⟨_, h⟩ | h⟩
    · exact Or.inl h
    · exact Or.inr ⟨q, h⟩
  · rintro (h | ⟨q, h⟩)
    · exact ⟨p, Or.inl ⟨rfl, h⟩⟩
    · exact ⟨q, Or.inr h⟩

theorem wf_insert [StrictLt lt] (p : κ) (i : ι) :
    ∀ {b : Ladder κ ι}, WF lt b → WF lt (insert lt p i b)
  | [], _ => (wf_nil lt).cons (by simp) (by simp) (by simp)
  | l :: ls, h => by
    have hls := (List.pairwise_cons.mp h.keys).1
    simp only [insert]
    split_ifs with h1 h2
    · exact h.tail.cons hls (addId_ne_nil i l.2) (asc_addId i (h.asc l (List.mem_cons_self ..)))
    · refine h.cons (fun x hx => ?_) (by simp) (by simp)
      rcases List.mem_cons.mp hx with rfl | hx
      · exact h2
      · exact StrictLt.trans h2 (hls x hx)
    · have hlp : lt l.1 p = true := StrictLt.tri h1 (by simpa using h2)
      refine (wf_insert p i h.tail).cons (fun x hx => ?_) (h.full l (List.mem_cons_self ..))
        (h.asc l (List.mem_cons_self ..))
      obtain ⟨y, hy⟩ := List.exists_mem_of_ne_nil _ ((wf_insert p i h.tail).full x hx)
      rcases (at_insert p x.1 i y ls).mp ⟨x, hx, rfl, hy⟩ with ⟨he, _⟩ | hat
      · exact he ▸ hlp
      · exact h.lt_of_at hat

/-! ### Erasure -/

theorem eraseAt_sublist (p : κ) (i : ι) : ∀ b : Ladder κ ι, (eraseAt p i b).ids.Sublist b.ids
  | [] => List.Sublist.refl _
  | l :: ls => by
    simp only [eraseAt]
    split_ifs with h1
    · rw [ids_consLevel]
      exact List.Sublist.append_right List.erase_sublist _
    · exact List.Sublist.append_left (eraseAt_sublist p i ls) _

theorem mem_eraseAt {p : κ} {i : ι} : ∀ {b : Ladder κ ι} {x : κ × List ι}, x ∈ eraseAt p i b →
    ∃ y ∈ b, y.1 = x.1
  | [], x, h => by simp [eraseAt] at h
  | l :: ls, x, h => by
    simp only [eraseAt] at h
    split_ifs at h with h1
    · cases he : l.2.erase i with
      | nil => exact ⟨x, List.mem_cons_of_mem _ (by simpa [consLevel, he] using h), rfl⟩
      | cons j js =>
        rcases List.mem_cons.mp (by simpa [consLevel, he] using h) with rfl | h
        · exact ⟨l, List.mem_cons_self .., rfl⟩
        · exact ⟨x, List.mem_cons_of_mem _ h, rfl⟩
    · rcases List.mem_cons.mp h with rfl | h
      · exact ⟨x, List.mem_cons_self .., rfl⟩
      · obtain ⟨y, hy, he⟩ := mem_eraseAt h
        exact ⟨y, List.mem_cons_of_mem _ hy, he⟩

theorem wf_eraseAt (p : κ) (i : ι) : ∀ {b : Ladder κ ι}, WF lt b → WF lt (eraseAt p i b)
  | [], h => h
  | l :: ls, h => by
    have hls := (List.pairwise_cons.mp h.keys).1
    have hasc := h.asc l (List.mem_cons_self ..)
    simp only [eraseAt]
    split_ifs with h1
    · exact h.tail.consLevel hls (hasc.sublist List.erase_sublist)
    · refine (wf_eraseAt p i h.tail).cons (fun x hx => ?_) (h.full l (List.mem_cons_self ..)) hasc
      obtain ⟨y, hy, he⟩ := mem_eraseAt hx
      exact he ▸ hls y hy

theorem at_eraseAt [StrictLt lt] {p q : κ} {i j : ι} : ∀ {b : Ladder κ ι}, WF lt b →
    (At (eraseAt p i b) q j ↔ At b q j ∧ ¬(q = p ∧ j = i))
  | [], _ => by simp [eraseAt]
  | l :: ls, h => by
    have ih := at_eraseAt (p := p) (q := q) (i := i) (j := j) h.tail
    have hnd : l.2.Nodup := (h.asc l (List.mem_cons_self ..)).imp (fun hab => ne_of_lt hab)
    have hkey : ∀ {q}, At ls q j → q ≠ l.1 := by
      rintro q ⟨x, hx, rfl, _⟩; exact h.ne_key x hx
    simp only [eraseAt]
    split_ifs with h1
    · simp only [at_consLevel, at_cons, hnd.mem_erase_iff]
      constructor
      · rintro (⟨rfl, hne, hj⟩ | hat)
        · exact ⟨Or.inl ⟨rfl, hj⟩, fun he => hne he.2⟩
        · exact ⟨Or.inr hat, fun he => hkey hat (he.1.trans h1.symm)⟩
      · rintro ⟨⟨rfl, hj⟩ | hat, hne⟩
        · exact Or.inl ⟨rfl, fun he => hne ⟨h1, he⟩, hj⟩
        · exact Or.inr hat
    · simp only [at_cons, ih]
      constructor
      · rintro (⟨rfl, hj⟩ | ⟨hat, hne⟩)
        · exact ⟨Or.inl ⟨rfl, hj⟩, fun he => h1 he.1⟩
        · exact ⟨Or.inr hat, hne⟩
      · rintro ⟨⟨rfl, hj⟩ | hat, hne⟩
        · exact Or.inl ⟨rfl, hj⟩
        · exact Or.inr ⟨hat, hne⟩

theorem erase_addId {i : ι} : ∀ {is : List ι}, i ∉ is → (addId i is).erase i = is
  | [], _ => by simp [addId]
  | k :: ks, h => by
    simp only [List.mem_cons, not_or] at h
    simp only [addId, if_neg h.1]
    split_ifs with h1
    · exact List.erase_cons_head ..
    · rw [List.erase_cons_tail (by simpa using Ne.symm h.1), erase_addId h.2]

/-- What was put in is there. -/
theorem level?_insert (p : κ) (i : ι) : ∀ b : Ladder κ ι, ∃ is, level? p (insert lt p i b) = some is
  | [] => ⟨[i], by simp [insert, level?]⟩
  | l :: ls => by
    simp only [insert]
    split_ifs with h1 h2
    · exact ⟨_, by rw [level?, if_pos h1.symm]⟩
    · exact ⟨_, by rw [level?, if_pos rfl]⟩
    · obtain ⟨is, his⟩ := level?_insert p i ls
      exact ⟨is, by rw [level?, if_neg (Ne.symm h1), his]⟩

/-- Erasing a new id right after its insertion gives the ladder back, whatever its level
    and the neighbours are. -/
theorem eraseAt_insert (p : κ) {i : ι} :
    ∀ {b : Ladder κ ι}, (∀ l ∈ b, l.2 ≠ []) → i ∉ b.ids → eraseAt p i (insert lt p i b) = b
  | [], _, _ => by simp [insert, eraseAt, consLevel]
  | l :: ls, hfull, hi => by
    rw [ids_cons, List.mem_append, not_or] at hi
    simp only [insert]
    split_ifs with h1 h2
    · obtain ⟨j, js, hl⟩ := List.exists_cons_of_ne_nil (hfull l List.mem_cons_self)
      rw [eraseAt, if_pos h1.symm, erase_addId hi.1, hl, consLevel, ← hl]
    · rw [eraseAt, if_pos rfl, List.erase_cons_head, consLevel]
    · rw [eraseAt, if_neg (Ne.symm h1),
        eraseAt_insert p (fun x hx => hfull x (List.mem_cons_of_mem _ hx)) hi.2]

/-! ### Walking from the front -/

@[simp] theorem eraseAt_head (p : κ) (i : ι) (is : List ι) (b : Ladder κ ι) :
    eraseAt p i ((p, i :: is) :: b) = pop ((p, i :: is) :: b) := by
  simp [eraseAt, pop]

omit [DecidableEq κ] [LinearOrder ι] in
theorem ids_pop : ∀ b : Ladder κ ι, (∀ l ∈ b, l.2 ≠ []) → b.pop.ids = b.ids.tail
  | [], _ => rfl
  | (p, is) :: ls, h => by
    obtain ⟨i, js, rfl⟩ := List.exists_cons_of_ne_nil (h (p, is) (List.mem_cons_self ..))
    simp [pop]

omit [DecidableEq κ] in
theorem wf_pop {b : Ladder κ ι} (h : WF lt b) : WF lt b.pop := by
  cases b with
  | nil => exact h
  | cons l ls =>
    exact h.tail.consLevel (List.pairwise_cons.mp h.keys).1
      ((h.asc _ (List.mem_cons_self ..)).sublist (List.tail_sublist _))

/-- `b'` is what is left of `b` once some ids were consumed from the front. -/
inductive Tail : Ladder κ ι → Ladder κ ι → Prop
  | nil (b : Ladder κ ι) : Tail [] b
  | level (pre : Ladder κ ι) (p : κ) (gone is : List ι) (rest : Ladder κ ι) :
      Tail ((p, is) :: rest) (pre ++ (p, gone ++ is) :: rest)

section
omit [DecidableEq κ] [LinearOrder ι]

theorem Tail.refl (b : Ladder κ ι) : Tail b b := by
  cases b with
  | nil => exact Tail.nil _
  | cons l ls => simpa using Tail.level [] l.1 [] l.2 ls

theorem tail_rest (pre : Ladder κ ι) (l : κ × List ι) (rest : Ladder κ ι) :
    Tail rest (pre ++ l :: rest) := by
  cases rest with
  | nil => exact Tail.nil _
  | cons x xs => simpa using Tail.level (pre ++ [l]) x.1 [] x.2 xs

theorem Tail.pop {b' b : Ladder κ ι} (h : Tail b' b) : Tail b'.pop b := by
  cases h with
  | nil => exact Tail.nil _
  | level pre p gone is rest =>
    rcases is with _ | ⟨i, _ | ⟨j, js⟩⟩
    · exact tail_rest pre _ rest
    · exact tail_rest pre _ rest
    · simpa [Ladder.pop, consLevel] using Tail.level pre p (gone ++ [i]) (j :: js) rest

theorem Tail.at {b' b : Ladder κ ι} (h : Tail b' b) {p : κ} {i : ι} (hat : At b' p i) :
    At b p i := by
  cases h with
  | nil => simp at hat
  | level pre q gone is rest =>
    rcases (at_cons ..).mp hat with ⟨rfl, hi⟩ | ⟨l, hl, hp, hi⟩
    · exact ⟨(q, gone ++ is), by simp, rfl, List.mem_append_right _ hi⟩
    · exact ⟨l, List.mem_append_right _ (List.mem_cons_of_mem _ hl), hp, hi⟩

end

theorem succ_append [StrictLt lt] {p : κ} {i : ι} {l : List ι} {b : Ladder κ ι} :
    ∀ {pre : Ladder κ ι}, WF lt (pre ++ (p, l) :: b) →
      succ p i (pre ++ (p, l) :: b) = succ p i ((p, l) :: b)
  | [], _ => rfl
  | x :: xs, h => by
    have hne : x.1 ≠ p := fun he => h.ne_key (p, l) (by simp) he.symm
    have hx : WF lt (xs ++ (p, l) :: b) := h.tail
    calc succ p i (x :: xs ++ (p, l) :: b) = succ p i (xs ++ (p, l) :: b) := by
          rw [List.cons_append, succ, if_neg hne]
      _ = succ p i ((p, l) :: b) := succ_append hx

theorem dropWhile_append_self {i : ι} {is : List ι} : ∀ {gone : List ι}, i ∉ gone →
    (gone ++ i :: is).dropWhile (· ≠ i) = i :: is
  | [], _ => by simp
  | j :: js, h => by
    simp only [List.mem_cons, not_or] at h
    have hji : j ≠ i := Ne.symm h.1
    simp only [List.cons_append, List.dropWhile_cons, ne_eq, hji, not_false_eq_true, decide_true,
      if_true]
    exact dropWhile_append_self h.2

/-- Stepping an iterator over the untouched ladder is consuming the front of the rest. -/
theorem succ_of_tail [StrictLt lt] {b : Ladder κ ι} (hwf : WF lt b) {p : κ} {i : ι} {is : List ι}
    {rest : Ladder κ ι} (h : Tail ((p, i :: is) :: rest) b) :
    succ p i b = first (pop ((p, i :: is) :: rest)) := by
  cases h with
  | level pre _ gone _ _ =>
    have hwf' : WF lt ((p, gone ++ i :: is) :: rest) := hwf.sublist (List.sublist_append_right _ _)
    have hasc : (gone ++ i :: is).Pairwise (· < ·) := hwf'.asc _ (List.mem_cons_self ..)
    have hi : i ∉ gone := fun hmem =>
      absurd ((List.pairwise_append.mp hasc).2.2 i hmem i (List.mem_cons_self ..)) (lt_irrefl _)
    rw [succ_append hwf]
    simp only [succ, if_true, dropWhile_append_self hi, pop, List.tail_cons]
    cases is with
    | nil => simp [consLevel]
    | cons j js => simp [consLevel, first]

section
omit [DecidableEq κ]

theorem without_nil : ∀ {b : Ladder κ ι}, (∀ l ∈ b, l.2 ≠ []) → without [] b = b
  | [], _ => rfl
  | (p, is) :: ls, h => by
    obtain ⟨i, js, rfl⟩ := List.exists_cons_of_ne_nil (h _ (List.mem_cons_self ..))
    rw [without, without_nil (fun l hl => h l (List.mem_cons_of_mem _ hl))]
    simp [consLevel]

theorem without_consLevel (gone : List ι) (p : κ) (is : List ι) (b : Ladder κ ι) :
    without gone (consLevel p is b) = consLevel p (is.filter (· ∉ gone)) (without gone b) := by
  cases is <;> rfl

/-- Leaving out an id that is not there changes nothing. -/
theorem without_cons_of_notMem {i : ι} (gone : List ι) : ∀ {b : Ladder κ ι}, i ∉ b.ids →
    without (i :: gone) b = without gone b
  | [], _ => rfl
  | l :: ls, h => by
    rw [ids_cons, List.mem_append, not_or] at h
    have hfilter : l.2.filter (· ∉ i :: gone) = l.2.filter (· ∉ gone) := by
      refine List.filter_congr (fun j hj => ?_)
      have hne : j ≠ i := fun he => h.1 (he ▸ hj)
      simp [hne]
    rw [without, without, hfilter, without_cons_of_notMem gone h.2]

/-- Leaving out the front id first. -/
theorem without_cons_front {p : κ} {i : ι} {is : List ι} {b : Ladder κ ι} (gone : List ι)
    (h : i ∉ (ids ((p, i :: is) :: b)).tail) :
    without (i :: gone) ((p, i :: is) :: b) = without gone (pop ((p, i :: is) :: b)) := by
  simp only [ids_cons, List.cons_append, List.tail_cons] at h
  have his : without (i :: gone) ((p, is) :: b) = without gone ((p, is) :: b) :=
    without_cons_of_notMem gone (by simpa using h)
  simp only [without] at his
  have hi : (i :: is).filter (· ∉ i :: gone) = is.filter (· ∉ i :: gone) := by simp
  rw [without, hi, his, pop, List.tail_cons, without_consLevel]

theorem at_without {gone : List ι} {p : κ} {j : ι} :
    ∀ {b : Ladder κ ι}, At (without gone b) p j ↔ At b p j ∧ j ∉ gone
  | [] => by simp [without]
  | l :: ls => by
    rw [without, at_consLevel, at_cons, at_without, List.mem_filter]
    simp only [decide_eq_true_eq]
    tauto

theorem mem_ids_without {gone : List ι} {j : ι} {b : Ladder κ ι} :
    j ∈ (without gone b).ids ↔ j ∈ b.ids ∧ j ∉ gone := by
  simp only [mem_ids, at_without, exists_and_right]

omit [LinearOrder ι] in
theorem at_filter {f : κ × List ι → Bool} {b : Ladder κ ι} {p : κ} {i : ι}
    (h : At (b.filter f) p i) : At b p i := by
  obtain ⟨l, hl, hp, hi⟩ := h
  exact ⟨l, (List.mem_filter.mp hl).1, hp, hi⟩

omit [LinearOrder ι] in
/-- The ids of a ladder are those of the levels that are picked out and of the rest. -/
theorem ids_filter_perm (f : κ × List ι → Bool) (b : Ladder κ ι) :
    (ids (b.filter f) ++ ids (b.filter (fun l => !f l))).Perm b.ids := by
  rw [ids, ids, ← List.flatMap_append]
  exact (List.filter_append_perm f b).flatMap_right _

/-- Where no id is on two levels the ids are distinct. -/
theorem ids_nodup [StrictLt lt] {b : Ladder κ ι} (hwf : WF lt b)
    (huniq : ∀ {p q i}, At b p i → At b q i → p = q) :
    b.ids.Nodup := by
  rw [ids, List.nodup_flatMap]
  refine ⟨fun l hl => (hwf.asc l hl).imp fun h => ne_of_lt h,
    hwf.keys.imp_of_mem fun {x y} hx hy hlt i hi hj => ?_⟩
  have hkey : x.1 = y.1 := huniq ⟨x, hx, rfl, hi⟩ ⟨y, hy, rfl, hj⟩
  rw [hkey] at hlt
  have hirr : lt y.1 y.1 = false := StrictLt.irrefl y.1
  exact Bool.false_ne_true (hirr.symm.trans hlt)

omit [LinearOrder ι] in
theorem at_of_first {p : κ} {i : ι} : ∀ {b : Ladder κ ι}, first b = some (some (p, i)) → At b p i
  | (q, j :: js) :: ls, h => by
    obtain ⟨rfl, rfl⟩ : q = p ∧ j = i := by simpa [first] using h
    exact (at_cons ..).mpr (Or.inl ⟨rfl, List.mem_cons_self⟩)

end

/-- An iterator that was stepped points to an entry of the ladder. -/
theorem at_of_succ {p q : κ} {i j : ι} :
    ∀ {b : Ladder κ ι}, succ p i b = some (some (q, j)) → At b q j
  | l :: ls, h => by
    rw [at_cons]
    simp only [succ] at h
    split at h
    · rename_i hl
      split at h
      · cases h
      · exact Or.inr (at_of_first h)
      · rename_i hdrop
        obtain ⟨hp, hj⟩ := Prod.mk.inj (Option.some.inj (Option.some.inj h))
        have hsub : j ∈ l.2.dropWhile (· ≠ i) := by rw [hdrop, hj]; simp
        exact Or.inl ⟨hl.trans hp, (List.dropWhile_sublist _).subset hsub⟩
    · exact Or.inr (at_of_succ h)

omit [DecidableEq κ] [LinearOrder ι] in
/-- Two halves of a ladder have its ids between them. -/
theorem length_ids_filter (f : κ × List ι → Bool) : ∀ b : Ladder κ ι,
    (ids (b.filter f)).length + (ids (b.filter (fun l => !f l))).length = b.ids.length
  | [] => rfl
  | l :: ls => by
    have ih := length_ids_filter f ls
    rcases hl : f l with _ | _ <;> simp [hl] <;> omega

/-- The ids of a level are those stored at its key. -/
theorem at_level [StrictLt lt] {b : Ladder κ ι} (hwf : WF lt b) {l : κ × List ι} (hl : l ∈ b)
    {i : ι} : At b l.1 i ↔ i ∈ l.2 := by
  refine ⟨fun h => ?_, fun hi => ⟨l, hl, rfl, hi⟩⟩
  obtain ⟨is, his, hi⟩ := level?_of_at hwf h
  obtain rfl := Option.some.inj (his.symm.trans (level?_of_mem hwf hl))
  exact hi

/-- A level of one of two ladders that store the same is a level of the other. -/
theorem level_of_same [StrictLt lt] {b b' : Ladder κ ι} (h : WF lt b) (h' : WF lt b')
    (hat : ∀ p i, At b p i ↔ At b' p i) {l : κ × List ι} (hl : l ∈ b) : l ∈ b' := by
  obtain ⟨i, hi⟩ := List.exists_mem_of_ne_nil _ (h.full l hl)
  obtain ⟨l', hl', hkey, -⟩ := (hat l.1 i).mp ⟨l, hl, rfl, hi⟩
  have hids : l'.2 = l.2 := (h'.asc l' hl').eq_of_mem_iff (h.asc l hl) fun j => by
    rw [← at_level h' hl', ← at_level h hl, hkey, hat]
  have heq : l' = l := Prod.ext hkey hids
  exact heq ▸ hl'

/-- A sorted ladder without empty levels is what it stores. -/
theorem WF.ext [StrictLt lt] {b b' : Ladder κ ι} (h : WF lt b) (h' : WF lt b')
    (hat : ∀ p i, At b p i ↔ At b' p i) : b = b' := by
  have hself : ∀ x : κ × List ι, lt x.1 x.1 = false := fun x => StrictLt.irrefl x.1
  have hirr : Std.Irrefl fun x y : κ × List ι => lt x.1 y.1 = true :=
    ⟨fun x hx => Bool.false_ne_true ((hself x).symm.trans hx)⟩
  have hanti : Std.Antisymm fun x y : κ × List ι => lt x.1 y.1 = true :=
    ⟨fun x y hxy hyx => absurd (StrictLt.trans hxy hyx)
      (by simp only [hself x, Bool.false_eq_true, not_false_eq_true])⟩
  refine h.keys.eq_of_mem_iff h'.keys fun l =>
    ⟨level_of_same h h' hat, level_of_same h' h fun p i => (hat p i).symm⟩

/-- The levels after an insertion are at the old keys and at the new one. -/
theorem mem_insert_key {p : κ} {i : ι} :
    ∀ {b : Ladder κ ι} {l : κ × List ι}, l ∈ insert lt p i b → l.1 = p ∨ ∃ x ∈ b, x.1 = l.1
  | [], l, hl => by
    obtain rfl := List.mem_singleton.mp hl
    exact .inl rfl
  | x :: b, l, hl => by
    simp only [insert] at hl
    split_ifs at hl
    · rcases List.mem_cons.mp hl with rfl | hl
      · exact .inr ⟨x, List.mem_cons_self, rfl⟩
      · exact .inr ⟨l, List.mem_cons_of_mem _ hl, rfl⟩
    · rcases List.mem_cons.mp hl with rfl | hl
      · exact .inl rfl
      · exact .inr ⟨l, hl, rfl⟩
    · rcases List.mem_cons.mp hl with rfl | hl
      · exact .inr ⟨l, List.mem_cons_self, rfl⟩
      · exact (mem_insert_key hl).imp id fun ⟨y, hy, he⟩ => ⟨y, List.mem_cons_of_mem _ hy, he⟩

/-- The first level is still there after an insertion, or a better one is before it. -/
theorem head_insert [StrictLt lt] (p : κ) (i : ι) :
    ∀ {b : Ladder κ ι} {y : κ × List ι}, b ≠ [] → y ∈ (insert lt p i b).head? →
    ∃ x ∈ b.head?, lt x.1 y.1 = false
  | [], _, hne, _ => absurd rfl hne
  | x :: b, y, _, hy => by
    refine ⟨x, rfl, ?_⟩
    simp only [insert] at hy
    split_ifs at hy with heq hlt
    · obtain rfl := Option.some.inj hy
      exact StrictLt.irrefl x.1
    · obtain rfl := Option.some.inj hy
      refine Bool.eq_false_iff.mpr fun hback => ?_
      have hself : lt x.1 x.1 = true := StrictLt.trans hback hlt
      exact Bool.false_ne_true ((StrictLt.irrefl x.1).symm.trans hself)
    · obtain rfl := Option.some.inj hy
      exact StrictLt.irrefl x.1

/-- The first price changes with an erasure only if it takes the one id of the first level. -/
theorem head_eraseAt {p : κ} {i : ι} {x y : κ × List ι} {b : Ladder κ ι}
    (hx : ¬(x.2.length = 1 ∧ p = x.1)) (hne : x.2 ≠ []) (hy : y ∈ (eraseAt p i (x :: b)).head?) :
    y.1 = x.1 := by
  simp only [eraseAt] at hy
  split_ifs at hy with heq
  · have hlong : 1 < x.2.length := by
      have hpos := List.length_pos_iff.mpr hne
      have hone : x.2.length ≠ 1 := fun h => hx ⟨h, heq.symm⟩
      omega
    have hleft : x.2.erase i ≠ [] := by
      intro hnil
      have hlen := @List.length_erase _ _ _ i x.2
      rw [hnil, List.length_nil] at hlen
      split_ifs at hlen <;> omega
    obtain ⟨j, js, hjs⟩ := List.exists_cons_of_ne_nil hleft
    rw [hjs] at hy
    obtain rfl := Option.some.inj hy
    rfl
  · obtain rfl := Option.some.inj hy
    rfl

end

end Ladder
end Matching
