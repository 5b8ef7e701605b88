import Mathlib.Data.List.Perm.Basic

/-! Objects that are lent and given back: whatever does not wait to be lent, somebody holds.
    `Custody` says so of a list of all the objects; giving one back and lending one keep it,
    whichever end of the waiting objects is used. -/

namespace Matching

variable {α : Type} {all held waiting waiting' : List α} {x : α}

/-- The objects that are held and the objects that wait are all there are, each once. -/
structure Custody (all held waiting : List α) : Prop where
  nodup : all.Nodup
  perm : (held ++ waiting).Perm all

namespace Custody

/-- The order in which objects wait does not matter. -/
theorem congr (h : Custody all held waiting) (hp : waiting.Perm waiting') :
    Custody all held waiting' :=
  ⟨h.nodup, (hp.symm.append_left held).trans h.perm⟩

theorem nodup_append (h : Custody all held waiting) : (held ++ waiting).Nodup :=
  h.perm.nodup_iff.mpr h.nodup

theorem length_add (h : Custody all held waiting) : held.length + waiting.length = all.length := by
  rw [← List.length_append, h.perm.length_eq]

/-- Lending an object that waits. -/
theorem lend (h : Custody all held (x :: waiting)) : Custody all (held ++ [x]) waiting :=
  ⟨h.nodup, by rw [List.append_assoc]; exact h.perm⟩

/-- An object that waits is one of the objects, and nobody holds it. -/
theorem fresh (h : Custody all held waiting) (hx : x ∈ waiting) : x ∈ all ∧ x ∉ held := by
  refine ⟨h.perm.mem_iff.mp (List.mem_append_right held hx), ?_⟩
  intro hheld
  exact (List.nodup_append.mp h.nodup_append).2.2 x hheld x hx rfl

/-- While an object is held, not all of them wait. -/
theorem waiting_lt (h : Custody all held waiting) (hx : x ∈ held) :
    waiting.length < all.length := by
  have hlen := h.length_add
  have hpos := List.length_pos_of_mem hx
  omega

variable [BEq α] [LawfulBEq α]

/-- Giving back an object that is held. -/
theorem giveBack (h : Custody all held waiting) (hx : x ∈ held) :
    Custody all (held.erase x) (waiting ++ [x]) := by
  refine ⟨h.nodup, ?_⟩
  have hback : (held.erase x ++ (waiting ++ [x])).Perm (held ++ waiting) := calc
    (held.erase x ++ (waiting ++ [x])).Perm (held.erase x ++ (x :: waiting)) :=
      (List.perm_append_singleton x waiting).append_left _
    _ |>.Perm (x :: (held.erase x ++ waiting)) := List.perm_middle
    _ |>.Perm (held ++ waiting) := (List.perm_cons_erase hx).symm.append_right waiting
  exact hback.trans h.perm

/-- Giving back one object leaves the others held. -/
theorem still_held {y : α} (hy : y ∈ held) (hne : y ≠ x) : y ∈ held.erase x :=
  (List.mem_erase_of_ne hne).mpr hy

end Custody

end Matching
