import Mathlib.Data.List.Chain
import Mathlib.Data.List.Perm.Subperm
import Mathlib.Logic.Relation
import Mathlib.Tactic

/-!
# Relations without cycles

`Acyclic R` says that no element is reached from itself in one step of `R` or
more.  A relation that only goes down in some rank is acyclic, and so is every
relation inside an acyclic one.

A chain along an acyclic relation never repeats, so a chain whose elements lie
in a list is no longer than the list: a walk along the relation ends.
-/

variable {α : Type} {R S : α → α → Prop}

/-- No element is reached from itself. -/
def Acyclic (R : α → α → Prop) : Prop := ∀ x, ¬ Relation.TransGen R x x

theorem Acyclic.mono (h : Acyclic S) (hRS : ∀ x y, R x y → S x y) : Acyclic R := by
  intro x hx
  exact h x (Relation.TransGen.mono hRS x x hx)

/-- A step down in rank never comes back. -/
theorem Acyclic.of_rank (rank : α → ℕ) (h : ∀ x y, R x y → rank y < rank x) : Acyclic R := by
  have hdown : ∀ {x y}, Relation.TransGen R x y → rank y < rank x := by
    intro x y hxy
    induction hxy with
    | single hxy => exact h _ _ hxy
    | tail _ hyz ih => exact (h _ _ hyz).trans ih
  intro x hx
  exact (hdown hx).false

/-- A chain along an acyclic relation never repeats. -/
theorem Acyclic.nodup (h : Acyclic R) {l : List α} (hl : l.IsChain R) : l.Nodup := by
  have hlong : l.IsChain (Relation.TransGen R) := hl.imp fun _ _ => .single
  refine hlong.pairwise.imp fun {x y} hxy => ?_
  rintro rfl
  exact h x hxy

/-- A chain within a list is no longer than the list. -/
theorem Acyclic.length_le (h : Acyclic R) {l s : List α} (hl : l.IsChain R)
    (hs : ∀ x ∈ l, x ∈ s) : l.length ≤ s.length :=
  (List.subperm_of_subset (h.nodup hl) hs).length_le
