import Mathlib

/-!
# Counting over a changed family

* `sum_update_add`: what a sum over a family loses and gains when one member changes;
* `card_update`: how many members have a property, when one of them changes.
-/

namespace Counting

open Function

variable {ι α M : Type*} [Fintype ι] [DecidableEq ι] [AddCommMonoid M]

/-- One member of a family is changed. -/
theorem sum_update_add (g : α → M) (f : ι → α) (i : ι) (a : α) :
    ∑ j, g (update f i a j) + g (f i) = ∑ j, g (f j) + g a := by
  have hsum : ∑ j ∈ Finset.univ.erase i, g (update f i a j) =
      ∑ j ∈ Finset.univ.erase i, g (f j) :=
    Finset.sum_congr rfl fun j hj => by rw [update_of_ne (Finset.ne_of_mem_erase hj)]
  rw [← Finset.add_sum_erase _ _ (Finset.mem_univ i),
    ← Finset.add_sum_erase _ (fun j => g (f j)) (Finset.mem_univ i), update_self, hsum,
    add_right_comm, add_comm (g a), add_right_comm, add_comm (g (f i)), add_right_comm]

/-- The same for the number of members with a property. -/
theorem card_update (P : α → Prop) [DecidablePred P] (f : ι → α) (i : ι) (a : α) :
    (Finset.univ.filter fun j => P (update f i a j)).card + (if P (f i) then 1 else 0) =
      (Finset.univ.filter fun j => P (f j)).card + if P a then 1 else 0 := by
  simp only [Finset.card_filter]
  exact sum_update_add (fun a => if P a then 1 else 0) f i a

end Counting
