import Mathlib.Algebra.BigOperators.Pi
import Mathlib.Algebra.Order.BigOperators.Group.Finset
import Mathlib.Tactic.Abel

namespace Count

open Finset

variable {ι α M : Type*} [DecidableEq ι] [AddCommMonoid M]

theorem sum_update_add (s : Finset ι) (g : ι → α → M) (f : ι → α) {i : ι} (hi : i ∈ s) (v : α) :
    (∑ x ∈ s, g x (Function.update f i v x)) + g i (f i) = (∑ x ∈ s, g x (f x)) + g i v := by
  have hrest : ∑ x ∈ s.erase i, g x (Function.update f i v x) = ∑ x ∈ s.erase i, g x (f x) := by
    apply sum_congr rfl
    intro x hx
    rw [Function.update_of_ne (ne_of_mem_erase hx)]
  rw [← add_sum_erase s (fun x => g x (Function.update f i v x)) hi,
    ← add_sum_erase s (fun x => g x (f x)) hi,Function.update_self,hrest]
  abel

theorem sum_add_of_ne [Fintype ι] {f g : ι → M} (i : ι) (h : ∀ j, j ≠ i → f j = g j) :
    ∑ j, f j + g i = ∑ j, g j + f i := by
  rw [← add_sum_erase _ f (mem_univ i),← add_sum_erase _ g (mem_univ i),
    sum_congr rfl fun j hj => h j (ne_of_mem_erase hj)]
  abel

def unit (i : ι) : ι → Nat := fun j => if j = i then 1 else 0

@[simp] theorem unit_self (i : ι) : unit i i = 1 := if_pos rfl

theorem unit_of_ne {i j : ι} (h : j ≠ i) : unit i j = 0 := if_neg h

theorem unit_le_one (i j : ι) : unit i j ≤ 1 := by
  simp only [unit]
  split <;> omega

end Count
