import Mathlib.Data.List.Basic

namespace Scan

open List
open Function (update update_of_ne update_self)

variable {ι τ : Type*} [DecidableEq ι] (test : τ → Bool) (f : τ → τ) (limit : Int)

def visit (a : (ι → τ) × Nat) (i : ι) : (ι → τ) × Nat :=
  if a.2 < limit ∧ test (a.1 i) = true then
    (update a.1 i (f (a.1 i)),a.2 + 1)
  else a

def upTo (l : List ι) (a : (ι → τ) × Nat) : (ι → τ) × Nat := l.foldl (visit test f limit) a

variable {test f limit} {l : List ι} {a : (ι → τ) × Nat} {i j : ι}

theorem visit_of_ne (h : j ≠ i) : (visit test f limit a i).1 j = a.1 j := by
  simp only [visit]
  split
  · exact update_of_ne h _ _
  · rfl

theorem upTo_of_notMem (h : j ∉ l) : (upTo test f limit l a).1 j = a.1 j := by
  induction l generalizing a with
  | nil => rfl
  | cons i l ih =>
    obtain ⟨hji,hjl⟩ := ne_and_not_mem_of_not_mem_cons h
    exact (ih hjl).trans (visit_of_ne hji)

theorem upTo_entry (hl : l.Nodup) (j : ι) : (upTo test f limit l a).1 j = a.1 j ∨
    test (a.1 j) = true ∧ (upTo test f limit l a).1 j = f (a.1 j) := by
  induction l generalizing a with
  | nil => exact .inl rfl
  | cons i l ih =>
    obtain ⟨hi,hl⟩ := nodup_cons.mp hl
    by_cases hj : j = i
    · subst hj
      have hrest : (upTo test f limit (j :: l) a).1 j = (visit test f limit a j).1 j :=
        upTo_of_notMem hi
      rw [hrest,visit]
      split
      · rename_i h
        exact .inr ⟨h.2,update_self _ _ _⟩
      · exact .inl rfl
    · have hsame : (visit test f limit a i).1 j = a.1 j := visit_of_ne hj
      have := ih (a := visit test f limit a i) hl
      rwa [hsame] at this

theorem upTo_all (hf : ∀ x, test (f x) = false) (hl : l.Nodup)
    (hlim : a.2 + ((l.filter fun i => test (a.1 i)).length : Int) ≤ limit) :
    ∀ j ∈ l, test ((upTo test f limit l a).1 j) = false := by
  induction l generalizing a with
  | nil => exact nofun
  | cons i l ih =>
    obtain ⟨hi,hl⟩ := nodup_cons.mp hl
    have hrest : l.filter (fun j => test ((visit test f limit a i).1 j)) =
        l.filter fun j => test (a.1 j) := by
      refine filter_congr fun j hj => ?_
      rw [visit_of_ne (ne_of_mem_of_not_mem hj hi)]
    have hself : (upTo test f limit (i :: l) a).1 i = (visit test f limit a i).1 i :=
      upTo_of_notMem hi
    cases htest : test (a.1 i) with
    | true =>
      rw [filter_cons,if_pos htest,length_cons] at hlim
      have hvisit : visit test f limit a i = (update a.1 i (f (a.1 i)),a.2 + 1) := by
        rw [visit,if_pos ⟨by omega,htest⟩]
      have htail := ih (a := visit test f limit a i) hl (by
        rw [hrest,hvisit]
        push_cast
        omega)
      intro j hj
      rcases mem_cons.mp hj with rfl | hj
      · rw [hself,hvisit]
        dsimp only
        rw [update_self]
        exact hf _
      · exact htail j hj
    | false =>
      rw [filter_cons,if_neg (by simp [htest])] at hlim
      have hvisit : visit test f limit a i = a := by
        rw [visit,if_neg (by simp [htest])]
      have htail := ih (a := visit test f limit a i) hl (by rw [hrest,hvisit]; exact hlim)
      intro j hj
      rcases mem_cons.mp hj with rfl | hj
      · rw [hself,hvisit]
        exact htest
      · exact htail j hj

theorem upTo_full (h : limit ≤ a.2) : upTo test f limit l a = a := by
  induction l with
  | nil => rfl
  | cons i l ih =>
    have hvisit : visit test f limit a i = a := by
      rw [visit,if_neg (by omega)]
    simp only [upTo,foldl_cons,hvisit] at ih ⊢
    exact ih

theorem upTo_one (task : ι → τ) : (∃ j ∈ l, test (task j) = true ∧
      upTo test f 1 l (task,0) = (update task j (f (task j)),1)) ∨
    (∀ j ∈ l, test (task j) = false) ∧ upTo test f 1 l (task,0) = (task,0) := by
  induction l with
  | nil => exact .inr ⟨nofun,rfl⟩
  | cons i l ih =>
    cases htest : test (task i) with
    | true =>
      refine .inl ⟨i,mem_cons_self,htest,?_⟩
      have hvisit : visit test f 1 (task,0) i = (update task i (f (task i)),1) := by
        rw [visit,if_pos ⟨Int.zero_lt_one,htest⟩]
      change upTo test f 1 l (visit test f 1 (task,0) i) = _
      rw [hvisit]
      exact upTo_full (Int.le_refl 1)
    | false =>
      have hvisit : visit test f 1 (task,0) i = (task,0) := by
        rw [visit,if_neg (by simp [htest])]
      change (∃ j ∈ i :: l, _ ∧ upTo test f 1 l (visit test f 1 (task,0) i) = _) ∨
        _ ∧ upTo test f 1 l (visit test f 1 (task,0) i) = _
      rw [hvisit]
      rcases ih with ⟨j,hj,h⟩ | ⟨hnone,h⟩
      · exact .inl ⟨j,mem_cons_of_mem i hj,h⟩
      · exact .inr ⟨forall_mem_cons.mpr ⟨htest,hnone⟩,h⟩

end Scan
