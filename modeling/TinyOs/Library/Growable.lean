import Mathlib.Data.List.GetD
import Mathlib.Tactic.Common

namespace Growable

open List

variable {α : Type*} {z : α} {bs src : List α} {off n i : Nat}

def put (z : α) (bs : List α) (off : Nat) (src : List α) : List α :=
  if src = [] then bs
  else (bs ++ List.replicate (off - bs.length) z).take off ++ src ++ bs.drop (off + src.length)

def resize (z : α) (bs : List α) (n : Nat) : List α := bs.take n ++ List.replicate (n - bs.length) z

theorem put_nil : put z bs off [] = bs := if_pos rfl

theorem put_length (h : src ≠ []) : (put z bs off src).length = max bs.length (off + src.length) := by
  rw [put,if_neg h]
  simp only [length_append,length_take,length_replicate,length_drop]
  omega

theorem put_getD (h : src ≠ []) : (put z bs off src).getD i z =
    if off ≤ i ∧ i < off + src.length then src.getD (i - off) z else bs.getD i z := by
  have hfront : ((bs ++ List.replicate (off - bs.length) z).take off).length = off := by
    simp only [length_append,length_take,length_replicate]
    omega
  rw [put,if_neg h,append_assoc]
  by_cases hlo : i < off
  · rw [if_neg (by omega),getD_append _ _ _ _ (by rw [hfront]; exact hlo),getD_eq_getElem?_getD,
      getElem?_take_of_lt hlo,← getD_eq_getElem?_getD]
    by_cases hi : i < bs.length
    · rw [getD_append _ _ _ _ hi]
    rw [getD_append_right _ _ _ _ (by omega),getD_eq_default bs _ (by omega),getD_eq_getElem?_getD,
      getElem?_getD_replicate_default_eq]
  · rw [getD_append_right _ _ _ _ (by omega),hfront]
    by_cases hhi : i < off + src.length
    · rw [if_pos ⟨by omega,hhi⟩,getD_append _ _ _ _ (by omega)]
    rw [if_neg (by omega),getD_append_right _ _ _ _ (by omega),getD_eq_getElem?_getD,getElem?_drop,
      ← getD_eq_getElem?_getD]
    congr 1
    omega

theorem resize_length : (resize z bs n).length = n := by
  simp only [resize,length_append,length_take,length_replicate]
  omega

theorem resize_getD (hi : i < n) : (resize z bs n).getD i z = bs.getD i z := by
  rw [resize]
  by_cases hb : i < bs.length
  · rw [getD_append _ _ _ _ (by rw [length_take]; omega),getD_eq_getElem?_getD,
      getElem?_take_of_lt hi,← getD_eq_getElem?_getD]
  rw [getD_append_right _ _ _ _ (by rw [length_take]; omega),getD_eq_default bs _ (by omega),
    getD_eq_getElem?_getD,getElem?_getD_replicate_default_eq]

theorem ext_getD {cs : List α} (hlen : bs.length = cs.length)
    (h : ∀ i < bs.length, bs.getD i z = cs.getD i z) : bs = cs := by
  refine ext_getElem hlen fun i h1 h2 => ?_
  rw [← getD_eq_getElem bs z h1,← getD_eq_getElem cs z h2]
  exact h i h1

theorem put_append {src' : List α} :
    put z (put z bs off src) (off + src.length) src' = put z bs off (src ++ src') := by
  by_cases h : src = []
  · rw [h,put_nil,length_nil,Nat.add_zero,nil_append]
  by_cases h' : src' = []
  · rw [h',put_nil,append_nil]
  have happ : src ++ src' ≠ [] := by simp [h]
  refine ext_getD (z := z) ?_ fun i _ => ?_
  · rw [put_length h',put_length h,put_length happ,length_append]
    omega
  rw [put_getD h',put_getD h,put_getD happ,length_append]
  by_cases h1 : off ≤ i ∧ i < off + src.length
  · rw [if_neg (by omega),if_pos h1,if_pos (by omega),getD_append _ _ _ _ (by omega)]
  by_cases h2 : off + src.length ≤ i ∧ i < off + src.length + src'.length
  · rw [if_pos h2,if_pos (by omega),getD_append_right _ _ _ _ (by omega)]
    congr 1
    omega
  · rw [if_neg h2,if_neg h1,if_neg (by omega)]

theorem put_resize (h : src ≠ []) (hle : bs.length ≤ off + src.length) :
    put z (resize z bs (off + src.length)) off src = put z bs off src := by
  refine ext_getD (z := z) ?_ fun i hi => ?_
  · rw [put_length h,put_length h,resize_length]
    omega
  rw [put_length h,resize_length] at hi
  rw [put_getD h,put_getD h]
  split
  · rfl
  · exact resize_getD (by omega)

end Growable
