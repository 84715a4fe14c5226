import Mathlib.Data.List.Basic
import Mathlib.Data.Nat.ModEq

namespace Ring

open List

variable {α : Type*} {N M : ℕ} {slots : ℕ → α} {r w : ℕ} {popped pushed : List α}

structure Holds (N M : ℕ) (slots : ℕ → α) (r w : ℕ) (popped pushed : List α) : Prop where
  fifo : popped <+: pushed
  room : pushed.length ≤ popped.length + N
  read : r = popped.length % M
  write : w = pushed.length % M
  slot : ∀ i b, popped.length ≤ i → pushed[i]? = some b → slots (i % N) = b

namespace Holds

theorem length_le (h : Holds N M slots r w popped pushed) : popped.length ≤ pushed.length :=
  h.fifo.length_le

theorem push (h : Holds N M slots r w popped pushed) (hdvd : N ∣ M)
    (hroom : pushed.length < popped.length + N) (b : α) :
    Holds N M (Function.update slots (w % N) b) r ((w + 1) % M) popped (pushed ++ [b]) := by
  have hw : w % N = pushed.length % N := by rw [h.write,Nat.mod_mod_of_dvd _ hdvd]
  refine ⟨h.fifo.trans (prefix_append _ _),?_,h.read,?_,?_⟩
  · simp only [length_append,length_singleton]
    omega
  · rw [h.write,Nat.mod_add_mod,length_append,length_singleton]
  intro i c hi hc
  rcases Nat.lt_trichotomy i pushed.length with hlt | heq | hgt
  · have hne : i % N ≠ w % N := by
      rw [hw]
      intro hmod
      have hdiff := (Nat.modEq_iff_dvd' hlt.le).mp hmod
      have := Nat.le_of_dvd (by omega) hdiff
      omega
    rw [Function.update_of_ne hne]
    rw [getElem?_append_left hlt] at hc
    exact h.slot i c hi hc
  · subst heq
    rw [← hw,Function.update_self]
    simpa using hc
  · rw [getElem?_eq_none (by simp; omega)] at hc
    cases hc

theorem pop (h : Holds N M slots r w popped pushed) (hdvd : N ∣ M)
    (hne : popped.length < pushed.length) :
    Holds N M slots ((r + 1) % M) w (popped ++ [slots (r % N)]) pushed := by
  have hr : r % N = popped.length % N := by rw [h.read,Nat.mod_mod_of_dvd _ hdvd]
  have hslot : slots (r % N) = pushed[popped.length] := by
    rw [hr]
    exact h.slot _ _ le_rfl (getElem?_eq_getElem hne)
  refine ⟨?_,?_,?_,h.write,?_⟩
  · rw [hslot]
    obtain ⟨rest,rfl⟩ := h.fifo
    cases rest with
    | nil => simp at hne
    | cons b rest => simp
  · have := h.room
    simp only [length_append,length_singleton]
    omega
  · rw [h.read,Nat.mod_add_mod,length_append,length_singleton]
  · intro i b hi hb
    simp only [length_append,length_singleton] at hi
    exact h.slot i b (by omega) hb

theorem shorten {kept undone : List α} (h : Holds N M slots r w popped (kept ++ undone))
    (hle : popped.length ≤ kept.length) :
    Holds N M slots r (kept.length % M) popped kept := by
  refine ⟨prefix_of_prefix_length_le h.fifo (prefix_append _ _) hle,?_,h.read,rfl,?_⟩
  · have := h.room
    rw [length_append] at this
    omega
  · intro i b hi hb
    have hlt : i < kept.length := (List.getElem?_eq_some_iff.mp hb).1
    exact h.slot i b hi (by rw [getElem?_append_left hlt,hb])

theorem offset_eq (h : Holds N M slots r w popped pushed) {k : ℕ} (hk : k < M) (hN : N < M) :
    w = (r + k) % M ↔ pushed.length = popped.length + k := by
  obtain ⟨d,hd⟩ := Nat.exists_eq_add_of_le h.length_le
  have hdN : d ≤ N := by
    have := h.room
    omega
  rw [h.write,h.read,Nat.mod_add_mod,hd]
  constructor
  · intro heq
    have := Nat.ModEq.add_left_cancel' _ (show popped.length + d ≡ popped.length + k [MOD M] from heq)
    rw [Nat.ModEq,Nat.mod_eq_of_lt (by omega),Nat.mod_eq_of_lt hk] at this
    rw [this]
  · intro heq
    rw [heq]

theorem empty_iff (h : Holds N M slots r w popped pushed) (hN : N < M) :
    r = w ↔ popped.length = pushed.length := by
  have := h.offset_eq (k := 0) (by omega) hN
  rw [add_zero,h.read,Nat.mod_mod,← h.read] at this
  rw [eq_comm,this,add_zero,eq_comm]

end Holds

end Ring
