import Mathlib.Data.Nat.Bitwise
import Mathlib.Tactic.Ring

namespace Dyadic

variable {k i n : Nat}

structure Block where
  start : Nat
  order : Nat
  deriving DecidableEq, Repr

variable {b : Block}

namespace Block

def Covers (b : Block) (p : Nat) : Prop := b.start ≤ p ∧ p < b.start + 2 ^ b.order

instance (b : Block) (p : Nat) : Decidable (b.Covers p) := inferInstanceAs (Decidable (_ ∧ _))

def Aligned (b : Block) : Prop := 2 ^ b.order ∣ b.start

instance (b : Block) : Decidable b.Aligned := inferInstanceAs (Decidable (_ ∣ _))

theorem covers_start (b : Block) : b.Covers b.start :=
  ⟨le_rfl,Nat.lt_add_of_pos_right (Nat.two_pow_pos _)⟩

theorem Aligned.covers_iff (h : b.Aligned) (p : Nat) :
    b.Covers p ↔ p / 2 ^ b.order = b.start / 2 ^ b.order := by
  obtain ⟨q,hq⟩ := h
  have hpos := Nat.two_pow_pos b.order
  rw [hq,Nat.mul_div_cancel_left _ hpos,Nat.div_eq_iff hpos,Covers,hq,Nat.mul_comm]
  omega

theorem Aligned.covers_of_covers {a : Block} (ha : a.Aligned) (hb : b.Aligned)
    (hle : a.order ≤ b.order) {p q : Nat} (hpa : a.Covers p) (hpb : b.Covers p)
    (hqa : a.Covers q) : b.Covers q := by
  rw [ha.covers_iff] at hpa hqa
  rw [hb.covers_iff] at hpb ⊢
  obtain ⟨d,hd⟩ := Nat.exists_eq_add_of_le hle
  rw [hd,pow_add,← Nat.div_div_eq_div_mul] at hpb ⊢
  rw [hqa,← hpa,hpb]

theorem Aligned.start_eq_of_dvd (hb : b.Aligned) {x : Nat}
    (hle : b.order ≤ k) (hx : 2 ^ k ∣ x) (hc : b.Covers x) : b.start = x := by
  have hdx : 2 ^ b.order ∣ x := dvd_trans (pow_dvd_pow 2 hle) hx
  rw [hb.covers_iff] at hc
  rw [← Nat.div_mul_cancel hdx,hc,Nat.div_mul_cancel hb]

end Block

theorem testBit_two_pow_succ_mul (k r : Nat) : (2 ^ (k + 1) * r).testBit k = false := by
  rw [Nat.testBit_two_pow_mul]; simp

theorem two_pow_succ_mul_or (k r : Nat) : 2 ^ (k + 1) * r ||| 2 ^ k = 2 ^ (k + 1) * r + 2 ^ k :=
  (Nat.two_pow_add_eq_or_of_lt (Nat.pow_lt_pow_right (by omega) (by omega)) r).symm

theorem two_pow_succ_mul_xor (k r : Nat) :
    (2 ^ (k + 1) * r) ^^^ 2 ^ k = 2 ^ (k + 1) * r + 2 ^ k := by
  rw [← two_pow_succ_mul_or]
  apply Nat.eq_of_testBit_eq
  intro j
  by_cases hj : j = k
  · subst hj
    simp [Nat.testBit_xor,testBit_two_pow_succ_mul]
  · simp [Nat.testBit_xor,Nat.testBit_two_pow_of_ne (Ne.symm hj)]

theorem xor_two_pow_cases (h : 2 ^ k ∣ i) : (2 ^ (k + 1) ∣ i ∧ i ^^^ 2 ^ k = i + 2 ^ k) ∨
      (2 ^ k ≤ i ∧ 2 ^ (k + 1) ∣ i - 2 ^ k ∧ i ^^^ 2 ^ k = i - 2 ^ k) := by
  obtain ⟨q,rfl⟩ := h
  rcases Nat.even_or_odd' q with ⟨r,rfl | rfl⟩
  · left
    have he : 2 ^ k * (2 * r) = 2 ^ (k + 1) * r := by ring
    rw [he]
    exact ⟨dvd_mul_right _ _,two_pow_succ_mul_xor k r⟩
  right
  have he : 2 ^ k * (2 * r + 1) = 2 ^ (k + 1) * r + 2 ^ k := by ring
  rw [he,Nat.add_sub_cancel]
  refine ⟨Nat.le_add_left _ _,dvd_mul_right _ _,?_⟩
  rw [← two_pow_succ_mul_xor,Nat.xor_assoc,Nat.xor_self,Nat.xor_zero]

theorem and_complement_of_dvd (hi : i < 2 ^ n) (h : 2 ^ (k + 1) ∣ i) :
    i &&& (2 ^ n - (2 ^ k + 1)) = i := by
  obtain ⟨r,rfl⟩ := h
  by_cases hkn : 2 ^ k < 2 ^ n
  · apply Nat.eq_of_testBit_eq
    intro j
    rw [Nat.testBit_and,Nat.testBit_two_pow_sub_succ hkn]
    by_cases hj : j = k
    · subst hj; simp [testBit_two_pow_succ_mul]
    by_cases hjn : j < n
    · simp [Nat.testBit_two_pow_of_ne (Ne.symm hj),hjn]
    · have hlt := lt_of_lt_of_le hi (Nat.pow_le_pow_right (by omega) (Nat.le_of_not_lt hjn))
      simp [Nat.testBit_lt_two_pow hlt]
  · have hz : 2 ^ (k + 1) * r = 0 := by
      rcases Nat.eq_zero_or_pos r with rfl | hr
      · rfl
      have hle := Nat.le_mul_of_pos_right (2 ^ (k + 1)) hr
      have hpow : 2 ^ (k + 1) = 2 * 2 ^ k := by ring
      omega
    simp [hz]

theorem and_complement_of_odd (hi : i < 2 ^ n) (hle : 2 ^ k ≤ i)
    (h : 2 ^ (k + 1) ∣ i - 2 ^ k) : i &&& (2 ^ n - (2 ^ k + 1)) = i - 2 ^ k := by
  obtain ⟨r,hr⟩ := h
  have hkn : 2 ^ k < 2 ^ n := lt_of_le_of_lt hle hi
  have hlow : 2 ^ (k + 1) * r < 2 ^ n := hr ▸ lt_of_le_of_lt (Nat.sub_le _ _) hi
  have he : i = 2 ^ (k + 1) * r ||| 2 ^ k := by rw [two_pow_succ_mul_or]; omega
  rw [hr,he,Nat.and_or_distrib_right,and_complement_of_dvd hlow (dvd_mul_right _ _)]
  have hz : 2 ^ k &&& (2 ^ n - (2 ^ k + 1)) = 0 := by
    apply Nat.eq_of_testBit_eq
    intro j
    rw [Nat.testBit_and,Nat.testBit_two_pow_sub_succ hkn,Nat.zero_testBit]
    cases (2 ^ k).testBit j <;> simp
  rw [hz,Nat.or_zero]

namespace Block

def buddy (b : Block) : Block := ⟨b.start ^^^ 2 ^ b.order,b.order⟩

def parent (b : Block) : Block := ⟨b.start / 2 ^ (b.order + 1) * 2 ^ (b.order + 1),b.order + 1⟩

theorem parent_aligned (b : Block) : b.parent.Aligned := dvd_mul_left _ _

theorem parent_start_cases (h : b.Aligned) :
    (b.parent.start = b.start ∧ b.buddy.start = b.start + 2 ^ b.order) ∨
      (2 ^ b.order ≤ b.start ∧ b.parent.start = b.start - 2 ^ b.order ∧
        b.buddy.start = b.start - 2 ^ b.order) := by
  have hpow : 2 ^ (b.order + 1) = 2 * 2 ^ b.order := by ring
  rcases xor_two_pow_cases h with ⟨hd,hx⟩ | ⟨hle,hd,hx⟩
  · exact .inl ⟨Nat.div_mul_cancel hd,hx⟩
  refine .inr ⟨hle,?_,hx⟩
  have hpos := Nat.two_pow_pos b.order
  have hdiv : b.start / 2 ^ (b.order + 1) = (b.start - 2 ^ b.order) / 2 ^ (b.order + 1) := by
    obtain ⟨r,hr⟩ := hd
    rw [hr,Nat.mul_div_cancel_left _ (Nat.two_pow_pos _),Nat.div_eq_iff (Nat.two_pow_pos _),
      Nat.mul_comm]
    omega
  change b.start / 2 ^ (b.order + 1) * 2 ^ (b.order + 1) = _
  rw [hdiv,Nat.div_mul_cancel hd]

theorem parent_covers_iff (h : b.Aligned) (p : Nat) :
    b.parent.Covers p ↔ b.Covers p ∨ b.buddy.Covers p := by
  have hpow : 2 ^ b.parent.order = 2 * 2 ^ b.order := by simp only [parent]; ring
  have hord : b.buddy.order = b.order := rfl
  simp only [Covers,hpow,hord]
  rcases parent_start_cases h with ⟨hs,hb⟩ | ⟨hle,hs,hb⟩ <;> rw [hs,hb] <;> omega

theorem buddy_aligned (h : b.Aligned) : b.buddy.Aligned := by
  change 2 ^ b.order ∣ b.buddy.start
  rcases parent_start_cases h with ⟨_,hb⟩ | ⟨_,_,hb⟩ <;> rw [hb]
  · exact Nat.dvd_add h (dvd_refl _)
  · exact Nat.dvd_sub h (dvd_refl _)

theorem not_covers_of_buddy (h : b.Aligned) {p : Nat} (hp : b.buddy.Covers p) : ¬ b.Covers p := by
  have hord : b.buddy.order = b.order := rfl
  simp only [Covers,hord] at hp ⊢
  rcases parent_start_cases h with ⟨_,hb⟩ | ⟨_,_,hb⟩ <;> rw [hb] at hp <;> omega

theorem and_complement_start (h : b.Aligned) (hn : b.start < 2 ^ n) :
    b.start &&& (2 ^ n - (2 ^ b.order + 1)) = b.parent.start := by
  rcases xor_two_pow_cases h with ⟨hd,_⟩ | ⟨hle,hd,hx⟩
  · rw [and_complement_of_dvd hn hd]
    exact (Nat.div_mul_cancel hd).symm
  rw [and_complement_of_odd hn hle hd]
  rcases parent_start_cases h with ⟨_,hb⟩ | ⟨_,hs,_⟩
  · have hpos := Nat.two_pow_pos b.order
    simp only [buddy] at hb
    omega
  · exact hs.symm

end Block

end Dyadic
