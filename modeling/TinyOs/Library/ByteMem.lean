import Mathlib.Data.BitVec

namespace ByteMem

abbrev Word := BitVec 32

abbrev Mem := Word → BitVec 8

def read (m : Mem) (a : Word) : Word := m (a + 3) ++ m (a + 2) ++ m (a + 1) ++ m a

def write (m : Mem) (a v : Word) : Mem := fun x =>
  if (x - a).toNat < 4 then v.extractLsb' (8 * (x - a).toNat) 8 else m x

def Apart (a b : Word) : Prop := 4 ≤ (b - a).toNat ∧ 4 ≤ (a - b).toNat

variable {m m' : Mem} {a b v : Word}

theorem write_of_le (h : 4 ≤ (b - a).toNat) : write m a v b = m b := by
  rw [write,if_neg (not_lt.mpr h)]

theorem read_congr (h : ∀ x : Word, (x - a).toNat < 4 → m x = m' x) : read m a = read m' a := by
  have h0 := h a (by bv_omega)
  have h1 := h (a + 1) (by bv_omega)
  have h2 := h (a + 2) (by bv_omega)
  have h3 := h (a + 3) (by bv_omega)
  rw [read,read,h0,h1,h2,h3]

theorem or_byte (x y : Nat) : x * 2 ^ 8 ||| y % 2 ^ 8 = x * 2 ^ 8 + y % 2 ^ 8 := by
  rw [mul_comm]
  exact (Nat.two_pow_add_eq_or_of_lt (Nat.mod_lt _ (by decide)) x).symm

@[simp] theorem read_write : read (write m a v) a = v := by
  have h0 : (a - a).toNat = 0 := by bv_omega
  have h1 : (a + 1 - a).toNat = 1 := by bv_omega
  have h2 : (a + 2 - a).toNat = 2 := by bv_omega
  have h3 : (a + 3 - a).toNat = 3 := by bv_omega
  have hv := v.isLt
  apply BitVec.eq_of_toNat_eq
  simp only [read,write,h0,h1,h2,h3,Nat.reduceLT,if_true,BitVec.toNat_append,
    BitVec.extractLsb'_toNat,Nat.shiftRight_eq_div_pow,Nat.shiftLeft_eq,or_byte]
  omega

theorem read_write_of_apart (h : Apart a b) : read (write m a v) b = read m b := by
  obtain ⟨hab,hba⟩ := h
  apply read_congr
  intro x hx
  apply write_of_le
  bv_omega

end ByteMem
