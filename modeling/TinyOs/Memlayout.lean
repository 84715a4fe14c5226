import Mathlib.Algebra.Order.Ring.Nat

namespace TinyOs

def pgSize : Nat := 4096

def word : Nat := 2 ^ 32

def kernBase : Nat := 0xC0000000

def physmemTopMax : Nat := 0x38000000

def userBase : Nat := 0x00000000

def userLoad : Nat := 0x00400000

def userEnd : Nat := kernBase

def userStack : Nat := userEnd

def userStackSize : Nat := 16 * pgSize

def userStackGuard : Nat := 16 * pgSize

def userStackBottom : Nat := userStack - userStackSize

def userHeapTop : Nat := userStackBottom - userStackGuard

def pgRoundUp (sz : Nat) : Nat := (sz + pgSize - 1) % word / pgSize * pgSize

def pgRoundDown (a : Nat) : Nat := a / pgSize * pgSize

def p2v (pa : Nat) : Nat := (pa + kernBase) % word

def v2p (va : Nat) : Nat := (va + (word - kernBase)) % word

theorem pgRoundDown_mod (a : Nat) : pgRoundDown a % pgSize = 0 := by
  simp only [pgRoundDown,pgSize]
  omega

theorem pgRoundDown_le (a : Nat) : pgRoundDown a ≤ a := by
  simp only [pgRoundDown,pgSize]
  omega

theorem userEnd_lt : userEnd < word := by decide

theorem pgRoundUp_mod (a : Nat) : pgRoundUp a % pgSize = 0 := by
  simp only [pgRoundUp,pgSize,word]
  omega

end TinyOs
