import TinyOs.Mm.Buddy

namespace TinyOs.Mem

open List Buddy

def kernelLoadPa : Nat := 0x100000

def bootInfoMagic : Nat := 0x544f4d53

def fwCfgRead (cfg : Nat → Nat → UInt8) (key n : Nat) : Nat :=
  (List.range n).foldl (fun v i => v ||| (cfg key i).toNat <<< (8 * i % 32)) 0

def fwCfgRamSize (cfg : Nat → Nat → UInt8) : Option Nat :=
  if fwCfgRead cfg 0 4 ≠ 0x554d4551 then none
  else
    let ram := fwCfgRead cfg 3 8
    if ram = 0 then none else some (if physmemTopMax < ram then physmemTopMax else ram)

def bootInfoRamSize (info : Nat → Nat) : Option Nat :=
  if info 0 ≠ bootInfoMagic then none else if info 1 ≤ kernelLoadPa then none else some (info 1)

def memProbe (cfg : Nat → Nat → UInt8) (info : Nat → Nat) : Option Nat :=
  (fwCfgRamSize cfg <|> bootInfoRamSize info).bind fun top =>
    if memProbeTop top ≤ kernelLoadPa then none else some (memProbeTop top)

def qemu (ram : Nat) (key i : Nat) : UInt8 :=
  UInt8.ofNat ((if key = 0 then 0x554d4551 else ram) / 2 ^ (8 * i))

variable {ram : Nat}

theorem or_bytes {a b c d : Nat} (ha : a < 256) (hb : b < 256) (hc : c < 256) :
    a ||| b <<< 8 ||| c <<< 16 ||| d <<< 24 = a + b * 2 ^ 8 + c * 2 ^ 16 + d * 2 ^ 24 := by
  have h1 : a ||| b <<< 8 = a + b * 2 ^ 8 := by
    rw [Nat.or_comm,← Nat.shiftLeft_add_eq_or_of_lt ha,Nat.shiftLeft_eq,add_comm]
  have h2 : a + b * 2 ^ 8 ||| c <<< 16 = a + b * 2 ^ 8 + c * 2 ^ 16 := by
    rw [Nat.or_comm,← Nat.shiftLeft_add_eq_or_of_lt (by omega),Nat.shiftLeft_eq,add_comm]
  rw [h1,h2,Nat.or_comm,← Nat.shiftLeft_add_eq_or_of_lt (by omega),Nat.shiftLeft_eq,add_comm]

theorem fwCfgRead_ram (h : ram < 2 ^ 64) :
    fwCfgRead (qemu ram) 3 8 = ram % 2 ^ 32 ||| ram / 2 ^ 32 := by
  have hread : fwCfgRead (qemu ram) 3 8 =
      ((ram % 256 ||| (ram / 2 ^ 8 % 256) <<< 8 ||| (ram / 2 ^ 16 % 256) <<< 16 |||
        (ram / 2 ^ 24 % 256) <<< 24) ||| (ram / 2 ^ 32 % 256 ||| (ram / 2 ^ 40 % 256) <<< 8 |||
        (ram / 2 ^ 48 % 256) <<< 16 ||| (ram / 2 ^ 56 % 256) <<< 24)) := by
    simp [fwCfgRead,range_succ,qemu,Nat.or_assoc]
  rw [hread,or_bytes (by omega) (by omega) (by omega),or_bytes (by omega) (by omega) (by omega)]
  congr 1 <;> omega

theorem reaches_top_iff {z : Nat} (h : z < 2 ^ 32) : physmemTopMax ≤ z ↔
    (∃ i ∈ [30,31], z.testBit i = true) ∨ ∀ i ∈ [27,28,29], z.testBit i = true := by
  have hdec : ∀ w < 32, 7 ≤ w ↔
      (∃ i ∈ [3,4], w.testBit i = true) ∨ ∀ i ∈ [0,1,2], w.testBit i = true := by decide
  have hz := hdec (z / 2 ^ 27) (by omega)
  simp only [Nat.testBit_div_two_pow,mem_cons,not_mem_nil,or_false,exists_eq_or_imp,exists_eq_left,
    forall_eq_or_imp,forall_eq,Nat.reduceAdd] at hz ⊢
  rw [← hz,physmemTopMax]
  omega

theorem memProbe_qemu (info : Nat → Nat) (hpos : 0 < ram) (h : ram < 2 ^ 64) {z : Nat}
    (hz : z = ram % 2 ^ 32 ||| ram / 2 ^ 32) :
    memProbe (qemu ram) info =
      if pgRoundDown (min z physmemTopMax) ≤ kernelLoadPa then none
      else some (pgRoundDown (min z physmemTopMax)) := by
  have hsig : fwCfgRead (qemu ram) 0 4 = 0x554d4551 := by simp [fwCfgRead,range_succ,qemu]
  have hne : z ≠ 0 := by
    intro h0
    obtain ⟨hlo,hhi⟩ := Nat.or_eq_zero_iff.mp (hz.symm.trans h0)
    omega
  have hmin : (if physmemTopMax < z then physmemTopMax else z) = min z physmemTopMax := by
    rw [Nat.min_def]
    split <;> split <;> omega
  have htop : memProbeTop (min z physmemTopMax) = pgRoundDown (min z physmemTopMax) := by
    have hle := pgRoundDown_le (min z physmemTopMax)
    rw [memProbeTop,if_neg (by omega)]
  rw [memProbe,fwCfgRamSize,if_neg (not_not.mpr hsig),fwCfgRead_ram h,← hz]
  dsimp only
  rw [if_neg hne,hmin,← htop]
  rfl

theorem mem_probe_exact_iff (info : Nat → Nat) (hbig : kernelLoadPa + pgSize < ram)
    (h : ram < 2 ^ 64) :
    memProbe (qemu ram) info = some (pgRoundDown (min ram physmemTopMax)) ↔ ram < 2 ^ 32 ∨
      (∃ i ∈ [30,31], ram.testBit i ∨ ram.testBit (i + 32)) ∨
      ∀ i ∈ [27,28,29], ram.testBit i ∨ ram.testBit (i + 32) := by
  obtain ⟨z,hz⟩ : ∃ z, z = ram % 2 ^ 32 ||| ram / 2 ^ 32 := ⟨_,rfl⟩
  rw [memProbe_qemu info (by omega) h hz]
  simp only [kernelLoadPa,pgSize] at hbig
  by_cases hlow : ram < 2 ^ 32
  · have hzr : z = ram := by rw [hz,Nat.mod_eq_of_lt hlow,Nat.div_eq_of_lt hlow,Nat.or_zero]
    rw [hzr,if_neg]
    · exact ⟨fun _ => .inl hlow,fun _ => rfl⟩
    · simp only [pgRoundDown,physmemTopMax,pgSize,kernelLoadPa]
      omega
  have hlt : z < 2 ^ 32 := hz ▸ Nat.or_lt_two_pow (by omega) (by omega)
  have hbits := reaches_top_iff hlt
  simp only [hz,Nat.testBit_or,Nat.testBit_mod_two_pow,Nat.testBit_div_two_pow,mem_cons,not_mem_nil,
    or_false,exists_eq_or_imp,exists_eq_left,forall_eq_or_imp,forall_eq,Nat.reduceLT,decide_true,
    Bool.true_and,Bool.or_eq_true,Nat.reduceAdd] at hbits ⊢
  rw [or_iff_right hlow,← hbits,← hz]
  rw [Option.ite_none_left_eq_some,Option.some.injEq]
  simp only [pgRoundDown,physmemTopMax,pgSize,kernelLoadPa]
  omega

theorem mem_probe_exact_two_gib : memProbe (qemu 0x80000000) (fun _ => 0) = some 0x38000000 :=
  (mem_probe_exact_iff (fun _ => 0) (by decide) (by decide)).mpr (.inl (by decide))

theorem mem_probe_wraps : memProbe (qemu 0x120000000) (fun _ => 0) = some 0x20000000 ∧
      pgRoundDown (min 0x120000000 physmemTopMax) = 0x38000000 := by
  decide +kernel

end TinyOs.Mem
