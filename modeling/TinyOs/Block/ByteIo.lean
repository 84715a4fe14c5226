import TinyOs.Memlayout

namespace TinyOs.ByteIo

open List

def sectorSize : Nat := 512

structure Call where
  capacity : Nat
  off : Nat
  n : Nat
  doWrite : Bool
  buf : Nat → UInt8
  byte : Nat → UInt8
  fails : Nat → Bool
  off_lt : off < word

structure Result where
  ret : Option Nat
  off : Nat
  byte : Nat → UInt8
  dst : List UInt8

def blkdevWriteSect (byte : Nat → UInt8) (sec : Nat) (sect : Nat → UInt8) : Nat → UInt8 := fun x =>
  if x / sectorSize = sec then sect (x % sectorSize) else byte x

namespace Call

variable (c : Call)

def loop (done off : Nat) (byte : Nat → UInt8) (dst : List UInt8) : Result :=
  if done < c.n then
    let sec := off / sectorSize
    let secOff := off % sectorSize
    if c.capacity ≤ sec then ⟨some done,off,byte,dst⟩
    else
      let chunk := min (sectorSize - secOff) (c.n - done)
      if c.fails done then ⟨if done = 0 then none else some done,c.off,byte,dst⟩
      else if c.doWrite then
        let sect := fun i => if secOff ≤ i ∧ i < secOff + chunk then c.buf (done + (i - secOff))
          else byte (sec * sectorSize + i)
        loop (done + chunk) ((off + chunk) % word) (blkdevWriteSect byte sec sect) dst
      else
        loop (done + chunk) ((off + chunk) % word) byte
          (dst ++ (List.range chunk).map fun i => byte (sec * sectorSize + secOff + i))
  else ⟨some done,off,byte,dst⟩
termination_by c.n - done
decreasing_by
  all_goals
    have := Nat.mod_lt off (show 0 < sectorSize by decide)
    omega

def fileBlkRw : Result := c.loop 0 c.off c.byte []

def written (k : Nat) : Nat → UInt8 := fun x =>
  if c.doWrite ∧ c.off ≤ x ∧ x < c.off + k then c.buf (x - c.off) else c.byte x

def got (k : Nat) : List UInt8 :=
  if c.doWrite then [] else (List.range k).map fun i => c.byte (c.off + i)

def Exact (r : Result) : Prop :=
  match r.ret with
  | none => r.off = c.off ∧ r.byte = c.byte
  | some k => k ≤ c.n ∧ r.off = c.off + k ∧ r.byte = c.written k ∧ r.dst = c.got k ∧
      (k = c.n ∨ c.capacity * sectorSize ≤ c.off + k ∨ c.fails k)

def Start (m : Nat) : Prop := m = 0 ∨ (c.off + m) % sectorSize = 0

def total : Nat := min c.n (c.capacity * sectorSize - c.off)

theorem written_step {c : Call} {done off chunk : Nat} (hw : c.doWrite = true)
    (hoff : off = c.off + done) (hchunk : off % sectorSize + chunk ≤ sectorSize) :
    blkdevWriteSect (c.written done) (off / sectorSize) (fun i =>
        if off % sectorSize ≤ i ∧ i < off % sectorSize + chunk then
          c.buf (done + (i - off % sectorSize))
        else c.written done (off / sectorSize * sectorSize + i)) =
      c.written (done + chunk) := by
  funext x
  have hdiv := Nat.div_add_mod' x sectorSize
  have hoffdiv := Nat.div_add_mod' off sectorSize
  simp only [blkdevWriteSect,written,hw,true_and]
  by_cases hsec : x / sectorSize = off / sectorSize
  · rw [if_pos hsec,← hsec,hdiv]
    rw [hsec] at hdiv
    by_cases hin : off ≤ x ∧ x < off + chunk
    · rw [if_pos (by omega),if_pos (by omega)]
      exact congrArg c.buf (by omega)
    rw [if_neg (by omega)]
    by_cases hold : c.off ≤ x ∧ x < c.off + done
    · rw [if_pos hold,if_pos (by omega)]
    · rw [if_neg hold,if_neg (by omega)]
  · have hout : ¬ (off ≤ x ∧ x < off + chunk) := by
      unfold sectorSize at *
      omega
    rw [if_neg hsec]
    by_cases hold : c.off ≤ x ∧ x < c.off + done
    · rw [if_pos hold,if_pos (by omega)]
    · rw [if_neg hold,if_neg (by omega)]

theorem got_step {c : Call} {done off chunk : Nat} (hr : ¬ c.doWrite = true)
    (hoff : off = c.off + done) :
    c.got done ++ ((List.range chunk).map fun i =>
        c.written done (off / sectorSize * sectorSize + off % sectorSize + i)) =
      c.got (done + chunk) := by
  rw [got,got,if_neg hr,if_neg hr,range_add,map_append,map_map,Nat.div_add_mod']
  congr 1
  apply map_congr_left
  intro i _
  rw [written,if_neg fun h => hr h.1,hoff,Function.comp_apply,add_assoc]

structure Upto (c : Call) (done k : Nat) (r : Result) : Prop where
  from_le : done ≤ k
  le : k ≤ c.n
  passed : ∀ m, done ≤ m → m < k → c.Start m →
    c.fails m = false ∧ (c.off + m) % word / sectorSize < c.capacity
  content : c.off + k < word → r.byte = c.written k ∧ r.dst = c.got k
  stop : (c.fails k = true ∧ k < c.n ∧ c.Start k ∧ (c.off + k) % word / sectorSize < c.capacity ∧
      r.off = c.off ∧ r.ret = if k = 0 then none else some k) ∨
    (r.off = (c.off + k) % word ∧ r.ret = some k ∧
      (k = c.n ∨ c.capacity ≤ (c.off + k) % word / sectorSize))

theorem loop_upto (c : Call) (done off : Nat) (byte : Nat → UInt8) (dst : List UInt8)
    (hdone : done ≤ c.n) (hstart : done < c.n → c.Start done) (hoff : off = (c.off + done) % word)
    (hcontent : c.off + done < word → byte = c.written done ∧ dst = c.got done) :
    ∃ k, c.Upto done k (c.loop done off byte dst) := by
  have hword : word = 2 ^ 32 := rfl
  induction hm : c.n - done using Nat.strong_induction_on generalizing done off byte dst with
  | _ m ih =>
  rw [loop]
  split
  · rename_i hlt
    dsimp only
    split
    · rename_i hend
      exact ⟨done,le_rfl,hdone,by omega,hcontent,.inr ⟨hoff,rfl,.inr (hoff ▸ hend)⟩⟩
    rename_i hcap
    rw [not_le] at hcap
    split
    · rename_i hfail
      exact ⟨done,le_rfl,hdone,by omega,hcontent,.inl ⟨hfail,hlt,hstart hlt,hoff ▸ hcap,rfl,rfl⟩⟩
    rename_i hpass
    rw [Bool.not_eq_true] at hpass
    have hmod := Nat.mod_lt off (show 0 < sectorSize by decide)
    obtain ⟨chunk,hchunk⟩ : ∃ x, min (sectorSize - off % sectorSize) (c.n - done) = x := ⟨_,rfl⟩
    rw [hchunk]
    have hnext : ∀ byte' dst', (c.off + (done + chunk) < word →
          byte' = c.written (done + chunk) ∧ dst' = c.got (done + chunk)) →
        ∃ k, c.Upto done k (c.loop (done + chunk) ((off + chunk) % word) byte' dst') := by
      intro byte' dst' hcontent'
      have halign : off % sectorSize = (c.off + done) % sectorSize := by
        rw [hoff,Nat.mod_mod_of_dvd _ (by decide)]
      have hoff' : (off + chunk) % word = (c.off + (done + chunk)) % word := by
        rw [hoff,Nat.mod_add_mod,add_assoc]
      have hone : ∀ m, done ≤ m → m < done + chunk → c.Start m → m = done := by
        intro m hle hlt' hs
        unfold Start at hs
        unfold sectorSize at *
        omega
      have hstart' : done + chunk < c.n → c.Start (done + chunk) := by
        intro hlt'
        unfold Start
        unfold sectorSize at *
        omega
      obtain ⟨k,hk⟩ := ih (c.n - (done + chunk)) (by omega) (done + chunk)
        ((off + chunk) % word) byte' dst' (by omega) hstart' hoff' hcontent' rfl
      refine ⟨k,by have := hk.from_le; omega,hk.le,fun m hle hlt' hs => ?_,hk.content,hk.stop⟩
      rcases lt_or_ge m (done + chunk) with hin | hout
      · obtain rfl := hone m hle hin hs
        exact ⟨hpass,hoff ▸ hcap⟩
      · exact hk.passed m hout hlt' hs
    split
    · rename_i hw
      refine hnext _ _ fun hlt' => ?_
      obtain ⟨rfl,rfl⟩ := hcontent (by omega)
      rw [Nat.mod_eq_of_lt (by omega)] at hoff
      refine ⟨written_step hw hoff (by omega),?_⟩
      rw [got,got,if_pos hw,if_pos hw]
    rename_i hr
    refine hnext _ _ fun hlt' => ?_
    obtain ⟨rfl,rfl⟩ := hcontent (by omega)
    rw [Nat.mod_eq_of_lt (by omega)] at hoff
    refine ⟨?_,got_step hr hoff⟩
    funext x
    rw [written,written,if_neg fun h => hr h.1,if_neg fun h => hr h.1]
  · rename_i hge
    exact ⟨done,le_rfl,hdone,by omega,hcontent,.inr ⟨hoff,rfl,.inl (by omega)⟩⟩

theorem file_blk_rw_exact (c : Call) : c.Exact c.fileBlkRw ↔ c.total = 0 ∨ c.fails 0 = true ∨
      (∀ m < c.total, c.Start m → c.fails m = false) ∧ c.off + c.total < word := by
  have hword : word = 2 ^ 32 := rfl
  have hoff := c.off_lt
  have hzero : c.written 0 = c.byte := by
    funext x
    rw [written,if_neg fun h => by omega]
  obtain ⟨k,hk⟩ := c.loop_upto 0 c.off c.byte [] (Nat.zero_le _) (fun _ => .inl rfl)
    (Nat.mod_eq_of_lt hoff).symm fun _ => ⟨hzero.symm,by rw [got]; split <;> rfl⟩
  have hfirst : 0 < k → c.fails 0 = false ∧ c.off / sectorSize < c.capacity := by
    intro hpos
    have := hk.passed 0 le_rfl hpos (.inl rfl)
    rwa [add_zero,Nat.mod_eq_of_lt hoff] at this
  rw [fileBlkRw]
  generalize c.loop 0 c.off c.byte [] = r at hk
  have hle := hk.le
  constructor
  · intro hexact
    rcases hk.stop with ⟨hfail,-,-,-,hr,hret⟩ | ⟨hr,hret,hend⟩
    · rcases Nat.eq_zero_or_pos k with rfl | hpos
      · exact .inr (.inl hfail)
      rw [if_neg hpos.ne'] at hret
      rw [Exact,hret] at hexact
      omega
    rw [Exact,hret] at hexact
    have hlt : c.off + k < word := by
      rw [← hexact.2.1,hr]
      exact Nat.mod_lt _ (by decide)
    rw [Nat.mod_eq_of_lt hlt] at hend
    have htotal : c.total ≤ k := by
      unfold total sectorSize at *
      omega
    exact .inr (.inr ⟨fun m hm hs => (hk.passed m (Nat.zero_le _) (by omega) hs).1,by omega⟩)
  intro hcond
  have hwithin : k ≤ c.total ∧ c.off + k < word := by
    rcases Nat.eq_zero_or_pos k with rfl | hpos
    · exact ⟨Nat.zero_le _,hoff⟩
    obtain ⟨hpass,hcap⟩ := hfirst hpos
    rw [Nat.div_lt_iff_lt_mul (by decide)] at hcap
    rcases hcond with hnone | hfail | ⟨-,hlt⟩
    · unfold total at hnone
      omega
    · rw [hpass] at hfail
      cases hfail
    have hle' : k ≤ c.total := by
      by_contra hgt
      have hend : c.off + c.total = c.capacity * sectorSize := by
        unfold total at *
        omega
      have hlast := (hk.passed c.total (Nat.zero_le _) (not_le.mp hgt)
        (.inr (by rw [hend,Nat.mul_mod_left]))).2
      rw [Nat.mod_eq_of_lt hlt,hend,Nat.mul_div_cancel _ (by decide)] at hlast
      omega
    exact ⟨hle',by omega⟩
  obtain ⟨hbyte,hdst⟩ := hk.content hwithin.2
  have hstop := hk.stop
  rw [Nat.mod_eq_of_lt hwithin.2] at hstop
  rcases hstop with ⟨hfail,hlt,hstart,hcap,hr,hret⟩ | ⟨hr,hret,hend⟩
  · rcases Nat.eq_zero_or_pos k with rfl | hpos
    · rw [Exact,hret]
      exact ⟨hr,hbyte.trans hzero⟩
    rw [Nat.div_lt_iff_lt_mul (by decide)] at hcap
    have hbefore : k < c.total := by
      unfold total
      omega
    rcases hcond with hnone | hfail' | ⟨hpass,-⟩
    · omega
    · rw [(hfirst hpos).1] at hfail'
      cases hfail'
    · rw [hpass k hbefore hstart] at hfail
      cases hfail
  · rw [Nat.le_div_iff_mul_le (by decide)] at hend
    rw [Exact,hret]
    exact ⟨hle,hr,hbyte,hdst,hend.imp_right .inl⟩

def halfWritten : Call :=
  ⟨4,448,128,true,fun _ => 1,fun _ => 0,fun done => done = 64,by decide⟩

theorem file_blk_rw_keeps_offset :
    halfWritten.fileBlkRw.ret = some 64 ∧ halfWritten.fileBlkRw.off = 448 ∧
      ¬ halfWritten.Exact halfWritten.fileBlkRw := by
  have hret : halfWritten.fileBlkRw.ret = some 64 := by decide +kernel
  have hoff : halfWritten.fileBlkRw.off = 448 := by decide +kernel
  refine ⟨hret,hoff,fun h => ?_⟩
  rw [Exact,hret,hoff] at h
  exact absurd h.2.1 (by decide)

end Call

end TinyOs.ByteIo
