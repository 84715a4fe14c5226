import TinyOs.Execve

namespace TinyOs.Ext2Read

open List

variable {chunk total : Nat} {bs : List UInt8} {fails : Nat → Bool}

def sectorSize : Nat := 512

abbrev ndirBlocks : Nat := 12

abbrev indBlock : Nat := 12

def superMagic : Nat := 0xEF53

structure Image where
  capacity : Nat
  byte : Nat → UInt8

variable {img : Image}

namespace Image

variable (img : Image)

def bytes (a n : Nat) : List UInt8 := (List.range n).map fun j => img.byte (a + j)

def u16 (a : Nat) : Nat := u16At (img.bytes a 2) 0

def u32 (a : Nat) : Nat := u32At (img.bytes a 4) 0

end Image

def ext2ReadSuper (img : Image) : Option Nat :=
  if img.u16 (1024 + 56) ≠ superMagic then none
  else
    let blockSize := 1024 * 2 ^ (img.u32 (1024 + 24) % 32) % word
    if blockSize < 1024 ∨ 4096 < blockSize then none else some blockSize

structure Super where
  img : Image
  blockSize : Nat
  accepted : ext2ReadSuper img = some blockSize

structure Inode where
  size : Nat
  iblock : Nat → Nat

structure Faults where
  blk : Bool
  buf : Nat → Bool
  table : Nat → Nat → Bool
  data : Nat → Nat → Bool

def blkdevReadSect (img : Image) (fails : Bool) (sector : Nat) : Option (List UInt8) :=
  if img.capacity < (sector + 1) % word then none
  else if fails then none
  else some (img.bytes (sector * sectorSize) sectorSize)

def readSects (img : Image) (fails : Nat → Bool) (sec : Nat) : Nat → Option (List UInt8)
  | 0 => some []
  | i + 1 =>
    match readSects img fails sec i with
    | none => none
    | some bs =>
      match blkdevReadSect img (fails i) (sec + i) with
      | none => none
      | some cs => some (bs ++ cs)

def ext2ReadBlock (sb : Super) (fails : Nat → Bool) (block : Nat) : Option (List UInt8) :=
  readSects sb.img fails (block * sb.blockSize % word / sectorSize) (sb.blockSize / sectorSize)

def ext2Bmap (sb : Super) (ip : Inode) (f : Faults) (lbn : Nat) : Nat :=
  if lbn < ndirBlocks then ip.iblock lbn
  else if lbn - ndirBlocks < sb.blockSize / 4 then
    if ip.iblock indBlock = 0 then 0
    else if f.buf lbn then 0
    else
      match ext2ReadBlock sb (f.table lbn) (ip.iblock indBlock) with
      | none => 0
      | some buf => u32At buf ((lbn - ndirBlocks) * 4)
  else 0

theorem shift_sizes : ∀ k < 32, 1024 ≤ 1024 * 2 ^ k % word → 1024 * 2 ^ k % word ≤ 4096 →
    1024 * 2 ^ k % word = 1024 ∨ 1024 * 2 ^ k % word = 2048 ∨ 1024 * 2 ^ k % word = 4096 := by
  decide

theorem ext2ReadSuper_sizes {blockSize : Nat} (h : ext2ReadSuper img = some blockSize) :
    blockSize = 1024 ∨ blockSize = 2048 ∨ blockSize = 4096 := by
  unfold ext2ReadSuper at h
  split at h
  · exact nomatch h
  dsimp only at h
  split at h
  · exact nomatch h
  rename_i hb
  obtain ⟨hlo,hhi⟩ := not_or.1 hb
  cases h
  exact shift_sizes _ (Nat.mod_lt _ (by decide)) (not_lt.1 hlo) (not_lt.1 hhi)

theorem Super.sizes (sb : Super) :
    sb.blockSize = 1024 ∨ sb.blockSize = 2048 ∨ sb.blockSize = 4096 :=
  ext2ReadSuper_sizes sb.accepted

theorem Super.pos (sb : Super) : 0 < sb.blockSize := by
  rcases sb.sizes with h | h | h <;> omega

def readDataLoop (sb : Super) (ip : Inode) (f : Faults) (off n : Nat) (acc : List UInt8)
    (total : Nat) : Option (List UInt8) :=
  if total < n then
    let lbn := (off + total) / sb.blockSize
    let boff := (off + total) % sb.blockSize
    let chunk := min (sb.blockSize - boff) (n - total)
    let phys := ext2Bmap sb ip f lbn
    if phys = 0 then
      readDataLoop sb ip f off n (acc ++ List.replicate chunk 0) (total + chunk)
    else
      match ext2ReadBlock sb (f.data lbn) phys with
      | none => if total = 0 then none else some acc
      | some blk => readDataLoop sb ip f off n (acc ++ (blk.drop boff).take chunk) (total + chunk)
  else some acc
termination_by n - total
decreasing_by
  all_goals
    have hmod := Nat.mod_lt (off + total) sb.pos
    omega

def ext2ReadData (sb : Super) (ip : Inode) (f : Faults) (off n : Nat) : Option (List UInt8) :=
  if ip.size ≤ off then some []
  else
    let n := if ip.size < (off + n) % word then ip.size - off else n
    if f.blk then none else readDataLoop sb ip f off n [] 0

variable {sb : Super} {ip : Inode} {f : Faults} {off n i lbn pos : Nat}

def entry (sb : Super) (b i : Nat) : Nat :=
  if b = 0 then 0 else sb.img.u32 (b * sb.blockSize + i * 4)

def mapped (sb : Super) (ip : Inode) (lbn : Nat) : Nat :=
  let per := sb.blockSize / 4
  if lbn < 12 then ip.iblock lbn
  else if lbn - 12 < per then entry sb (ip.iblock 12) (lbn - 12)
  else if lbn - 12 - per < per * per then
    let k := lbn - 12 - per
    entry sb (entry sb (ip.iblock 13) (k / per)) (k % per)
  else
    let k := lbn - 12 - per - per * per
    entry sb (entry sb (entry sb (ip.iblock 14) (k / (per * per))) (k / per % per)) (k % per)

def fileByte (sb : Super) (ip : Inode) (pos : Nat) : UInt8 :=
  let b := mapped sb ip (pos / sb.blockSize)
  if b = 0 then 0 else sb.img.byte (b * sb.blockSize + pos % sb.blockSize)

def Passes (sb : Super) (ip : Inode) (f : Faults) (lbn : Nat) : Prop :=
  ext2Bmap sb ip f lbn = 0 ∨ (ext2ReadBlock sb (f.data lbn) (ext2Bmap sb ip f lbn)).isSome

def Reached (sb : Super) (ip : Inode) (f : Faults) (off pos : Nat) : Prop :=
  ∀ lbn ≤ pos / sb.blockSize, off / sb.blockSize ≤ lbn → Passes sb ip f lbn

def Faithful (sb : Super) (ip : Inode) (off n : Nat) (r : Option (List UInt8)) : Prop :=
  ∀ bs, r = some bs → bs.length ≤ min n (ip.size - off) ∧
    ∀ i < bs.length, bs[i]? = some (fileByte sb ip (off + i))

def seen (sb : Super) (ip : Inode) (f : Faults) (pos : Nat) : UInt8 :=
  let b := ext2Bmap sb ip f (pos / sb.blockSize)
  if b = 0 then 0 else sb.img.byte (b * sb.blockSize % word + pos % sb.blockSize)

theorem Image.bytes_append (img : Image) (a m k : Nat) :
    img.bytes a m ++ img.bytes (a + m) k = img.bytes a (m + k) := by
  simp only [Image.bytes,range_add,map_append,map_map]
  congr 1
  apply map_congr_left
  intro j hj
  simp only [Function.comp_apply,add_assoc]

theorem blkdevReadSect_some {fails : Bool} {sector : Nat}
    (h : blkdevReadSect img fails sector = some bs) :
    bs = img.bytes (sector * sectorSize) sectorSize := by
  unfold blkdevReadSect at h
  split at h
  · exact nomatch h
  split at h
  · exact nomatch h
  · exact (Option.some.inj h).symm

theorem readSects_some {sec m : Nat} (h : readSects img fails sec m = some bs) :
    bs = img.bytes (sec * sectorSize) (m * sectorSize) := by
  induction m generalizing bs with
  | zero =>
    cases h
    rw [zero_mul]
    rfl
  | succ m ih =>
    rw [readSects] at h
    split at h
    · exact nomatch h
    rename_i hs
    split at h
    · exact nomatch h
    rename_i hc
    cases h
    rw [ih hs,blkdevReadSect_some hc,add_mul sec,Image.bytes_append,Nat.succ_mul]

theorem Super.sectors (sb : Super) : sb.blockSize / sectorSize * sectorSize = sb.blockSize := by
  rcases sb.sizes with h | h | h <;> rw [h] <;> rfl

theorem Super.address (sb : Super) (b : Nat) :
    b * sb.blockSize % word / sectorSize * sectorSize = b * sb.blockSize % word := by
  have hw : word = 2 ^ 23 * sectorSize := rfl
  rw [← sb.sectors,← mul_assoc,hw,Nat.mul_mod_mul_right,
    Nat.mul_div_cancel _ (by decide : 0 < sectorSize)]

theorem ext2ReadBlock_some {b : Nat} (h : ext2ReadBlock sb fails b = some bs) :
    bs = sb.img.bytes (b * sb.blockSize % word) sb.blockSize := by
  have hread := readSects_some h
  rwa [sb.address,sb.sectors] at hread

theorem block_of (sb : Super) {j : Nat} (h : j < sb.blockSize - pos % sb.blockSize) :
    (pos + j) / sb.blockSize = pos / sb.blockSize ∧
      (pos + j) % sb.blockSize = pos % sb.blockSize + j := by
  have hlt : pos % sb.blockSize + j < sb.blockSize := by omega
  have hpos : pos + j = pos % sb.blockSize + j + sb.blockSize * (pos / sb.blockSize) := by
    have := Nat.mod_add_div pos sb.blockSize
    omega
  constructor
  · rw [hpos,Nat.add_mul_div_left _ _ sb.pos,Nat.div_eq_of_lt hlt,zero_add]
  · rw [hpos,Nat.add_mul_mod_self_left,Nat.mod_eq_of_lt hlt]

theorem seen_hole (hc : chunk ≤ sb.blockSize - pos % sb.blockSize)
    (h : ext2Bmap sb ip f (pos / sb.blockSize) = 0) :
    List.replicate chunk 0 = (List.range chunk).map fun j => seen sb ip f (pos + j) := by
  refine (eq_replicate_iff.2 ⟨by simp,?_⟩).symm
  intro b hb
  obtain ⟨j,hj,rfl⟩ := mem_map.1 hb
  have hblock := (block_of sb (lt_of_lt_of_le (mem_range.1 hj) hc)).1
  simp only [seen,hblock,h,if_true]

theorem seen_block {blk : List UInt8} (hc : chunk ≤ sb.blockSize - pos % sb.blockSize)
    (h : ext2Bmap sb ip f (pos / sb.blockSize) ≠ 0)
    (hr : ext2ReadBlock sb fails (ext2Bmap sb ip f (pos / sb.blockSize)) = some blk) :
    (blk.drop (pos % sb.blockSize)).take chunk =
      (List.range chunk).map fun j => seen sb ip f (pos + j) := by
  have hblk := ext2ReadBlock_some hr
  have hmod := Nat.mod_lt pos sb.pos
  apply ext_getElem
  · simp only [hblk,Image.bytes,length_take,length_drop,length_map,length_range]
    omega
  intro j hj hj'
  have hlt : j < sb.blockSize - pos % sb.blockSize := by
    simp only [length_map,length_range] at hj'
    omega
  obtain ⟨hdiv,hrem⟩ := block_of sb hlt
  simp only [hblk,Image.bytes,getElem_take,getElem_drop,getElem_map,getElem_range,seen,hdiv,hrem,
    if_neg h]

theorem seen_append : ((List.range total).map fun i => seen sb ip f (off + i)) ++
        ((List.range chunk).map fun j => seen sb ip f (off + total + j)) =
      (List.range (total + chunk)).map fun i => seen sb ip f (off + i) := by
  rw [range_add,map_append,map_map]
  congr 1
  apply map_congr_left
  intro j hj
  simp only [Function.comp_apply,add_assoc]

theorem Reached.le {pos' : Nat} (h : Reached sb ip f off pos) (hle : pos' ≤ pos) :
    Reached sb ip f off pos' :=
  fun lbn hl hlo => h lbn (hl.trans (Nat.div_le_div_right hle)) hlo

theorem reached_of_passes (hbefore : ∀ i < total, Reached sb ip f off (off + i))
    (hpass : Passes sb ip f ((off + total) / sb.blockSize)) : Reached sb ip f off (off + total) := by
  intro lbn hl hlo
  rcases Nat.lt_or_eq_of_le hl with hlt | heq
  · have hend : (lbn + 1) * sb.blockSize ≤ off + total := (Nat.le_div_iff_mul_le sb.pos).1 hlt
    rw [Nat.succ_mul] at hend
    have hpos := sb.pos
    rcases Nat.eq_or_lt_of_le hlo with heq | hlo'
    · have htotal : 0 < total := by
        rcases Nat.eq_zero_or_pos total with rfl | h
        · rw [add_zero] at hlt
          omega
        · exact h
      exact hbefore 0 htotal lbn (by rw [add_zero]; omega) hlo
    · have hoff : off < lbn * sb.blockSize := by
        have := (Nat.div_lt_iff_lt_mul sb.pos).1 hlo'
        omega
      refine hbefore (lbn * sb.blockSize - off) (by omega) lbn ?_ hlo
      rw [Nat.add_sub_cancel' hoff.le,Nat.mul_div_cancel _ sb.pos]
  · rw [heq]
    exact hpass

structure Upto (sb : Super) (ip : Inode) (f : Faults) (off n k : Nat) (r : Option (List UInt8)) :
    Prop where
  le : k ≤ n
  result : r = some ((List.range k).map fun i => seen sb ip f (off + i)) ∨ k = 0 ∧ r = none
  reached : ∀ i < n, i < k ↔ Reached sb ip f off (off + i)

theorem readDataLoop_upto {acc : List UInt8} (hle : total ≤ n)
    (hacc : acc = (List.range total).map fun i => seen sb ip f (off + i))
    (hbefore : ∀ i < total, Reached sb ip f off (off + i)) :
    ∃ k, Upto sb ip f off n k (readDataLoop sb ip f off n acc total) := by
  induction hm : n - total using Nat.strong_induction_on generalizing acc total with
  | _ m ih =>
    have hmod := Nat.mod_lt (off + total) sb.pos
    rw [readDataLoop]
    split
    case isFalse hdone =>
      have heq : total = n := by omega
      subst heq
      exact ⟨total,le_rfl,.inl (by rw [hacc]),fun i hi => ⟨fun _ => hbefore i hi,fun _ => hi⟩⟩
    case isTrue hlt =>
      dsimp only
      generalize hchunk : min (sb.blockSize - (off + total) % sb.blockSize) (n - total) = chunk
      have hc : chunk ≤ sb.blockSize - (off + total) % sb.blockSize := by omega
      have hnext : Passes sb ip f ((off + total) / sb.blockSize) →
          ∀ i < total + chunk, Reached sb ip f off (off + i) := by
        intro hpass i hi
        rcases lt_or_ge i total with hi' | hi'
        · exact hbefore i hi'
        intro lbn hl hlo
        have hblock := (block_of sb (show i - total < sb.blockSize - (off + total) % sb.blockSize by
          omega)).1
        rw [add_assoc,Nat.add_sub_cancel' hi'] at hblock
        rw [hblock] at hl
        exact reached_of_passes hbefore hpass lbn hl hlo
      split
      case isTrue hhole =>
        refine ih _ ?_ (by omega) ?_ (hnext (.inl hhole)) rfl
        · omega
        · rw [hacc,seen_hole hc hhole,seen_append]
      case isFalse hphys =>
        split
        case h_1 hnone =>
          have hstop : ¬ Reached sb ip f off (off + total) := by
            intro hr
            rcases hr _ le_rfl (Nat.div_le_div_right (Nat.le_add_right off total)) with h | h
            · exact hphys h
            · rw [hnone] at h
              exact nomatch h
          refine ⟨total,hle,?_,fun i hi => ⟨fun h => hbefore i h,fun h => ?_⟩⟩
          · split
            case isTrue h0 => exact .inr ⟨h0,rfl⟩
            case isFalse => exact .inl (by rw [hacc])
          · by_contra hge
            exact hstop (h.le (by omega))
        case h_2 blk hsome =>
          refine ih _ ?_ (by omega) ?_ (hnext (.inr (by rw [hsome]; rfl))) rfl
          · omega
          · rw [hacc,seen_block hc hphys hsome,seen_append]

theorem clipped (h : off + n < word) (hsize : off < ip.size) :
    (if ip.size < (off + n) % word then ip.size - off else n) = min n (ip.size - off) := by
  rw [Nat.mod_eq_of_lt h]
  split <;> omega

theorem ext2ReadData_upto (h : off + n < word) (hsize : off < ip.size) (hblk : f.blk = false) :
    ∃ k, Upto sb ip f off (min n (ip.size - off)) k (ext2ReadData sb ip f off n) := by
  unfold ext2ReadData
  rw [if_neg (not_le.2 hsize)]
  dsimp only
  rw [hblk,clipped h hsize]
  exact readDataLoop_upto (Nat.zero_le _) rfl fun i hi => absurd hi (Nat.not_lt_zero i)

def Reads (sb : Super) (ip : Inode) (f : Faults) (lbn : Nat) : Prop :=
  mapped sb ip lbn = 0 ∨ (ext2ReadBlock sb (f.data lbn) (mapped sb ip lbn)).isSome

structure Plain (sb : Super) (ip : Inode) (f : Faults) (lbn : Nat) : Prop where
  table : lbn < 12 ∨ ip.iblock 12 * sb.blockSize < word ∧
    (mapped sb ip lbn = 0 ∨ lbn - 12 < sb.blockSize / 4 ∧ f.buf lbn = false ∧
      (ext2ReadBlock sb (f.table lbn) (ip.iblock 12)).isSome)
  low : Reads sb ip f lbn → mapped sb ip lbn * sb.blockSize < word

theorem u32At_bytes {a m j : Nat} (h : j + 4 ≤ m) : u32At (img.bytes a m) j = img.u32 (a + j) := by
  have hbyte : ∀ k < m, byteAt (img.bytes a m) k = (img.byte (a + k)).toNat := by
    intro k hk
    simp [byteAt,Image.bytes,hk]
  simp only [Image.u32,u32At,u16At,hbyte _ (show j < m by omega),hbyte _ (show j + 1 < m by omega),
    hbyte _ (show j + 2 < m by omega),hbyte _ (show j + 2 + 1 < m by omega)]
  simp [byteAt,Image.bytes,range_succ,add_assoc]

theorem table_entry {k : Nat} {buf : List UInt8} (hk : k < sb.blockSize / 4)
    (hind : ip.iblock 12 ≠ 0) (hlow : ip.iblock 12 * sb.blockSize < word)
    (hr : ext2ReadBlock sb fails (ip.iblock 12) = some buf) :
    u32At buf (k * 4) = entry sb (ip.iblock 12) k := by
  rw [ext2ReadBlock_some hr,u32At_bytes (by omega),Nat.mod_eq_of_lt hlow,entry,if_neg hind]

theorem Plain.bmap (h : Plain sb ip f lbn) : ext2Bmap sb ip f lbn = mapped sb ip lbn := by
  by_cases hdir : lbn < 12
  · unfold ext2Bmap mapped
    dsimp only
    rw [if_pos hdir,if_pos hdir]
  obtain ⟨hlow,hrest⟩ := h.table.resolve_left hdir
  by_cases hper : lbn - 12 < sb.blockSize / 4
  · have hmap : mapped sb ip lbn = entry sb (ip.iblock 12) (lbn - 12) := by
      unfold mapped
      dsimp only
      rw [if_neg hdir,if_pos hper]
    unfold ext2Bmap
    rw [if_neg hdir,if_pos hper]
    split
    case isTrue hind => rw [hmap,entry,if_pos hind]
    case isFalse hind =>
      split
      case isTrue hbuf =>
        rcases hrest with h0 | ⟨-,hb,-⟩
        · exact h0.symm
        · rw [hb] at hbuf
          exact nomatch hbuf
      case isFalse =>
        split
        case h_1 hnone =>
          rcases hrest with h0 | ⟨-,-,hs⟩
          · exact h0.symm
          · rw [hnone] at hs
            exact nomatch hs
        case h_2 buf hsome => rw [table_entry hper hind hlow hsome,hmap]
  · have h0 : mapped sb ip lbn = 0 := hrest.resolve_right fun hp => hper hp.1
    unfold ext2Bmap
    rw [if_neg hdir,if_neg hper,h0]

theorem Plain.reads (h : Plain sb ip f lbn) : Passes sb ip f lbn ↔ Reads sb ip f lbn := by
  rw [Passes,Reads,h.bmap]

theorem Plain.seen (h : Plain sb ip f (pos / sb.blockSize))
    (hr : Reads sb ip f (pos / sb.blockSize)) : seen sb ip f pos = fileByte sb ip pos := by
  unfold Ext2Read.seen fileByte
  dsimp only
  rw [h.bmap,Nat.mod_eq_of_lt (h.low hr)]

theorem Reached.seen (hreach : Reached sb ip f off pos) (hpos : off ≤ pos)
    (hplain : ∀ lbn ≤ pos / sb.blockSize, off / sb.blockSize ≤ lbn →
      (∀ l < lbn, off / sb.blockSize ≤ l → Reads sb ip f l) → Plain sb ip f lbn) :
    seen sb ip f pos = fileByte sb ip pos := by
  have hall : ∀ lbn ≤ pos / sb.blockSize, off / sb.blockSize ≤ lbn →
      Plain sb ip f lbn ∧ Reads sb ip f lbn := by
    intro lbn
    induction lbn using Nat.strong_induction_on with
    | _ lbn ih =>
      intro hle hlo
      have hp := hplain lbn hle hlo fun l hl hlo => (ih l hl (by omega) hlo).2
      exact ⟨hp,hp.reads.mp (hreach lbn hle hlo)⟩
  obtain ⟨hp,hr⟩ := hall _ le_rfl (Nat.div_le_div_right hpos)
  exact hp.seen hr

def sampleByte (a : Nat) : UInt8 :=
  if a = 1080 then 0x53
  else if a = 1081 then 0xEF
  else if a = 20 * 1024 then 21
  else if a = 21 * 1024 then 7
  else if a = 22 * 1024 then 23
  else if a = 23 * 1024 then 24
  else if a = 24 * 1024 then 9
  else 0

def sampleSuper : Super where
  img := ⟨64,sampleByte⟩
  blockSize := 1024
  accepted := by decide +kernel

def sampleInode : Inode where
  size := (12 + 256 + 1) * 1024
  iblock b := if b = 12 then 20 else if b = 13 then 22 else 0

def noFaults : Faults := ⟨false,fun _ => false,fun _ _ => false,fun _ _ => false⟩

theorem Faithful.first {b : UInt8}
    (h : Faithful sb ip off n (some (b :: bs))) : fileByte sb ip off = b :=
  (Option.some.inj ((h _ rfl).2 0 (Nat.succ_pos _))).symm

end TinyOs.Ext2Read
