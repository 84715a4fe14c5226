import TinyOs.Ext2.ReadData

namespace TinyOs.Ext2Mount

open Ext2Read (Image Super ext2ReadSuper ext2ReadBlock blkdevReadSect)

def rootIno : Nat := 2

def diskInodeSize : Nat := 116

structure SbInfo where
  blockSize : Nat
  inodesPerGroup : Nat
  inodeSize : Nat
  inodeTable : Nat

structure Env where
  sbi : Bool
  sect : Bool
  gdtBuf : Bool
  gdt : Nat → Bool
  noSlot : Bool
  buf : Bool
  table : Nat → Bool
  beyond : Nat → UInt8

inductive Answer (α : Type) where
  | null
  | divides
  | got (a : α)

def supported (mode : Nat) : Bool := mode &&& 0xF000 = 0x4000 ∨ mode &&& 0xF000 = 0x8000

namespace SbInfo

variable (sbi : SbInfo)

def offset (index : Nat) : Nat := index * sbi.inodeSize % word

def din (env : Env) (blk : List UInt8) (index : Nat) : List UInt8 :=
  ((blk ++ (List.range diskInodeSize).map env.beyond).drop (sbi.offset index % sbi.blockSize)).take
    (min diskInodeSize sbi.inodeSize)

end SbInfo

def ext2Iget (sb : Super) (sbi : SbInfo) (env : Env) (inum : Nat) : Answer (List UInt8) :=
  if inum = 0 ∨ env.noSlot then .null
  else if sbi.inodesPerGroup = 0 then .divides
  else if (inum - 1) / sbi.inodesPerGroup ≠ 0 ∨ env.buf then .null
  else
    let index := (inum - 1) % sbi.inodesPerGroup
    match ext2ReadBlock sb env.table
        ((sbi.inodeTable + sbi.offset index / sbi.blockSize) % word) with
    | none => .null
    | some blk =>
      if supported (u16At (sbi.din env blk index) 0) then .got (sbi.din env blk index) else .null

def inodesPerGroup (img : Image) : Nat := img.u32 (1024 + 40)

def inodeSize (img : Image) : Nat :=
  max 128 (if 1 ≤ img.u32 (1024 + 76) then img.u16 (1024 + 88) else 128)

def ext2ReadGdt (img : Image) (env : Env) : Option (Super × List UInt8) :=
  if env.sbi ∨ (blkdevReadSect img env.sect 2).isNone then none
  else
    match h : ext2ReadSuper img with
    | none => none
    | some blockSize =>
      if env.gdtBuf then none
      else
        (ext2ReadBlock ⟨img,blockSize,h⟩ env.gdt ((img.u32 (1024 + 20) + 1) % word)).map
          fun gd => (⟨img,blockSize,h⟩,gd)

def sbInfo (sb : Super) (gd : List UInt8) : SbInfo :=
  ⟨sb.blockSize,inodesPerGroup sb.img,inodeSize sb.img,u32At gd 8⟩

def ext2FillSuper (img : Image) (env : Env) : Answer SbInfo :=
  match ext2ReadGdt img env with
  | none => .null
  | some (sb,gd) =>
    match ext2Iget sb (sbInfo sb gd) env rootIno with
    | .null => .null
    | .divides => .divides
    | .got _ => .got (sbInfo sb gd)

structure SbInfo.Valid (sbi : SbInfo) : Prop where
  blockSize : sbi.blockSize = 1024 ∨ sbi.blockSize = 2048 ∨ sbi.blockSize = 4096
  inodesPerGroup : 0 < sbi.inodesPerGroup
  inodeSize : 128 ≤ sbi.inodeSize ∧ sbi.inodeSize ∣ sbi.blockSize

def Sound : Answer SbInfo → Prop
  | .null => True
  | .divides => False
  | .got sbi => sbi.Valid ∧
      (∀ sb env inum, ext2Iget sb sbi env inum ≠ .divides) ∧
      ∀ index, sbi.offset index % sbi.blockSize + diskInodeSize ≤ sbi.blockSize

def RootUsable (sb : Super) (gd : List UInt8) (env : Env) : Prop :=
  env.noSlot = false ∧ (inodesPerGroup sb.img = 0 ∨ 2 ≤ inodesPerGroup sb.img ∧ env.buf = false ∧
    ∃ blk, ext2ReadBlock sb env.table
        ((u32At gd 8 + (sbInfo sb gd).offset 1 / sb.blockSize) % word) = some blk ∧
      supported (u16At ((sbInfo sb gd).din env blk 1) 0))

def Sane (img : Image) : Prop :=
  0 < inodesPerGroup img ∧ ∀ blockSize ∈ ext2ReadSuper img, inodeSize img ∣ blockSize

variable {img : Image} {env : Env} {sb : Super} {gd : List UInt8} {sbi : SbInfo}

theorem iget_divides_iff {inum : Nat} : ext2Iget sb sbi env inum = .divides ↔
      inum ≠ 0 ∧ env.noSlot = false ∧ sbi.inodesPerGroup = 0 := by
  unfold ext2Iget
  split
  · rename_i h
    simp only [reduceCtorEq,false_iff]
    rintro ⟨hi,hs,-⟩
    rcases h with h | h
    · exact hi h
    · rw [hs] at h
      cases h
  rename_i h
  rw [not_or,Bool.not_eq_true] at h
  split
  · rename_i hz
    exact iff_of_true rfl ⟨h.1,h.2,hz⟩
  rename_i hz
  refine iff_of_false (fun hd => ?_) fun hd => hz hd.2.2
  split at hd
  · cases hd
  dsimp only at hd
  split at hd
  · cases hd
  · split at hd <;> cases hd

theorem iget_root_iff : ext2Iget sb (sbInfo sb gd) env rootIno ≠ .null ↔ RootUsable sb gd env := by
  unfold RootUsable
  rcases hslot : env.noSlot
  swap
  · simp [ext2Iget,hslot]
  rcases Nat.eq_zero_or_pos (inodesPerGroup sb.img) with hz | hpos
  · simp [ext2Iget,hslot,hz,rootIno,sbInfo]
  rcases lt_or_ge 1 (inodesPerGroup sb.img) with hlt | hone
  · have hdiv : (rootIno - 1) / inodesPerGroup sb.img = 0 := Nat.div_eq_of_lt hlt
    have hmod : (rootIno - 1) % inodesPerGroup sb.img = 1 := Nat.mod_eq_of_lt hlt
    have hroot : ¬ rootIno = 0 := by decide
    cases hbuf : env.buf
    swap
    · simp [ext2Iget,hslot,hroot,hbuf,sbInfo]
    simp only [ext2Iget,hslot,hroot,hpos.ne',hbuf,sbInfo,hdiv,hmod,or_self,Bool.false_eq_true,
      if_false,ne_eq,not_true,true_and,false_or]
    split
    · rename_i hnone
      simp [hnone]
    rename_i blk hblk
    simp only [hblk,Option.some.injEq,exists_eq_left']
    split
    · rename_i hmode
      exact iff_of_true (fun h => by cases h) ⟨hlt,hmode⟩
    · rename_i hmode
      exact iff_of_false (fun h => h rfl) fun h => hmode h.2
  · have heq : inodesPerGroup sb.img = 1 := by omega
    simp [ext2Iget,hslot,heq,rootIno,sbInfo]

theorem gdt_image (h : ext2ReadGdt img env = some (sb,gd)) : sb.img = img := by
  unfold ext2ReadGdt at h
  split at h
  · cases h
  split at h
  · cases h
  split at h
  · cases h
  · obtain ⟨_,-,hpair⟩ := Option.map_eq_some_iff.mp h
    rw [← (Prod.mk.inj hpair).1]

theorem SbInfo.Valid.inside (h : sbi.Valid) (index : Nat) :
    sbi.offset index % sbi.blockSize + diskInodeSize ≤ sbi.blockSize := by
  obtain ⟨hbytes,hdvd⟩ := h.inodeSize
  have hword : sbi.blockSize ∣ word := by
    rcases h.blockSize with hb | hb | hb <;> rw [hb] <;> decide
  have hpos : 0 < sbi.blockSize := by rcases h.blockSize with hb | hb | hb <;> omega
  rw [SbInfo.offset,Nat.mod_mod_of_dvd _ hword]
  obtain ⟨a,ha⟩ := (Nat.dvd_mod_iff hdvd).mpr (dvd_mul_left sbi.inodeSize index)
  have hlt := Nat.mod_lt (index * sbi.inodeSize) hpos
  obtain ⟨b,hb⟩ := hdvd
  rw [ha,hb] at hlt ⊢
  have hab : a + 1 ≤ b := Nat.lt_of_mul_lt_mul_left hlt
  have hmul := Nat.mul_le_mul_left sbi.inodeSize hab
  rw [Nat.mul_succ] at hmul
  unfold diskInodeSize
  omega

theorem fill_super_validates (img : Image) (env : Env) : Sound (ext2FillSuper img env) ↔
      ∀ sb gd, ext2ReadGdt img env = some (sb,gd) → RootUsable sb gd env → Sane img := by
  unfold ext2FillSuper
  rcases hgdt : ext2ReadGdt img env with _ | ⟨sb,gd⟩
  · exact iff_of_true trivial fun _ _ h => by cases h
  obtain rfl := gdt_image hgdt
  have hone : (∀ sb' gd', some (sb,gd) = some (sb',gd') → RootUsable sb' gd' env → Sane sb.img) ↔
      (ext2Iget sb (sbInfo sb gd) env rootIno ≠ .null → Sane sb.img) := by
    rw [iget_root_iff]
    refine ⟨fun h => h sb gd rfl,fun h sb' gd' heq => ?_⟩
    obtain ⟨rfl,rfl⟩ := Prod.mk.inj (Option.some.inj heq)
    exact h
  rw [hone]
  dsimp only
  cases hget : ext2Iget sb (sbInfo sb gd) env rootIno with
  | null => exact iff_of_true trivial fun h => absurd rfl h
  | divides =>
    refine iff_of_false id fun h => ?_
    exact (h fun hn => by cases hn).1.ne' (iget_divides_iff.mp hget).2.2
  | got din =>
    constructor
    · rintro ⟨hvalid,-⟩ -
      refine ⟨hvalid.inodesPerGroup,fun blockSize hb => ?_⟩
      obtain rfl := Option.some.inj (sb.accepted.symm.trans hb)
      exact hvalid.inodeSize.2
    intro h
    obtain ⟨hpos,hdvd⟩ := h fun hn => by cases hn
    have hvalid : (sbInfo sb gd).Valid := ⟨sb.sizes,hpos,le_max_left _ _,hdvd _ sb.accepted⟩
    refine ⟨hvalid,fun sb' env' inum hd => ?_,hvalid.inside⟩
    exact hvalid.inodesPerGroup.ne' (iget_divides_iff.mp hd).2.2

def quiet : Env := ⟨false,false,false,fun _ => false,false,false,fun _ => false,fun _ => 0⟩

def unaligned : Image where
  capacity := 64
  byte a :=
    if a = 1044 then 1 else if a = 1064 then 8 else if a = 1080 then 0x53
    else if a = 1081 then 0xEF else if a = 1100 then 1 else if a = 1112 then 200
    else if a = 2056 then 5 else if a = 5321 then 0x41 else 0

def unalignedMount : Answer SbInfo → Bool
  | .got sbi => sbi.blockSize = 1024 ∧ sbi.inodeSize = 200
  | _ => false

theorem not_sound_of_unaligned {r : Answer SbInfo} (h : unalignedMount r = true) : ¬ Sound r := by
  cases r with
  | null | divides => cases h
  | got sbi =>
    obtain ⟨hblock,hinode⟩ := of_decide_eq_true h
    intro hsound
    have hdvd := hsound.1.inodeSize.2
    rw [hblock,hinode] at hdvd
    exact absurd hdvd (by decide)

theorem fill_super_mounts_unaligned : ¬ Sound (ext2FillSuper unaligned quiet) :=
  not_sound_of_unaligned (by decide +kernel)

end TinyOs.Ext2Mount
