import TinyOs.Ext2.Lookup

namespace TinyOs.Readdir

open List
open Ext2Read (Super Inode Faults Plain Reads fileByte mapped)
open Fs (dirSiz)

def esz : Nat := 39

def dentrySize : Nat := 36

def bounce : Nat := 128

structure Item where
  ino : Nat
  type : UInt8
  name : List UInt8

def nameField (name : List UInt8) : List UInt8 :=
  name.take (dirSiz - 1) ++ List.replicate (dirSiz - (name.take (dirSiz - 1)).length) 0

def Item.record (it : Item) (dOff : Nat) : List UInt8 :=
  le32 it.ino ++ le32 dOff ++ [UInt8.ofNat esz,0,it.type] ++ nameField it.name

def ramfsLoop (idx off : Nat) : Nat → Nat → List UInt8 → List Item → List UInt8
  | _, _, dst, [] => dst
  | i, n, dst, d :: ds =>
    if i < idx then ramfsLoop idx off (i + 1) n dst ds
    else if n < esz then dst
    else ramfsLoop idx off (i + 1) (n - esz) (dst ++ d.record (off + dst.length + esz)) ds

def ramfsReaddir (dents : List Item) (off n : Nat) : Option (List UInt8) :=
  if off % esz ≠ 0 then none else some (ramfsLoop (off / esz) off 0 n [] dents)

def ftToDtype (ft : Nat) : UInt8 :=
  if ft = 1 then 8 else if ft = 2 then 4 else if ft = 3 then 2 else if ft = 4 then 6 else 0

def item (sb : Super) (de : Ext2Dir.Entry) : Item where
  ino := de.inode
  type := if sb.img.u32 (1024 + 96) &&& 2 ≠ 0 then ftToDtype de.fileType else 0
  name := de.bytes

structure Arg where
  seen : Nat
  nleft : Nat
  dst : List UInt8

def readdirCb (sb : Super) (skip off : Nat) (de : Ext2Dir.Entry) (a : Arg) : Arg × Int :=
  if a.seen < skip then ({ a with seen := a.seen + 1 },0)
  else if a.nleft < esz then (a,1)
  else (⟨a.seen + 1,a.nleft - esz,a.dst ++ (item sb de).record (off + a.dst.length + esz)⟩,0)

def ext2Readdir (sb : Super) (dir : Inode) (f : Faults) (off n : Nat) : Option (List UInt8) :=
  if off % esz ≠ 0 then none
  else some (Ext2Dir.ext2DirIterate sb dir f (readdirCb sb (off / esz) off) ⟨0,n,[]⟩).1.dst

-- The reads at one offset may fail otherwise than those at another.
inductive Directory where
  | ramfs (dents : List Item) (fits : dentrySize * dents.length ≤ physmemTopMax)
  | ext2 (sb : Super) (dir : Inode) (f : Nat → Faults)

def diskBlock (sb : Super) (dir : Inode) (lbn : Nat) : List UInt8 :=
  (List.range sb.blockSize).map fun j => fileByte sb dir (lbn * sb.blockSize + j)

def diskEntry (sb : Super) (dir : Inode) (off : Nat) : Ext2Dir.Entry :=
  ⟨diskBlock sb dir (off / sb.blockSize),off % sb.blockSize⟩

def diskEntries (sb : Super) (dir : Inode) (off : Nat) : List Ext2Dir.Entry :=
  if off < dir.size then
    let de := diskEntry sb dir off
    if _h : de.recLen < 8 ∨ sb.blockSize < de.pos + de.recLen then []
    else (if de.live then [de] else []) ++ diskEntries sb dir (off + de.recLen)
  else []
termination_by dir.size - off
decreasing_by
  have hlen : 8 ≤ (diskEntry sb dir off).recLen := not_lt.mp (not_or.mp _h).1
  omega

namespace Directory

def items : Directory → List Item
  | .ramfs dents _ => dents
  | .ext2 sb dir _ => (diskEntries sb dir 0).map (item sb)

def Readable : Directory → Prop
  | .ramfs _ _ => True
  | .ext2 sb dir f => ∀ off, (f off).blk = false ∧ ∀ lbn, lbn * sb.blockSize < dir.size →
      Plain sb dir (f off) lbn ∧ Reads sb dir (f off) lbn

def readi : Directory → Nat → Nat → Option (List UInt8)
  | .ramfs dents _ => ramfsReaddir dents
  | .ext2 sb dir f => fun off => ext2Readdir sb dir (f off) off

def sysRead (d : Directory) (off n : Nat) (buf : List UInt8) : Option (List UInt8 × Nat) :=
  if n = 0 then some (buf,off)
  else
    match d.readi off (min n bounce) with
    | none => none
    | some r =>
      if _h : r.length < min n bounce then some (buf ++ r,(off + r.length) % word)
      else sysRead d ((off + r.length) % word) (n - r.length) (buf ++ r)
termination_by n
decreasing_by
  unfold bounce at _h
  omega

def readAll (d : Directory) : Nat → List Nat → Option (List UInt8 × Bool)
  | _, [] => some ([],false)
  | off, n :: ns =>
    (d.sysRead off n []).bind fun (r,off) =>
      if r = [] then some ([],true)
      else (d.readAll off ns).map fun rest => (r ++ rest.1,rest.2)

end Directory

def records (off : Nat) : List Item → List UInt8
  | [] => []
  | it :: its => it.record (off + esz) ++ records (off + esz) its

variable {d : Directory} {off n i : Nat}

theorem record_length (it : Item) (dOff : Nat) : (it.record dOff).length = esz := by
  have hname : (nameField it.name).length = dirSiz := by
    have := length_take_le (dirSiz - 1) it.name
    rw [nameField,length_append,length_replicate]
    unfold dirSiz at *
    omega
  rw [Item.record,length_append,length_append,hname]
  rfl

theorem records_length (off : Nat) (its : List Item) :
    (records off its).length = esz * its.length := by
  induction its generalizing off with
  | nil => rfl
  | cons it its ih =>
    rw [records,length_append,record_length,ih,length_cons,Nat.mul_succ,add_comm]

theorem records_append (off : Nat) (its more : List Item) :
    records off (its ++ more) = records off its ++ records (off + esz * its.length) more := by
  induction its generalizing off with
  | nil => rfl
  | cons it its ih =>
    rw [cons_append,records,ih,records,append_assoc,length_cons,Nat.mul_succ,add_right_comm,
      add_assoc]

theorem ramfsLoop_eq (idx off i n : Nat) (dst : List UInt8) (ds : List Item) :
    ramfsLoop idx off i n dst ds =
      dst ++ records (off + dst.length) ((ds.drop (idx - i)).take (n / esz)) := by
  induction ds generalizing i n dst with
  | nil => rw [ramfsLoop,drop_nil,take_nil,records,append_nil]
  | cons d ds ih =>
    rw [ramfsLoop]
    split
    · rename_i hlt
      rw [ih,show idx - i = idx - (i + 1) + 1 by omega,drop_succ_cons]
    rename_i hge
    rw [show idx - i = 0 by omega,drop_zero]
    split
    · rename_i hfull
      rw [Nat.div_eq_of_lt hfull,take_zero,records,append_nil]
    rename_i hroom
    rw [ih,show idx - (i + 1) = 0 by omega,drop_zero,length_append,record_length,← add_assoc,
      append_assoc,Nat.div_eq_sub_div (by decide) (not_lt.mp hroom),take_succ_cons,records]

theorem feed_readdir (sb : Super) (skip off : Nat) (des : List Ext2Dir.Entry) (a : Arg) :
    (Ext2Dir.feed (readdirCb sb skip off) des a).1.dst =
      ramfsLoop skip off a.seen a.nleft a.dst (des.map (item sb)) := by
  induction des generalizing a with
  | nil => rfl
  | cons de des ih =>
    rw [Ext2Dir.feed,readdirCb,map_cons,ramfsLoop]
    split
    · exact ih _
    split
    · rfl
    · exact ih _

theorem fileByte_block (sb : Super) (dir : Inode) (lbn : Nat) {j : Nat} (hj : j < sb.blockSize) :
    fileByte sb dir (lbn * sb.blockSize + j) =
      if mapped sb dir lbn = 0 then 0 else sb.img.byte (mapped sb dir lbn * sb.blockSize + j) := by
  rw [fileByte,Nat.mul_comm lbn,Nat.mul_add_div sb.pos,Nat.div_eq_of_lt hj,add_zero,Nat.mul_add_mod,
    Nat.mod_eq_of_lt hj]

theorem loadBlock_disk {sb : Super} {dir : Inode} {f : Faults} {lbn : Nat}
    (h : Plain sb dir f lbn) (hr : Reads sb dir f lbn) : Ext2Dir.loadBlock sb dir f lbn =
      if mapped sb dir lbn = 0 then none else some (diskBlock sb dir lbn) := by
  rw [Ext2Dir.loadBlock,h.bmap]
  split
  · rfl
  rename_i hne
  obtain ⟨bs,hbs⟩ := Option.isSome_iff_exists.mp (hr.resolve_left hne)
  rw [hbs,Ext2Read.ext2ReadBlock_some hbs,Nat.mod_eq_of_lt (h.low hr),diskBlock,Ext2Read.Image.bytes]
  congr 1
  refine map_congr_left fun j hj => ?_
  rw [fileByte_block sb dir lbn (mem_range.mp hj),if_neg hne]

theorem diskBlock_hole {sb : Super} {dir : Inode} {lbn : Nat} (h : mapped sb dir lbn = 0) (i : Nat) :
    byteAt (diskBlock sb dir lbn) i = 0 := by
  rw [byteAt,diskBlock,getD_eq_getElem?_getD]
  rcases lt_or_ge i sb.blockSize with hlt | hge
  · simp [hlt,fileByte_block sb dir lbn hlt,h]
  · simp [hge]

theorem record_disk {sb : Super} {dir : Inode} {f : Faults} {off : Nat} {blk : List UInt8}
    (hblk : off % sb.blockSize ≠ 0 → blk = diskBlock sb dir (off / sb.blockSize))
    (h : Plain sb dir f (off / sb.blockSize)) (hr : Reads sb dir f (off / sb.blockSize)) :
    Ext2Dir.record sb dir f off blk =
      if (diskEntry sb dir off).recLen < 8 ∨
        sb.blockSize < (diskEntry sb dir off).pos + (diskEntry sb dir off).recLen then none
      else some (diskEntry sb dir off) := by
  rw [Ext2Dir.record]
  split
  · rw [loadBlock_disk h hr]
    split
    · rename_i hzero
      have hlen : (diskEntry sb dir off).recLen = 0 := by
        simp [Ext2Dir.Entry.recLen,diskEntry,u16At,diskBlock_hole hzero]
      rw [if_pos (.inl (by rw [hlen]; decide))]
      rfl
    · rfl
  · rename_i hne
    rw [hblk hne]
    rfl

theorem chainFrom_disk {sb : Super} {dir : Inode} {f : Faults}
    (h : ∀ lbn, lbn * sb.blockSize < dir.size → Plain sb dir f lbn ∧ Reads sb dir f lbn) (off : Nat)
    (blk : List UInt8) (hblk : off % sb.blockSize ≠ 0 → blk = diskBlock sb dir (off / sb.blockSize)) :
    (Ext2Dir.chainFrom sb dir f off blk).map (·.2) = diskEntries sb dir off := by
  induction hm : dir.size - off using Nat.strong_induction_on generalizing off blk with
  | _ m ih =>
    rw [diskEntries]
    split
    swap
    · rename_i hge
      rw [Ext2Dir.chainFrom_stop fun hlt => absurd hlt hge]
      rfl
    rename_i hlt
    obtain ⟨hp,hr⟩ := h (off / sb.blockSize) (lt_of_le_of_lt (Nat.div_mul_le_self _ _) hlt)
    have hrec := record_disk hblk hp hr
    dsimp only
    split
    · rename_i hbad
      rw [if_pos hbad] at hrec
      rw [Ext2Dir.chainFrom_stop fun _ => hrec]
      rfl
    rename_i hok
    rw [if_neg hok] at hrec
    rw [Ext2Dir.chainFrom_some hlt hrec,map_append,ih _ ?_ _ _ ?_ rfl]
    · split <;> rfl
    · have := not_lt.mp (not_or.mp hok).1
      omega
    · intro hne
      have hin : (diskEntry sb dir off).recLen < sb.blockSize - off % sb.blockSize := by
        have hle : off % sb.blockSize + (diskEntry sb dir off).recLen ≤ sb.blockSize :=
          not_lt.mp (not_or.mp hok).2
        refine lt_of_le_of_ne (by omega) fun heq => hne ?_
        have hmod := Nat.mod_add_div off sb.blockSize
        rw [show off + (diskEntry sb dir off).recLen =
          sb.blockSize * (off / sb.blockSize + 1) by rw [mul_add]; omega]
        exact Nat.mul_mod_right _ _
      rw [(Ext2Read.block_of sb hin).1]
      rfl

namespace Directory

theorem entries_disk {sb : Super} {dir : Inode} {f : Nat → Faults}
    (h : (Directory.ext2 sb dir f).Readable) (off : Nat) :
    Ext2Dir.entries sb dir (f off) = diskEntries sb dir 0 := by
  obtain ⟨hblk,hall⟩ := h off
  rw [Ext2Dir.entries,Ext2Dir.chain,hblk]
  exact chainFrom_disk hall 0 [] fun hne => absurd (Nat.zero_mod _) hne

theorem readi_eq (h : d.Readable) (i n : Nat) :
    d.readi (esz * i) n = some (records (esz * i) ((d.items.drop i).take (n / esz))) := by
  have hmod : ¬ esz * i % esz ≠ 0 := not_not.mpr (Nat.mul_mod_right _ _)
  have hdiv : esz * i / esz = i := Nat.mul_div_cancel_left _ (by decide)
  cases d with
  | ramfs dents fits =>
    rw [readi,ramfsReaddir,if_neg hmod,hdiv,ramfsLoop_eq]
    rfl
  | ext2 sb dir f =>
    obtain ⟨e,-,heq⟩ :=
      Ext2Dir.iterate_feed sb dir (f (esz * i)) (readdirCb sb i (esz * i)) ⟨0,n,[]⟩
    rw [readi]
    dsimp only
    rw [ext2Readdir,if_neg hmod,hdiv,heq,feed_readdir,ramfsLoop_eq,entries_disk h]
    rfl

theorem items_length (h : d.Readable) : esz * d.items.length < word := by
  have hword : word = 2 ^ 32 := rfl
  unfold esz
  cases d with
  | ramfs dents fits =>
    have hfits : 36 * dents.length ≤ 0x38000000 := fits
    rw [items]
    omega
  | ext2 sb dir f =>
    have := Ext2Dir.entries_length sb dir (f 0)
    rw [entries_disk h] at this
    rw [items,length_map]
    omega

theorem sysRead_spec (h : d.Readable) (hi : i ≤ d.items.length) (hn : esz ≤ n) : ∃ k,
    d.sysRead (esz * i) n [] =
        some (records (esz * i) ((d.items.drop i).take k),esz * (i + k)) ∧
      i + k ≤ d.items.length ∧ (k = 0 → i = d.items.length) := by
  have hbound := items_length h
  obtain ⟨c,hc⟩ : ∃ c, min n bounce / esz = c := ⟨_,rfl⟩
  obtain ⟨k,hk⟩ : ∃ k, min c (d.items.length - i) = k := ⟨_,rfl⟩
  have hpos : 1 ≤ c := hc ▸ Nat.div_pos (le_min hn (by decide)) (by decide)
  have hle : esz * c ≤ min n bounce := hc ▸ Nat.mul_div_le _ _
  have htake : (d.items.drop i).take c = (d.items.drop i).take k := by
    rw [take_eq_take_min,length_drop,hk]
  have hlen : (records (esz * i) ((d.items.drop i).take k)).length = esz * k := by
    rw [records_length,length_take,length_drop,min_eq_left (by omega)]
  have hoff : (esz * i + esz * k) % word = esz * (i + k) := by
    rw [← mul_add]
    exact Nat.mod_eq_of_lt (lt_of_le_of_lt (Nat.mul_le_mul_left _ (by omega)) hbound)
  refine ⟨k,?_,by omega,by omega⟩
  · rw [sysRead,if_neg (by unfold esz at hn; omega),readi_eq h,hc,htake]
    dsimp only
    rw [hlen,hoff]
    split
    · rfl
    rename_i hfull
    rw [show n - esz * k = 0 by unfold esz bounce at *; omega,sysRead,if_pos rfl]
    rfl

theorem readAll_spec (h : d.Readable) (sizes : List Nat) (hsizes : ∀ n ∈ sizes, esz ≤ n)
    (hi : i ≤ d.items.length) :
    ∃ m done, d.readAll (esz * i) sizes = some (records (esz * i) ((d.items.drop i).take m),done) ∧
      (done = true → d.items.length ≤ i + m) ∧ (d.items.length - i < sizes.length → done = true) := by
  induction sizes generalizing i with
  | nil => exact ⟨0,false,rfl,(fun h => by cases h),fun h => by cases h⟩
  | cons n ns ih =>
    rw [forall_mem_cons] at hsizes
    obtain ⟨k,hread,hk,hend⟩ := sysRead_spec h hi hsizes.1
    obtain ⟨m,done,hrest,hdone,hlong⟩ := ih hsizes.2 hk
    rw [readAll,hread,Option.bind_some]
    dsimp only
    rcases Nat.eq_zero_or_pos k with rfl | hpos
    · exact ⟨0,true,by rw [take_zero,records,if_pos rfl],fun _ => (hend rfl).ge,fun _ => rfl⟩
    have hlen : ((d.items.drop i).take k).length = k := by
      rw [length_take,length_drop]
      omega
    have hne : records (esz * i) ((d.items.drop i).take k) ≠ [] := by
      refine ne_nil_of_length_pos ?_
      rw [records_length,hlen]
      exact mul_pos (by decide) hpos
    refine ⟨k + m,done,?_,fun h => by rw [← add_assoc]; exact hdone h,fun h => hlong ?_⟩
    · rw [if_neg hne,hrest,take_add,records_append,hlen,← mul_add,drop_drop]
      rfl
    · rw [length_cons] at h
      omega

end Directory

theorem directory_listed_once (d : Directory) (h : d.Readable) (sizes : List Nat)
    (hsizes : ∀ n ∈ sizes, esz ≤ n) :
    ∃ m done, d.readAll 0 sizes = some (records 0 (d.items.take m),done) ∧
      (done = true → records 0 (d.items.take m) = records 0 d.items) ∧
      (d.items.length < sizes.length → done = true) := by
  obtain ⟨m,done,hread,hdone,hlong⟩ := Directory.readAll_spec h sizes hsizes (Nat.zero_le _)
  refine ⟨m,done,hread,fun h => ?_,hlong⟩
  rw [take_of_length_le (by have := hdone h; omega)]

def twoDents : Directory := .ramfs [⟨2,4,[0x61]⟩,⟨3,8,[0x62]⟩] (by decide)

theorem directory_listed_once_two :
    twoDents.readAll 0 [39,200,39] = some (records 0 twoDents.items,true) := by
  obtain ⟨m,done,hread,hdone,hlong⟩ := directory_listed_once twoDents trivial [39,200,39] (by decide)
  have h := hlong (by decide)
  rw [hread,hdone h,h]

def twoBlocks : Ext2Read.Image where
  capacity := 64
  byte a :=
    if a = 1080 then 0x53 else if a = 1081 then 0xEF
    else if a = 3072 ∨ a = 4096 then 5 else if a = 3077 ∨ a = 4101 then 4
    else if a = 3078 ∨ a = 4102 then 1 else 0

def failing : Directory :=
  .ext2 ⟨twoBlocks,1024,by decide +kernel⟩ ⟨2048,fun b => if b = 0 then 3 else if b = 1 then 4 else 0⟩
    fun _ => ⟨false,fun _ => false,fun _ _ => false,fun lbn _ => lbn = 1⟩

theorem listing_ends_at_failed_read : failing.items.length = 2 ∧
    (failing.readAll 0 [39,39]).map (fun r => (r.1.length,r.2)) = some (39,true) := by
  decide +kernel

end TinyOs.Readdir
