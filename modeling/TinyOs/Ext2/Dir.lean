import TinyOs.Ext2.ReadData

namespace TinyOs.Ext2Dir

open Ext2Read List Option

structure Entry where
  blk : List UInt8
  pos : Nat
  deriving DecidableEq

namespace Entry

variable (de : Entry)

def inode : Nat := u32At de.blk de.pos

def recLen : Nat := u16At de.blk (de.pos + 4)

def nameLen : Nat := byteAt de.blk (de.pos + 6)

def fileType : Nat := byteAt de.blk (de.pos + 7)

def name (i : Nat) : UInt8 := de.blk.getD (de.pos + 8 + i) 0

def live : Prop := de.inode ≠ 0 ∧ de.nameLen ≠ 0

instance : Decidable de.live := inferInstanceAs (Decidable (_ ∧ _))

end Entry

variable {σ : Type}

def loadBlock (sb : Super) (dir : Inode) (f : Faults) (lbn : Nat) : Option (List UInt8) :=
  let phys := ext2Bmap sb dir f lbn
  if phys = 0 then none else ext2ReadBlock sb (f.data lbn) phys

def record (sb : Super) (dir : Inode) (f : Faults) (off : Nat) (blk : List UInt8) : Option Entry :=
  (if off % sb.blockSize = 0 then loadBlock sb dir f (off / sb.blockSize) else some blk).bind
    fun blk =>
      let de : Entry := ⟨blk,off % sb.blockSize⟩
      if de.recLen < 8 ∨ sb.blockSize < de.pos + de.recLen then none else some de

variable {sb : Super} {dir : Inode} {f : Faults} {off : Nat} {blk : List UInt8} {de : Entry}

theorem record_spec (h : record sb dir f off blk = some de) :
    de.pos = off % sb.blockSize ∧ 8 ≤ de.recLen ∧ de.pos + de.recLen ≤ sb.blockSize := by
  obtain ⟨blk,-,hde⟩ := bind_eq_some_iff.mp h
  obtain ⟨hok,hde⟩ := ite_none_left_eq_some.mp hde
  cases hde
  rw [not_or,not_lt,not_lt] at hok
  exact ⟨rfl,hok⟩

def dirLoop (sb : Super) (dir : Inode) (f : Faults) (cb : Entry → σ → σ × Int) (off : Nat)
    (blk : List UInt8) (arg : σ) : σ × Int :=
  if off < dir.size then
    match h : record sb dir f off blk with
    | none => (arg,-1)
    | some de =>
      if de.live then
        let r := cb de arg
        if r.2 ≠ 0 then r else dirLoop sb dir f cb (off + de.recLen) de.blk r.1
      else dirLoop sb dir f cb (off + de.recLen) de.blk arg
  else (arg,0)
termination_by dir.size - off
decreasing_by
  all_goals
    have := (record_spec h).2.1
    omega

def ext2DirIterate (sb : Super) (dir : Inode) (f : Faults) (cb : Entry → σ → σ × Int) (arg : σ) :
    σ × Int :=
  if f.blk then (arg,-1) else dirLoop sb dir f cb 0 [] arg

def chainFrom (sb : Super) (dir : Inode) (f : Faults) (off : Nat) (blk : List UInt8) :
    List (Nat × Entry) :=
  if off < dir.size then
    match _h : record sb dir f off blk with
    | none => []
    | some de =>
      if de.live then (off,de) :: chainFrom sb dir f (off + de.recLen) de.blk
      else chainFrom sb dir f (off + de.recLen) de.blk
  else []
termination_by dir.size - off
decreasing_by
  all_goals
    have := (record_spec _h).2.1
    omega

def chain (sb : Super) (dir : Inode) (f : Faults) : List (Nat × Entry) :=
  if f.blk then [] else chainFrom sb dir f 0 []

def entries (sb : Super) (dir : Inode) (f : Faults) : List Entry := (chain sb dir f).map (·.2)

def feed (cb : Entry → σ → σ × Int) : List Entry → σ → σ × Option Int
  | [], arg => (arg,none)
  | de :: des, arg =>
    let r := cb de arg
    if r.2 ≠ 0 then (r.1,some r.2) else feed cb des r.1

theorem chainFrom_stop (h : off < dir.size → record sb dir f off blk = none) :
    chainFrom sb dir f off blk = [] := by
  rw [chainFrom]
  split
  · rename_i hlt
    split
    · rfl
    rename_i hde
    rw [h hlt] at hde
    cases hde
  · rfl

theorem chainFrom_some (hlt : off < dir.size) (hde : record sb dir f off blk = some de) :
    chainFrom sb dir f off blk =
      (if de.live then [(off,de)] else []) ++ chainFrom sb dir f (off + de.recLen) de.blk := by
  rw [chainFrom,if_pos hlt]
  split
  · rename_i hnone
    rw [hde] at hnone
    cases hnone
  · rename_i de' hde'
    obtain rfl := some.inj (hde.symm.trans hde')
    split <;> rfl

theorem dirLoop_feed (cb : Entry → σ → σ × Int) (off : Nat) (blk : List UInt8) (arg : σ) :
    ∃ e : Int, (e = 0 ∨ e = -1) ∧ dirLoop sb dir f cb off blk arg =
      ((feed cb ((chainFrom sb dir f off blk).map (·.2)) arg).1,
        (feed cb ((chainFrom sb dir f off blk).map (·.2)) arg).2.getD e) := by
  fun_induction dirLoop sb dir f cb off blk arg with
  | case1 off blk arg hlt hnone =>
    rw [chainFrom_stop fun _ => hnone]
    exact ⟨-1,.inr rfl,rfl⟩
  | case2 off blk arg hlt de hde hlive r hr =>
    rw [chainFrom_some hlt hde,if_pos hlive]
    refine ⟨0,.inl rfl,?_⟩
    simp only [singleton_append,map_cons,feed]
    rw [if_pos hr]
    rfl
  | case3 off blk arg hlt de hde hlive r hr ih =>
    rw [chainFrom_some hlt hde,if_pos hlive]
    simp only [singleton_append,map_cons,feed]
    rw [if_neg hr]
    exact ih
  | case4 off blk arg hlt de hde hlive ih =>
    rw [chainFrom_some hlt hde,if_neg hlive]
    exact ih
  | case5 off blk arg hge =>
    rw [chainFrom_stop fun hlt => absurd hlt hge]
    exact ⟨0,.inl rfl,rfl⟩

theorem iterate_feed (sb : Super) (dir : Inode) (f : Faults) (cb : Entry → σ → σ × Int) (arg : σ) :
    ∃ e : Int, (e = 0 ∨ e = -1) ∧ ext2DirIterate sb dir f cb arg =
      ((feed cb (entries sb dir f) arg).1,(feed cb (entries sb dir f) arg).2.getD e) := by
  unfold ext2DirIterate entries chain
  split
  · exact ⟨-1,.inr rfl,rfl⟩
  · exact dirLoop_feed cb 0 [] arg

def limit (sb : Super) : Nat := (12 + sb.blockSize / 4) * sb.blockSize

theorem record_limit (h : record sb dir f off blk = some de)
    (hoff : off % sb.blockSize = 0 ∨ off < limit sb) :
    off + de.recLen ≤ limit sb ∧
      ((off + de.recLen) % sb.blockSize = 0 ∨ off + de.recLen < limit sb) := by
  obtain ⟨hpos,-,hle⟩ := record_spec h
  have hmap : off / sb.blockSize < 12 + sb.blockSize / 4 := by
    rcases hoff with hzero | hlt
    · obtain ⟨blk',hblk,-⟩ := bind_eq_some_iff.mp h
      rw [if_pos hzero,loadBlock] at hblk
      by_contra hge
      have hbmap : ext2Bmap sb dir f (off / sb.blockSize) = 0 := by
        rw [ext2Bmap,if_neg (by unfold ndirBlocks; omega),if_neg (by unfold ndirBlocks; omega)]
      rw [if_pos hbmap] at hblk
      cases hblk
    · exact (Nat.div_lt_iff_lt_mul sb.pos).mpr hlt
  have hdiv := Nat.div_add_mod off sb.blockSize
  have hmul := Nat.mul_le_mul_right sb.blockSize hmap
  rw [Nat.succ_mul,mul_comm] at hmul
  rw [hpos] at hle
  have hend : off + de.recLen ≤ limit sb := by
    unfold limit
    omega
  refine ⟨hend,?_⟩
  rcases Nat.lt_or_eq_of_le hend with hlt | heq
  · exact .inr hlt
  · exact .inl (by rw [heq,limit,Nat.mul_mod_left])

theorem limit_le (sb : Super) : limit sb ≤ 2 ^ 23 := by
  unfold limit
  rcases sb.sizes with h | h | h <;> rw [h] <;> decide

theorem chainFrom_inside (hoff : off % sb.blockSize = 0 ∨ off < limit sb) :
    ∀ e ∈ chainFrom sb dir f off blk, e.1 + e.2.recLen ≤ 2 ^ 23 ∧ 8 ≤ e.2.recLen ∧
      e.2.pos + e.2.recLen ≤ sb.blockSize := by
  fun_induction chainFrom sb dir f off blk with
  | case1 off blk hlt hnone => exact fun e he => by cases he
  | case2 off blk hlt de hde hlive ih =>
    obtain ⟨hend,hnext⟩ := record_limit hde hoff
    rw [forall_mem_cons]
    exact ⟨⟨hend.trans (limit_le sb),(record_spec hde).2⟩,ih hnext⟩
  | case3 off blk hlt de hde hlive ih => exact ih (record_limit hde hoff).2
  | case4 off blk hge => exact fun e he => by cases he

theorem chain_inside (sb : Super) (dir : Inode) (f : Faults) :
    ∀ e ∈ chain sb dir f, e.1 + e.2.recLen ≤ 2 ^ 23 ∧ 8 ≤ e.2.recLen ∧
      e.2.pos + e.2.recLen ≤ sb.blockSize := by
  unfold chain
  split
  · exact fun e he => by cases he
  · exact chainFrom_inside (.inl (Nat.zero_mod _))

theorem chainFrom_length (sb : Super) (dir : Inode) (f : Faults) (off : Nat) (blk : List UInt8)
    (hoff : off % sb.blockSize = 0 ∨ off < limit sb) :
    (chainFrom sb dir f off blk).length * 8 ≤ limit sb - off := by
  fun_induction chainFrom sb dir f off blk with
  | case1 off blk hlt hnone => exact Nat.zero_le _
  | case2 off blk hlt de hde hlive ih =>
    obtain ⟨hend,hnext⟩ := record_limit hde hoff
    have := ih hnext
    have := (record_spec hde).2.1
    rw [length_cons]
    omega
  | case3 off blk hlt de hde hlive ih =>
    have := ih (record_limit hde hoff).2
    omega
  | case4 off blk hge => exact Nat.zero_le _

theorem entries_length (sb : Super) (dir : Inode) (f : Faults) :
    (entries sb dir f).length ≤ 2 ^ 20 := by
  have hlimit := limit_le sb
  unfold entries chain
  split
  · exact Nat.zero_le _
  have := chainFrom_length sb dir f 0 [] (.inl (Nat.zero_mod _))
  rw [length_map]
  omega

def logged (cb : Entry → σ → σ × Int) (de : Entry) (arg : List Entry × σ) :
    (List Entry × σ) × Int :=
  ((arg.1 ++ [de],(cb de arg.2).1),(cb de arg.2).2)

theorem feed_logged (cb : Entry → σ → σ × Int) (des log : List Entry) (arg : σ) :
    ∃ k, (feed (logged cb) des (log,arg)).1.1 = log ++ des.take k := by
  induction des generalizing log arg with
  | nil => exact ⟨0,(append_nil _).symm⟩
  | cons de des ih =>
    rw [feed]
    split
    · exact ⟨1,rfl⟩
    · obtain ⟨k,hk⟩ := ih (log ++ [de]) (cb de arg).1
      exact ⟨k + 1,by rw [take_succ_cons,append_cons]; exact hk⟩

theorem feed_logged_all (des log : List Entry) :
    (feed (logged fun _ _ => ((),0)) des (log,())).1.1 = log ++ des := by
  induction des generalizing log with
  | nil => exact (append_nil _).symm
  | cons de des ih =>
    rw [append_cons]
    exact ih (log ++ [de])

structure Entry.Inside (sb : Super) (de : Entry) : Prop where
  name : de.pos + 8 + de.nameLen ≤ de.pos + de.recLen
  record : de.pos + de.recLen ≤ sb.blockSize

theorem dir_iterate_entries_inside (sb : Super) (dir : Inode) (f : Faults) :
    ((∀ e ∈ chain sb dir f, e.1 + e.2.recLen < word) ∧
      ∀ (σ : Type) (cb : Entry → σ → σ × Int) (arg : σ),
        ∀ de ∈ (ext2DirIterate sb dir f (logged cb) ([],arg)).1.1, de.Inside sb) ↔
      ∀ de ∈ entries sb dir f, 8 + de.nameLen ≤ de.recLen := by
  constructor
  · rintro ⟨-,h⟩ de hde
    obtain ⟨e,-,heq⟩ := iterate_feed sb dir f (logged fun _ _ => ((),0)) ([],())
    have := (h Unit (fun _ _ => ((),0)) () de (by rw [heq,feed_logged_all]; exact hde)).name
    omega
  intro h
  refine ⟨fun e he => lt_of_le_of_lt (chain_inside sb dir f e he).1 (by decide),?_⟩
  intro σ cb arg de hde
  obtain ⟨e,-,heq⟩ := iterate_feed sb dir f (logged cb) ([],arg)
  obtain ⟨k,hk⟩ := feed_logged cb (entries sb dir f) [] arg
  rw [heq,hk] at hde
  have hmem := mem_of_mem_take hde
  obtain ⟨p,hp,rfl⟩ := mem_map.mp hmem
  have := h p.2 hmem
  exact ⟨by omega,(chain_inside sb dir f p hp).2.2⟩

def quiet : Faults := ⟨false,fun _ => false,fun _ _ => false,fun _ _ => false⟩

def shortRecord : Image where
  capacity := 64
  byte a :=
    if a = 1080 then 0x53 else if a = 1081 then 0xEF else if a = 3072 then 5
    else if a = 3076 then 8 else if a = 3078 then 1 else 0

def shortSuper : Super := ⟨shortRecord,1024,by decide +kernel⟩

def shortDir : Inode := ⟨1024,fun _ => 3⟩

theorem dir_iterate_passes_short_record :
    ∃ de ∈ (ext2DirIterate shortSuper shortDir quiet (logged fun _ _ => ((),0)) ([],())).1.1,
      ¬ de.Inside shortSuper := by
  have hshort : (ext2DirIterate shortSuper shortDir quiet (logged fun _ _ => ((),0))
      ([],())).1.1.any (fun de => de.recLen < 8 + de.nameLen) = true := by decide +kernel
  obtain ⟨de,hde,hlt⟩ := any_eq_true.mp hshort
  refine ⟨de,hde,fun hin => ?_⟩
  have := hin.name
  have := of_decide_eq_true hlt
  omega

end TinyOs.Ext2Dir
