import TinyOs.Fs.FileCalls
import TinyOs.Library.Growable

namespace TinyOs.RamFile

open Function (update)
open Effects Slab FileCalls List Growable
open Effects.Prog (ret_bind outcome_bind outcome_pure outcome_ask)

variable {p uaddr : Nat} {r : File × Inode × Int}

structure Desc extends File where
  readable : Bool

structure State (F : Type) where
  files : F → Desc
  ip : Inode

inductive Op (F : Type) where
  | lseek (f : F) (offset : Int) (whence : Nat)
  | read (f : F) (n : Int) (room : Nat)
  | write (f : F) (uaddr : Nat) (data : List UInt8) (n : Int)
  | ftruncate (f : F) (length : Int)

inductive Out where
  | value (r : Int)
  | bytes (bs : List UInt8)
  deriving DecidableEq, Repr

def fileread (d : Desc) (ip : Inode) (n : Nat) : Prog (Desc × Option (List UInt8)) :=
  if !d.readable then pure (d,none)
  else do
    match ← fsReadi ip d.off n with
    | none => pure (d,none)
    | some bs => pure ({ d with off := (d.off + bs.length) % word },some bs)

def readLoop (room n : Nat) (d : Desc) (ip : Inode) (acc : List UInt8) :
    Prog (Desc × Option (List UInt8)) :=
  if acc.length < n then do
    let chunk := min bufSize (n - acc.length)
    let r ← fileread d ip chunk
    match r.2 with
    | none => pure (r.1,none)
    | some bs =>
      if bs = [] then pure (r.1,some acc)
      else if room < acc.length + bs.length then pure (r.1,none)
      else if bs.length < chunk then pure (r.1,some (acc ++ bs))
      else readLoop room n r.1 ip (acc ++ bs)
  else pure (d,some acc)
termination_by n - acc.length
decreasing_by
  rename_i hbs _ _
  have hpos := length_pos_iff.mpr hbs
  rw [length_append]
  omega

section

variable {F : Type}

def Op.user : Op F → Nat → Nat → Option (List UInt8)
  | .write _ uaddr data _, a, m =>
    if a - uaddr + m ≤ data.length then some ((data.drop (a - uaddr)).take m) else none
  | _, _, _ => none

variable [DecidableEq F]

def syscall (p : Nat) (s : State F) : Op F → Prog (State F × Out)
  | .lseek f offset whence =>
    let r := filelseek (s.files f).toFile s.ip offset whence
    pure ({ s with files := update s.files f { s.files f with toFile := r.1 } },.value r.2)
  | .read f n room =>
    if n < 0 then pure (s,.value (-1))
    else do
      let r ← readLoop room n.toNat (s.files f) s.ip []
      pure ({ s with files := update s.files f r.1 },r.2.elim (.value (-1)) .bytes)
  | .write f uaddr _ n =>
    if n < 0 then pure (s,.value (-1))
    else do
      let r ← writeLoop p uaddr n.toNat (s.files f).toFile s.ip 0
      pure (⟨update s.files f { s.files f with toFile := r.1 },r.2.1⟩,.value r.2.2)
  | .ftruncate f length =>
    if length < 0 ∨ !(s.files f).writable then pure (s,.value (-1))
    else do
      let r ← fsTruncate s.ip length.toNat
      pure ({ s with ip := r.1 },.value r.2)

def answers (user : Nat → Nat → Option (List UInt8)) : (e : Req) → Ans e → Prop
  | .kmalloc _ => fun r => r ≠ none
  | .kfree _ => fun _ => True
  | .copyin _ a m => fun r => r = user a m

def Step (p : Nat) (s : State F) (e : Op F × Out) (s' : State F) : Prop :=
  (syscall p s e.1).Outcome (answers e.1.user) (s',e.2)

end

structure Holds (ip : Inode) (bs : List UInt8) : Prop where
  type : ip.type = .file
  size : ip.size = bs.length
  contents : ∀ i < bs.length, ip.contents i = bs.getD i 0
  data : ip.data = none → bs = []

variable {ip : Inode} {bs src data acc : List UInt8} {off n : Nat} {d : Desc} {f : File}
  {user : Nat → Nat → Option (List UInt8)}

theorem ramfsRead_eq (h : Holds ip bs) (hw : off + n < word) :
    ramfsRead ip off n = some ((bs.drop off).take n) := by
  have htype : ip.type ≠ .dir := by
    rw [h.type]
    decide
  rw [ramfsRead,if_neg htype,Nat.mod_eq_of_lt hw,h.size]
  split
  · rename_i hlt
    rw [drop_eq_nil_of_le (le_of_lt hlt),take_nil]
  rename_i hle
  simp only
  split
  · rename_i hnone
    rw [h.data hnone,drop_nil,take_nil]
  refine congrArg some (ext_getElem ?_ fun i h1 h2 => ?_)
  · rw [length_map,length_range,length_take,length_drop]
    split <;> omega
  · rw [length_take,length_drop] at h2
    rw [getElem_map,getElem_range,getElem_take,getElem_drop,h.contents _ (by omega),
      getD_eq_getElem _ _ (by omega)]

theorem fileread_eq (h : Holds ip bs) (hr : d.readable = true) (hw : d.off + n < word) :
    fileread d ip n = pure ({ d with off := d.off + ((bs.drop d.off).take n).length },
        some ((bs.drop d.off).take n)) := by
  have hlt : d.off + ((bs.drop d.off).take n).length < word := by
    rw [length_take]
    omega
  simp only [fileread,hr,fsReadi,ret_bind,ramfsRead_eq h hw,Nat.mod_eq_of_lt hlt]
  rfl

theorem readLoop_eq (off : Nat) {room : Nat} (h : Holds ip bs) (hr : d.readable = true)
    (hw : off + bs.length + bufSize < word) (hoff : d.off = off + acc.length)
    (hacc : acc = (bs.drop off).take acc.length)
    (hfull : acc.length % bufSize = 0 ∨ acc.length = n) (hn : acc.length ≤ n)
    (hroom : acc.length ≤ room) :
    readLoop room n d ip acc = pure (if ((bs.drop off).take n).length ≤ room then
          ({ d with off := off + ((bs.drop off).take n).length },some ((bs.drop off).take n))
        else
          ({ d with off := off + min ((bs.drop off).take n).length ((room / bufSize + 1) * bufSize) },
            none)) := by
  induction hleft : n - acc.length using Nat.strong_induction_on generalizing d acc with
  | _ left ih =>
    have hlen : ∀ k, ((bs.drop off).take k).length = min k (bs.length - off) := by
      intro k
      rw [length_take,length_drop]
    have hsize : acc.length ≤ bs.length - off := by
      have := congrArg List.length hacc
      rw [hlen] at this
      omega
    by_cases hlt : acc.length < n
    swap
    · have he : acc.length = n := by omega
      rw [readLoop,if_neg hlt,← he,← hacc,if_pos hroom,← hoff]
    obtain ⟨chunk,hchunk⟩ : ∃ chunk, chunk = min bufSize (n - acc.length) := ⟨_,rfl⟩
    obtain ⟨got,hgot⟩ : ∃ got, got = (bs.drop d.off).take chunk := ⟨_,rfl⟩
    have hgl : got.length = min chunk (bs.length - off - acc.length) := by
      rw [hgot,length_take,length_drop,hoff]
      omega
    have hstep : ∀ k, acc ++ (bs.drop d.off).take k = (bs.drop off).take (acc.length + k) := by
      intro k
      rw [take_add,← hacc,drop_drop,hoff]
    have hread := fileread_eq (n := chunk) h hr (by omega)
    rw [← hgot] at hread
    have hb : bufSize = 128 := rfl
    rw [readLoop,if_pos hlt]
    simp only [← hchunk,hread,ret_bind]
    by_cases hnil : got = []
    · have hend : bs.length - off = acc.length := by
        rw [hnil,length_nil] at hgl
        omega
      have hout : (bs.drop off).take n = acc := by
        rw [hacc]
        refine take_eq_take_iff.mpr ?_
        rw [length_drop]
        omega
      rw [if_pos hnil,hout,if_pos hroom,hnil,hoff]
      rfl
    rw [if_neg hnil]
    have hpos := length_pos_iff.mpr hnil
    by_cases hfault : room < acc.length + got.length
    · have hmany : ¬ ((bs.drop off).take n).length ≤ room := by
        rw [hlen]
        omega
      have hround : (room / bufSize + 1) * bufSize = acc.length + bufSize := by
        rw [hb] at hfull ⊢
        omega
      have hmoved : d.off + got.length =
          off + min ((bs.drop off).take n).length ((room / bufSize + 1) * bufSize) := by
        rw [hlen,hround]
        omega
      rw [if_pos hfault,if_neg hmany,hmoved]
    rw [if_neg hfault]
    by_cases hshort : got.length < chunk
    · have hout : acc ++ got = (bs.drop off).take n := by
        rw [hgot,hstep]
        refine take_eq_take_iff.mpr ?_
        rw [length_drop]
        omega
      have hfits : ((bs.drop off).take n).length ≤ room := by
        rw [← hout,length_append]
        omega
      rw [if_pos hshort,if_pos hfits,hout,hoff,← hout,length_append,add_assoc]
    rw [if_neg hshort]
    have happ : (acc ++ got).length = acc.length + chunk := by
      rw [length_append]
      omega
    have hnext : (acc ++ got).length % bufSize = 0 ∨ (acc ++ got).length = n := by
      rw [happ]
      rw [hb] at hfull hchunk ⊢
      omega
    exact ih (n - (acc ++ got).length) (by omega) (d := { d with off := d.off + got.length })
      hr (by rw [happ]; dsimp only; omega) (by rw [happ,hgot,hstep]) hnext (by omega) (by omega) rfl

theorem readLoop_refused {room : Nat} {i : Inode} (hr : d.readable = false) :
    readLoop room n d i [] = pure (d,if n = 0 then some [] else none) := by
  rw [readLoop,length_nil]
  by_cases hn : n = 0
  · rw [if_neg (by omega),if_pos hn]
  · rw [if_pos (by omega),if_neg hn]
    simp only [fileread,hr,Bool.not_false,if_true,ret_bind]

theorem Holds.getD (h : Holds ip bs) (i : Nat) :
    (if i < ip.size then ip.contents i else 0) = bs.getD i 0 := by
  rw [h.size]
  split
  · exact h.contents i ‹_›
  · exact (getD_eq_default _ _ (by omega)).symm

theorem Holds.store (off : Nat) (h : Holds ip bs) (hdata : ip.data ≠ none) (hs : src ≠ [])
    (hfit : off + src.length ≤ bs.length) (hw : off + src.length < word) :
    Holds (ip.store src off src.length) (put 0 bs off src) := by
  have hmax : max bs.length (off + src.length) = bs.length := by omega
  refine ⟨h.type,?_,fun i hi => ?_,fun hnone => absurd hnone hdata⟩
  · rw [put_length hs,hmax,Inode.store,Nat.mod_eq_of_lt hw,h.size,if_neg (by omega)]
  · rw [put_length hs,hmax] at hi
    rw [put_getD hs,← h.contents i hi]
    rfl

theorem Holds.replace (h : Holds ip bs) (buf : Ptr) (n : Nat) :
    Holds (ip.replace buf n ip.size) (resize 0 bs n) := by
  refine ⟨h.type,resize_length.symm,fun i hi => ?_,fun hnone => nomatch hnone⟩
  rw [resize_length] at hi
  rw [resize_getD hi]
  exact h.getD i

theorem ramfsWrite_outcome {r : Inode × Int} (h : Holds ip bs) (hs : src ≠ [])
    (hw : off + src.length < word)
    (ho : (ramfsWrite ip src off src.length).Outcome (answers user) r) :
    Holds r.1 (put 0 bs off src) ∧ r.2 = src.length := by
  have hpos := length_pos_iff.mpr hs
  rw [ramfsWrite,if_neg (not_not.mpr h.type),if_neg (by omega)] at ho
  simp only [Nat.mod_eq_of_lt hw] at ho
  split at ho
  · rename_i hgrow
    have hle : bs.length ≤ off + src.length := by
      rcases hgrow with hlt | hnone
      · rw [h.size] at hlt
        omega
      · rw [h.data hnone]
        exact Nat.zero_le _
    obtain ⟨buf,hbuf,ho⟩ := outcome_bind.mp ho
    cases buf with
    | none => exact absurd rfl (outcome_ask.mp hbuf)
    | some buf =>
      obtain ⟨-,-,ho⟩ := outcome_bind.mp ho
      obtain rfl := outcome_pure.mp ho
      refine ⟨?_,rfl⟩
      have hnew := (h.replace buf (off + src.length)).store off nofun hs
        resize_length.ge hw
      rwa [put_resize hs hle] at hnew
  · rename_i hkeep
    obtain ⟨hsize,hdata⟩ := not_or.mp hkeep
    obtain rfl := outcome_pure.mp ho
    rw [h.size] at hsize
    exact ⟨h.store off hdata hs (by omega) hw,rfl⟩

theorem ramfsTruncate_outcome {r : Inode × Int} (h : Holds ip bs)
    (ho : (ramfsTruncate ip n).Outcome (answers user) r) :
    Holds r.1 (resize 0 bs n) ∧ r.2 = 0 := by
  rw [ramfsTruncate,if_neg (not_not.mpr h.type)] at ho
  split at ho
  · rename_i hsame
    obtain rfl := outcome_pure.mp ho
    refine ⟨?_,rfl⟩
    have hid : resize 0 bs n = bs := by
      rw [hsame,h.size,resize,take_length,Nat.sub_self,replicate_zero,append_nil]
    rw [hid]
    exact h
  split at ho
  · rename_i hzero
    obtain ⟨-,-,ho⟩ := outcome_bind.mp ho
    obtain rfl := outcome_pure.mp ho
    have hnil : resize (0 : UInt8) bs n = [] :=
      length_eq_zero_iff.mp (resize_length.trans hzero)
    rw [hnil]
    exact ⟨⟨h.type,rfl,(fun i hi => absurd hi (Nat.not_lt_zero i)),fun _ => rfl⟩,rfl⟩
  · obtain ⟨buf,hbuf,ho⟩ := outcome_bind.mp ho
    cases buf with
    | none => exact absurd rfl (outcome_ask.mp hbuf)
    | some buf =>
      obtain ⟨-,-,ho⟩ := outcome_bind.mp ho
      obtain rfl := outcome_pure.mp ho
      exact ⟨h.replace buf n,rfl⟩

theorem filewrite_outcome (h : Holds ip bs) (hwr : f.writable = true)
    (hs : src ≠ []) (hoff : off = if f.append then bs.length else f.off)
    (hw : off + src.length < word)
    (ho : (filewrite f ip src src.length).Outcome (answers user) r) :
    ∃ ip', r = ({ f with off := off + src.length },ip',(src.length : Int)) ∧
      Holds ip' (put 0 bs off src) := by
  have hpos := length_pos_iff.mpr hs
  have hseek : (if f.append ∧ ip.type = .file then
      { f with off := ip.size } else f) = { f with off := off } := by
    rw [hoff]
    by_cases ha : f.append = true
    · rw [if_pos ⟨ha,h.type⟩,if_pos ha,← h.size]
    · rw [if_neg (fun hc => ha hc.1),if_neg ha]
  rw [filewrite,if_neg (by simp [hwr])] at ho
  simp only [hseek] at ho
  obtain ⟨q,hq,ho⟩ := outcome_bind.mp ho
  obtain ⟨hheld,hret⟩ := ramfsWrite_outcome h hs hw hq
  obtain rfl := outcome_pure.mp ho
  refine ⟨q.1,?_,hheld⟩
  rw [hret,if_pos (by omega),Int.toNat_natCast,Nat.mod_eq_of_lt hw]

theorem writeLoop_refused {total : Nat} {i : Inode} (hwr : f.writable = false) (hlt : total < n)
    (ho : (writeLoop p uaddr n f i total).Outcome (answers user) r) : r = (f,i,-1) := by
  rw [writeLoop,if_pos hlt] at ho
  obtain ⟨buf,-,ho⟩ := outcome_bind.mp ho
  cases buf with
  | none => exact outcome_pure.mp ho
  | some buf =>
    simp only [filewrite,hwr,Bool.not_false,if_true,ret_bind] at ho
    exact outcome_pure.mp ho

def passed (n : Nat) (data : List UInt8) : Nat :=
  if n ≤ data.length then n else data.length / bufSize * bufSize

theorem writeLoop_outcome {total : Nat} (h : Holds ip bs) (hwr : f.writable = true)
    (huser : ∀ k m, user (uaddr + k) m =
      if k + m ≤ data.length then some ((data.drop k).take m) else none)
    (hoff : off = if f.append ∧ total < passed n data then bs.length else f.off)
    (hw : off + (passed n data - total) < word)
    (hfull : total % bufSize = 0 ∨ total = n) (hn : total ≤ n) (hd : total ≤ data.length)
    (ho : (writeLoop p uaddr n f ip total).Outcome (answers user) r) :
    ∃ ip', r = ({ f with off := off + (passed n data - total) },ip',
        if n ≤ data.length then (n : Int) else -1) ∧
      Holds ip' (put 0 bs off ((data.drop total).take (passed n data - total))) := by
  induction hleft : n - total using Nat.strong_induction_on generalizing f ip bs off total with
  | _ left ih =>
    have hb : bufSize = 128 := rfl
    rw [writeLoop] at ho
    by_cases hlt : total < n
    swap
    · have he : total = n := by omega
      have hpass : passed n data = total := by
        rw [passed,if_pos (by omega),he]
      rw [if_neg hlt] at ho
      obtain rfl := outcome_pure.mp ho
      rw [hpass,Nat.sub_self,take_zero,put_nil]
      refine ⟨ip,?_,h⟩
      rw [if_pos (by omega),hoff,hpass,if_neg (by omega),he]
      rfl
    rw [if_pos hlt] at ho
    obtain ⟨chunk,hchunk⟩ : ∃ chunk, chunk = min bufSize (n - total) := ⟨_,rfl⟩
    simp only [← hchunk] at ho
    obtain ⟨buf,hbuf,ho⟩ := outcome_bind.mp ho
    have hbuf : buf = user (uaddr + total) chunk := outcome_ask.mp hbuf
    rw [huser] at hbuf
    by_cases hgot : total + chunk ≤ data.length
    swap
    · have hpass : passed n data = total := by
        rw [passed,if_neg (by omega)]
        rw [hb] at hfull hchunk ⊢
        omega
      rw [hbuf,if_neg hgot] at ho
      obtain rfl := outcome_pure.mp ho
      rw [hpass,Nat.sub_self,take_zero,put_nil]
      refine ⟨ip,?_,h⟩
      rw [if_neg (by omega),hoff,hpass,if_neg (by omega)]
      rfl
    rw [if_pos hgot] at hbuf
    rw [hbuf] at ho
    obtain ⟨src,hsrc⟩ : ∃ src, src = (data.drop total).take chunk := ⟨_,rfl⟩
    have hlen : src.length = chunk := by
      rw [hsrc,length_take,length_drop]
      omega
    have hne : src ≠ [] := by
      rw [← length_pos_iff]
      omega
    have hpass : total + chunk ≤ passed n data := by
      rw [passed]
      split
      · omega
      · rw [hb] at hfull hchunk ⊢
        omega
    obtain ⟨w,hwrite,ho⟩ := outcome_bind.mp ho
    rw [← hsrc,← hlen] at hwrite
    have hoff' : off = if f.append then bs.length else f.off := by
      rw [hoff]
      by_cases ha : f.append = true
      · rw [if_pos ⟨ha,by omega⟩,if_pos ha]
      · rw [if_neg (fun hc => ha hc.1),if_neg ha]
    obtain ⟨ip',rfl,hheld⟩ := filewrite_outcome h hwr hne hoff' (by omega) hwrite
    simp only [Int.toNat_natCast] at ho
    rw [if_neg (by omega),if_neg (by omega)] at ho
    have hnext : off + src.length = if f.append ∧ total + src.length < passed n data then
        (put 0 bs off src).length else off + src.length := by
      split
      · rename_i ha
        rw [hoff',if_pos ha.1,put_length hne]
        omega
      · rfl
    obtain ⟨ip'',hr,hlast⟩ := ih (n - (total + src.length)) (by omega)
      (f := { f with off := off + src.length }) hheld hwr hnext (by omega)
      (by rw [hb] at hfull hchunk ⊢; omega) (by omega) (by omega) ho rfl
    refine ⟨ip'',?_,?_⟩
    · rw [hr,show off + src.length + (passed n data - (total + src.length)) =
        off + (passed n data - total) by omega]
    rw [put_append] at hlast
    have hjoin : (data.drop total).take (passed n data - total) =
        src ++ (data.drop (total + src.length)).take (passed n data - (total + src.length)) := by
      rw [show passed n data - total = src.length + (passed n data - (total + src.length)) by omega,
        take_add,drop_drop,hlen,← hsrc]
    rw [hjoin]
    exact hlast

theorem writeLoop_whole (h : Holds ip bs) (hgood : ¬ (0 < n ∧ f.writable = false))
    (huser : ∀ k m, user (uaddr + k) m =
      if k + m ≤ data.length then some ((data.drop k).take m) else none)
    (hoff : off = if f.append ∧ 0 < passed n data then bs.length else f.off)
    (hw : off + passed n data < word)
    (ho : (writeLoop p uaddr n f ip 0).Outcome (answers user) r) :
    ∃ ip', r = ({ f with off := off + passed n data },ip',
        if n ≤ data.length then (n : Int) else -1) ∧
      Holds ip' (put 0 bs off (data.take (passed n data))) := by
  by_cases hwr : f.writable = true
  · exact writeLoop_outcome h hwr huser hoff hw (.inl rfl) (Nat.zero_le n) (Nat.zero_le _) ho
  have hzero : n = 0 := by
    by_contra hn
    exact hgood ⟨by omega,by simpa using hwr⟩
  subst hzero
  have hpass : passed 0 data = 0 := if_pos (Nat.zero_le _)
  rw [writeLoop,if_neg (Nat.lt_irrefl 0)] at ho
  obtain rfl := outcome_pure.mp ho
  rw [hpass,take_zero,put_nil,if_pos (Nat.zero_le _),hoff,hpass,if_neg (by simp)]
  exact ⟨ip,rfl,h⟩

end TinyOs.RamFile
