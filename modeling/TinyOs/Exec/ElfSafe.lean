import TinyOs.Exec.Elf

namespace TinyOs.Elf

open Space List Option

def readByte (blob : List UInt8) (i : Nat) : Option Nat := (blob[i]?).map UInt8.toNat

def readU16 (blob : List UInt8) (i : Nat) : Option Nat := do
  let lo ← readByte blob i
  let hi ← readByte blob (i + 1)
  some (lo + hi * 2 ^ 8)

def readU32 (blob : List UInt8) (i : Nat) : Option Nat := do
  let lo ← readU16 blob i
  let hi ← readU16 blob (i + 2)
  some (lo + hi * 2 ^ 16)

def readBytes (blob : List UInt8) (i n : Nat) : Option (List UInt8) :=
  if i + n ≤ blob.length then some ((blob.drop i).take n) else none

def readElfhdr (blob : List UInt8) : Option Elfhdr := do
  let magic ← readU32 blob 0
  let type ← readU16 blob 16
  let machine ← readU16 blob 18
  let entry ← readU32 blob 24
  let phoff ← readU32 blob 28
  let phentsize ← readU16 blob 42
  let phnum ← readU16 blob 44
  some ⟨magic,type,machine,entry,phoff,phentsize,phnum⟩

def readProghdr (blob : List UInt8) (at_ : Nat) : Option Proghdr := do
  let type ← readU32 blob at_
  let off ← readU32 blob (at_ + 4)
  let vaddr ← readU32 blob (at_ + 8)
  let filesz ← readU32 blob (at_ + 16)
  let memsz ← readU32 blob (at_ + 20)
  let flags ← readU32 blob (at_ + 24)
  some ⟨type,off,vaddr,filesz,memsz,flags⟩

def readEach {α σ : Type*} (body : α → σ → Option (σ × Bool)) : List α → σ → Option (σ × Bool)
  | [], s => some (s,true)
  | a :: as, s =>
    match body a s with
    | none => none
    | some (s',true) => readEach body as s'
    | some (s',false) => some (s',false)

def readSegPage (blob : List UInt8) (off va filesz : Nat) (w : Bool) (i : Nat) (s : Space) :
    Option (Space × Bool) :=
  let r := match s.pd.walkaddr i with
    | some f => (s,some f)
    | none => s.mapNewPage i w
  match r with
  | (s,none) => some (s,false)
  | (s,some f) =>
    let lo := max va i
    let hi := min (va + filesz) (i + pgSize)
    if lo < hi then
      (readBytes blob (off + (lo - va)) (hi - lo)).map fun bs =>
        ({ s with phys := s.phys.writeBytes f (lo - i) bs },true)
    else some (s,true)

def readSeg (blob : List UInt8) (off va filesz memsz : Nat) (w : Bool) (s : Space) :
    Option (Space × Bool) :=
  if memsz < filesz then some (s,false)
  else if memsz = 0 then some (s,true)
  else if va < userLoad ∨ userEnd < (va + memsz) % word then some (s,false)
  else
    readEach (readSegPage blob off va filesz w) (pageRange (pgRoundDown va) ((va + memsz) % word)) s

def readSegment (blob : List UInt8) (at_ : Nat) (sb : Space × Nat) :
    Option ((Space × Nat) × Bool) := do
  let ph ← readProghdr blob at_
  if ph.type ≠ elfProgLoad ∨ ph.memsz = 0 then some (sb,true)
  else if ph.memsz < ph.filesz then some (sb,false)
  else if blob.length < ph.off ∨ blob.length - ph.off < ph.filesz then some (sb,false)
  else if ph.vaddr < userLoad then some (sb,false)
  else
    let segEnd := (ph.vaddr + ph.memsz) % word
    if segEnd < ph.vaddr ∨ userHeapTop < segEnd then some (sb,false)
    else
      match readSeg blob ph.off ph.vaddr ph.filesz ph.memsz
          (ph.flags &&& elfProgFlagWrite != 0) sb.1 with
      | none => none
      | some (s,false) => some ((s,sb.2),false)
      | some (s,true) => some ((s,max sb.2 segEnd),true)

def readElf (blob : List UInt8) (s : Space) : Option (Space × Option (Nat × Nat)) := do
  let eh ← readElfhdr blob
  let phEnd := (eh.phoff + eh.phnum * sizeofProghdr) % word
  if eh.magic ≠ elfMagic ∨ eh.type ≠ etExec ∨ eh.machine ≠ em386 then some (s,none)
  else if eh.phentsize ≠ sizeofProghdr ∨ eh.phnum = 0 then some (s,none)
  else if blob.length ≤ eh.phoff ∨ blob.length < phEnd ∨ phEnd < eh.phoff then some (s,none)
  else
    match readEach (fun i => readSegment blob (eh.phoff + i * sizeofProghdr))
        (List.range eh.phnum) (s,userLoad) with
    | none => none
    | some ((s,_),false) => some (s,none)
    | some ((s,brk),true) =>
      if eh.entry < userLoad ∨ userHeapTop ≤ eh.entry then some (s,none)
      else some (s,some (eh.entry,brk))

variable {blob : List UInt8} {s : Space} {X Y : Nat → Nat}

theorem readByte_eq {i : Nat} (h : i < blob.length) : readByte blob i = some (byteAt blob i) := by
  rw [readByte,byteAt,getD_eq_getElem?_getD,getElem?_eq_getElem h]
  rfl

theorem readU16_eq {i : Nat} (h : i + 2 ≤ blob.length) : readU16 blob i = some (u16At blob i) := by
  rw [readU16,readByte_eq (by omega),readByte_eq (by omega)]
  rfl

theorem readU32_eq {i : Nat} (h : i + 4 ≤ blob.length) : readU32 blob i = some (u32At blob i) := by
  rw [readU32,readU16_eq (by omega),readU16_eq (by omega)]
  rfl

theorem readElfhdr_eq (h : sizeofElfhdr ≤ blob.length) : readElfhdr blob = some (elfhdr blob) := by
  rw [sizeofElfhdr] at h
  rw [readElfhdr,readU32_eq (by omega),readU16_eq (by omega),readU16_eq (by omega),
    readU32_eq (by omega),readU32_eq (by omega),readU16_eq (by omega),readU16_eq (by omega)]
  rfl

theorem readProghdr_eq {at_ : Nat} (h : at_ + sizeofProghdr ≤ blob.length) :
    readProghdr blob at_ = some (proghdr blob at_) := by
  rw [sizeofProghdr] at h
  rw [readProghdr,readU32_eq (by omega),readU32_eq (by omega),readU32_eq (by omega),
    readU32_eq (by omega),readU32_eq (by omega),readU32_eq (by omega)]
  rfl

theorem readEach_eq {α σ : Type*} (body : α → σ → σ × Bool) {read : α → σ → Option (σ × Bool)}
    {as : List α} (h : ∀ a ∈ as, ∀ s, read a s = some (body a s)) (s : σ) :
    readEach read as s = some (Loop.forEach body as s) := by
  induction as generalizing s with
  | nil => rfl
  | cons a as ih =>
    rw [readEach,h a mem_cons_self s]
    rcases hb : body a s with ⟨t,b⟩
    cases b with
    | true =>
      rw [Loop.forEach_cons_true hb]
      exact ih (fun c hc => h c (mem_cons_of_mem a hc)) t
    | false =>
      rw [Loop.forEach_cons_false hb]

theorem readSegPage_eq {off va filesz i : Nat} {w : Bool} (h : off + filesz ≤ blob.length)
    (s : Space) : readSegPage blob off va filesz w i s =
      some (loaduvmSegPage va filesz (blob.drop off) w i s) := by
  have hcopy : ∀ (t : Space) (f : Nat), (if max va i < min (va + filesz) (i + pgSize) then
        (readBytes blob (off + (max va i - va)) (min (va + filesz) (i + pgSize) - max va i)).map
          fun bs => (({ t with phys := t.phys.writeBytes f (max va i - i) bs } : Space),true)
        else some (t,true)) =
      some (if max va i < min (va + filesz) (i + pgSize) then
        (({ t with phys := t.phys.writeBytes f (max va i - i) (((blob.drop off).drop
          (max va i - va)).take (min (va + filesz) (i + pgSize) - max va i)) } : Space),true)
        else (t,true)) := by
    intro t f
    split
    · rw [readBytes,if_pos (by omega),drop_drop]
      rfl
    · rfl
  simp only [readSegPage,loaduvmSegPage]
  rcases s.pd.walkaddr i with _ | f
  · rcases s.mapNewPage i w with ⟨t,_ | f⟩
    · rfl
    · exact hcopy t f
  · exact hcopy s f

theorem readSeg_eq {off va filesz memsz : Nat} {w : Bool} (h : off + filesz ≤ blob.length)
    (s : Space) : readSeg blob off va filesz memsz w s =
      some (loaduvmSeg va (blob.drop off) filesz memsz w s) := by
  rw [readSeg,loaduvmSeg]
  split
  · rfl
  split
  · rfl
  split
  · rfl
  · exact readEach_eq _ (fun i _ t => readSegPage_eq h t) s

theorem readSegment_eq {at_ : Nat} (h : at_ + sizeofProghdr ≤ blob.length) (sb : Space × Nat) :
    readSegment blob at_ sb = some (execLoadSegment blob (proghdr blob at_) sb) := by
  rw [readSegment,readProghdr_eq h,bind_eq_bind,bind_some]
  simp only [execLoadSegment]
  split
  · rfl
  split
  · rfl
  split
  · rfl
  rename_i hin
  split
  · rfl
  split
  · rfl
  rw [readSeg_eq (by omega)]
  rcases loaduvmSeg (proghdr blob at_).vaddr (blob.drop (proghdr blob at_).off)
    (proghdr blob at_).filesz (proghdr blob at_).memsz
    ((proghdr blob at_).flags &&& elfProgFlagWrite != 0) sb.1 with ⟨t,_ | _⟩ <;> rfl

theorem u16At_lt (blob : List UInt8) (i : Nat) : u16At blob i < 2 ^ 16 := by
  have h0 : byteAt blob i < 256 := UInt8.toNat_lt _
  have h1 : byteAt blob (i + 1) < 256 := UInt8.toNat_lt _
  rw [u16At]
  omega

theorem readElf_eq (h : sizeofElfhdr ≤ blob.length) (s : Space) :
    readElf blob s = some (execLoadElf blob s) := by
  rw [readElf,readElfhdr_eq h,bind_eq_bind,bind_some]
  simp only [execLoadElf]
  split
  · rfl
  split
  · rfl
  split
  · rfl
  rename_i htable
  have hphdrs : (elfhdr blob).phoff + (elfhdr blob).phnum * sizeofProghdr ≤ blob.length := by
    have hnum : (elfhdr blob).phnum < 2 ^ 16 := u16At_lt _ _
    have hoff : (elfhdr blob).phoff < word := u32At_lt _ _
    simp only [sizeofProghdr,word] at *
    omega
  rw [readEach_eq (fun i => execLoadSegment blob
    (proghdr blob ((elfhdr blob).phoff + i * sizeofProghdr))) ?_ (s,userLoad)]
  · generalize Loop.forEach (fun i => execLoadSegment blob
      (proghdr blob ((elfhdr blob).phoff + i * sizeofProghdr))) (List.range (elfhdr blob).phnum)
      (s,userLoad) = r
    rcases r with ⟨⟨t,brk⟩,_ | _⟩
    · rfl
    · simp only
      split <;> rfl
  · intro i hi sb
    have hlt := mem_range.mp hi
    refine readSegment_eq ?_ sb
    simp only [sizeofProghdr] at *
    omega

def Inside (p : Nat) : Prop := userLoad / pgSize ≤ p ∧ p * pgSize < userHeapTop

theorem execLoadSegment_inside {ph : Proghdr} {sb : Space × Nat}
    (h : Loaded s sb.1 X Y Inside) (hmem : ph.memsz < word) :
    Loaded s (execLoadSegment blob ph sb).1.1 X Y Inside := by
  rcases he : execLoadSegment blob ph sb with ⟨sb',b⟩
  rcases execLoadSegment_cases hmem he with ⟨rfl,-⟩ | ⟨⟨-,-,-,hlow,hend⟩,t,ht,rfl⟩
  · exact h
  have hload := loaduvmSeg_loaded (blob.drop ph.off) ph.filesz
    (ph.flags &&& elfProgFlagWrite != 0) h.ok h.sole (hend.trans userHeapTop_le)
  rw [ht] at hload
  exact h.trans (hload.mono fun p hp =>
    ⟨(Nat.div_le_div_right hlow).trans hp.1,hp.2.trans_le hend⟩)

theorem execLoadElf_inside (h : s.Ok X Y) (hs : s.Sole X) :
    Loaded s (execLoadElf blob s).1 X Y Inside := by
  have hloop : Loaded s (Loop.forEach (fun i => execLoadSegment blob
      (proghdr blob ((elfhdr blob).phoff + i * sizeofProghdr))) (List.range (elfhdr blob).phnum)
      (s,userLoad)).1.1 X Y Inside :=
    Loop.forEach_invariant (I := fun sb : Space × Nat => Loaded s sb.1 X Y Inside)
      (fun _ _ _ hsb => execLoadSegment_inside hsb (u32At_lt _ _)) (.refl h hs)
  rcases execLoadElf_cases blob s with hr | ⟨t,brk,b,hrun,hr | ⟨-,-,-,hr⟩⟩ <;> rw [hr]
  · exact .refl h hs
  all_goals
    rw [hrun] at hloop
    exact hloop

theorem foldl_end_greatest (segs : List Seg) :
    IsGreatest {e | e = userLoad ∨ ∃ g ∈ segs, e = g.vaddr + g.memsz}
      (segs.foldl (fun brk g => max brk (g.vaddr + g.memsz)) userLoad) := by
  induction segs using List.reverseRecOn with
  | nil => simp
  | append_singleton segs g ih =>
    rw [foldl_append]
    refine ⟨?_,?_⟩
    · rcases max_choice (segs.foldl (fun brk g => max brk (g.vaddr + g.memsz)) userLoad)
        (g.vaddr + g.memsz) with hm | hm
      · refine ih.1.imp (fun he => hm.trans he) ?_
        rintro ⟨g',hg',he⟩
        exact ⟨g',mem_append_left _ hg',hm.trans he⟩
      · exact .inr ⟨g,by simp,hm⟩
    · rintro e (rfl | ⟨g',hg',rfl⟩)
      · exact le_max_of_le_left (ih.2 (.inl rfl))
      · rcases mem_append.mp hg' with hg' | hg'
        · exact le_max_of_le_left (ih.2 (.inr ⟨g',hg',rfl⟩))
        · obtain rfl := mem_singleton.mp hg'
          exact le_max_right _ _

theorem elf_parse_safe (blob : List UInt8) (s : Space) (X Y : Nat → Nat) (h : s.Ok X Y)
    (hnew : ∀ a < userEnd, s.pd.lookup a = none) (hsize : sizeofElfhdr ≤ blob.length) :
    readElf blob s = some (execLoadElf blob s) ∧
      (∀ a < word, (execLoadElf blob s).1.pd.lookup a ≠ s.pd.lookup a →
        userLoad ≤ a ∧ a < userHeapTop) ∧
      ∀ entry brk, (execLoadElf blob s).2 = some (entry,brk) →
        (userLoad ≤ entry ∧ entry < userHeapTop) ∧
          IsGreatest {e | e = userLoad ∨ ∃ g ∈ segments blob, e = g.vaddr + g.memsz} brk := by
  have hs : s.Sole X := fun a ha pte hl => by
    rw [hnew a ha] at hl
    cases hl
  refine ⟨readElf_eq hsize s,fun a ha hne => ?_,fun entry brk hr => ?_⟩
  · obtain ⟨hlow,htop⟩ := ((execLoadElf_inside h hs).pages a ha).resolve_left hne
    have haligned : userHeapTop % pgSize = 0 := by decide
    have hload : userLoad % pgSize = 0 := by decide
    simp only [pgSize] at *
    omega
  · obtain ⟨hbuilt,hlow,htop⟩ := execLoadElf_built h hnew (Prod.ext rfl hr)
    refine ⟨⟨hlow,htop⟩,?_⟩
    rw [show brk = _ from hbuilt.brk]
    exact foldl_end_greatest _

theorem elf_parse_safe_shared : ∃ (s : Space) (entry : Nat),
    readElf sharedPage s = some (execLoadElf sharedPage s) ∧
      (execLoadElf sharedPage s).2 = some (entry,0x400104) := by
  obtain ⟨k,hk,ht⟩ := exists_booted
    (fun k => (execLoadElf sharedPage ⟨k.phys,fun _ => none⟩).2.isSome) (by decide +kernel)
  obtain ⟨⟨entry,brk⟩,hr⟩ := isSome_iff_exists.mp ht
  obtain ⟨hread,-,hout⟩ := elf_parse_safe sharedPage ⟨k.phys,fun _ => none⟩ _ _
    (newSpace_ok hk) (fun _ _ => rfl) (by decide)
  obtain ⟨-,hmem,hmax⟩ := hout entry brk hr
  have hsegs : segments sharedPage =
      [⟨0x400010,8,3,116,false⟩,⟨0x400100,4,2,119,true⟩] := by decide
  have hbrk : brk = 0x400104 := by
    rw [hsegs] at hmem hmax
    have hle : 0x400104 ≤ brk := hmax (.inr ⟨⟨0x400100,4,2,119,true⟩,by simp,rfl⟩)
    have hcases : brk = userLoad ∨ brk = 0x400018 ∨ brk = 0x400104 := by simpa using hmem
    simp only [userLoad] at hcases
    omega
  exact ⟨_,entry,hread,hbrk ▸ hr⟩

end TinyOs.Elf
