import TinyOs.Mm.Copy
import TinyOs.Proc

namespace TinyOs

open Count

variable {x : Ctx} {name : List UInt8} {sb sb' : Space × Nat} {argv envp : List (List UInt8)}

namespace Space

variable {s s' s'' : Space} {X Y : Nat → Nat} {P Q : Nat → Prop} {va f : Nat} {w : Bool}

def Sole (s : Space) (X : Nat → Nat) : Prop := ∀ a < userEnd, ∀ pte, s.pd.lookup a = some pte →
    (s.pd.userRefs + X) pte.frame = 1 ∧ pte.perm.cow = false

structure Loaded (s s' : Space) (X Y : Nat → Nat) (P : Nat → Prop) : Prop where
  ok : s'.Ok X Y
  sole : s'.Sole X
  keeps : Keeps X s.phys s'.phys
  pages : ∀ a < word, s'.pd.lookup a = s.pd.lookup a ∨ P (a / pgSize)

namespace Loaded

theorem refl (h : s.Ok X Y) (hs : s.Sole X) : Loaded s s X Y P :=
  ⟨h,hs,Keeps.refl _ _,fun _ _ => .inl rfl⟩

theorem trans (h : Loaded s s' X Y P) (h' : Loaded s' s'' X Y P) : Loaded s s'' X Y P :=
  ⟨h'.ok,h'.sole,h.keeps.trans h'.keeps,fun a ha =>
    (h'.pages a ha).elim (fun he => (h.pages a ha).imp_left he.trans) .inr⟩

theorem mono (h : Loaded s s' X Y P) (hpq : ∀ p, P p → Q p) : Loaded s s' X Y Q :=
  ⟨h.ok,h.sole,h.keeps,fun a ha => (h.pages a ha).imp_right (hpq _)⟩

theorem of_filled (hs : s.Sole X) (hf : Filled s s' X Y va f w) :
    Loaded s s' X Y (· = va / pgSize) := by
  refine ⟨hf.ok,fun a ha pte hl => ?_,hf.keeps.mono fun g hg => Nat.add_pos_right _ hg,
    fun a ha => ?_⟩
  · rw [hf.lookup a (ha.trans userEnd_lt)] at hl
    split at hl
    · cases hl
      exact ⟨hf.sole,rfl⟩
    obtain ⟨hone,hcow⟩ := hs a ha pte hl
    refine ⟨?_,hcow⟩
    have hfresh := hf.fresh
    have hgf : pte.frame ≠ f := by
      rintro rfl
      omega
    simp only [hf.refs,Pi.add_apply,unit_of_ne hgf] at hone ⊢
    omega
  · rw [hf.lookup a ha]
    split
    · exact .inr ‹_›
    · exact .inl rfl

theorem of_walked (hs : s.Sole X) (hw : Walked s s' X Y) : Loaded s s' X Y P := by
  refine ⟨hw.ok,fun a ha pte hl => ?_,hw.keeps.mono fun g hg => Nat.add_pos_right _ hg,
    fun a _ => .inl (hw.lookup a)⟩
  rw [hw.lookup] at hl
  rw [hw.refs]
  exact hs a ha pte hl

theorem write (h : Loaded s s' X Y P) {a off : Nat} {pte : Pte} {bs : List UInt8}
    (ha : a < userEnd) (hl : s'.pd.lookup a = some pte) :
    Loaded s { s' with phys := s'.phys.writeBytes pte.frame off bs } X Y P := by
  refine ⟨⟨⟨h.ok.phys.acct,h.ok.phys.running⟩,h.ok.wf⟩,h.sole,
    ⟨fun g hg => ?_,h.keeps.failed,h.keeps.blocks⟩,
    h.pages⟩
  have hone := (h.sole a ha pte hl).1
  have hpos := Pgdir.userRefs_pos h.ok.wf ha hl
  have hne : g ≠ pte.frame := by
    rintro rfl
    rw [Pi.add_apply] at hone
    omega
  rw [← h.keeps.mem g hg]
  simp [Phys.writeBytes,Function.update_of_ne hne]

end Loaded

theorem Filled.self (h : Filled s s' X Y va f w) (hlt : va < userEnd) :
    s'.pd.lookup va = some ⟨f,⟨w,true,false⟩⟩ :=
  (h.lookup va (hlt.trans userEnd_lt)).trans (if_pos rfl)

theorem mapNewPage_loaded (h : s.Ok X Y) (hs : s.Sole X) (ha : va % pgSize = 0)
    (hlt : va < userEnd) : Loaded s (s.mapNewPage va w).1 X Y (· = va / pgSize) := by
  rcases hm : s.mapNewPage va w with ⟨t,_ | f⟩
  · exact .of_walked hs (mapNewPage_none h ha hlt hm).1
  · exact .of_filled hs (mapNewPage_some h ha hlt hm)

end Space

open Space

variable {s s' : Space} {X Y : Nat → Nat} {a va : Nat} {src blob : List UInt8}

theorem loaduvmPage_loaded (h : s.Ok X Y) (hs : s.Sole X) (ha : a % pgSize = 0)
    (hlt : a < userEnd) : Loaded s (loaduvmPage va src a s).1 X Y (· = a / pgSize) := by
  simp only [loaduvmPage]
  rcases hm : s.mapNewPage a true with ⟨t,_ | f⟩
  · exact .of_walked hs (mapNewPage_none h ha hlt hm).1
  · have hf := mapNewPage_some h ha hlt hm
    exact (Loaded.of_filled hs hf).write hlt (hf.self hlt)

theorem loaduvm_loaded (va : Nat) (src : List UInt8) (h : s.Ok X Y) (hs : s.Sole X)
    (hend : va + src.length ≤ userEnd) :
    Loaded s (loaduvm va src s).1 X Y (fun p => p * pgSize < va + src.length) := by
  simp only [loaduvm]
  split
  · exact .refl h hs
  rename_i hva
  split
  · exact .refl h hs
  refine Loop.forEach_invariant
    (I := fun t => Loaded s t X Y fun p => p * pgSize < va + src.length) ?_ (.refl h hs)
  intro a ha t ht
  obtain ⟨i,rfl,hlt⟩ := mem_pageRange.mp ha
  have hal : (va + i * pgSize) % pgSize = 0 := by
    simp only [pgSize] at *
    omega
  refine ht.trans ((loaduvmPage_loaded ht.ok ht.sole hal (hlt.trans_le hend)).mono ?_)
  rintro p rfl
  exact (Nat.div_mul_le_self _ _).trans_lt hlt

theorem loaduvmSegPage_loaded {filesz i : Nat} {w : Bool} (h : s.Ok X Y) (hs : s.Sole X)
    (ha : i % pgSize = 0) (hlt : i < userEnd) :
    Loaded s (loaduvmSegPage va filesz src w i s).1 X Y (· = i / pgSize) := by
  have hcopy : ∀ (t : Space) (pte : Pte) (off : Nat) (bs : List UInt8) (lo hi : Nat),
      Loaded s t X Y (· = i / pgSize) → t.pd.lookup i = some pte →
      Loaded s (if lo < hi then
        (({ t with phys := t.phys.writeBytes pte.frame off bs } : Space),true)
        else (t,true)).1 X Y (· = i / pgSize) := by
    intro t pte off bs lo hi ht hl
    split
    · exact ht.write hlt hl
    · exact ht
  simp only [loaduvmSegPage]
  rcases hl : s.pd.walkaddr i with _ | f
  · rcases hm : s.mapNewPage i w with ⟨t,_ | f⟩
    · exact .of_walked hs (mapNewPage_none h ha hlt hm).1
    · have hf := mapNewPage_some h ha hlt hm
      exact hcopy t _ _ _ _ _ (.of_filled hs hf) (hf.self hlt)
  · rw [Pgdir.walkaddr_eq h.wf (hlt.trans userEnd_lt),if_pos hlt] at hl
    obtain ⟨pte,hpte,rfl⟩ := Option.map_eq_some_iff.mp hl
    exact hcopy s pte _ _ _ _ (.refl h hs) hpte

theorem loaduvmSeg_loaded (src : List UInt8) (filesz : Nat) {memsz : Nat} (w : Bool) (h : s.Ok X Y)
    (hs : s.Sole X)
    (hend : va + memsz ≤ userEnd) :
    Loaded s (loaduvmSeg va src filesz memsz w s).1 X Y
      (fun p => va / pgSize ≤ p ∧ p * pgSize < va + memsz) := by
  have hmod : (va + memsz) % word = va + memsz := Nat.mod_eq_of_lt (hend.trans_lt userEnd_lt)
  simp only [loaduvmSeg,hmod]
  split
  · exact .refl h hs
  split
  · exact .refl h hs
  split
  · exact .refl h hs
  refine Loop.forEach_invariant
    (I := fun t => Loaded s t X Y fun p => va / pgSize ≤ p ∧ p * pgSize < va + memsz) ?_ (.refl h hs)
  intro a ha t ht
  obtain ⟨i,rfl,hlt⟩ := mem_pageRange.mp ha
  have hal : (pgRoundDown va + i * pgSize) % pgSize = 0 := by
    have := pgRoundDown_mod va
    simp only [pgSize] at *
    omega
  refine ht.trans ((loaduvmSegPage_loaded ht.ok ht.sole hal (hlt.trans_le hend)).mono ?_)
  rintro p rfl
  refine ⟨?_,(Nat.div_mul_le_self _ _).trans_lt hlt⟩
  simp only [pgRoundDown,pgSize]
  omega

structure LoadedTo (s : Space) (X Y : Nat → Nat) (sb : Space × Nat) : Prop where
  loaded : Loaded s sb.1 X Y (fun p => p * pgSize < sb.2)
  low : userLoad ≤ sb.2
  top : sb.2 ≤ userHeapTop

theorem u32At_lt (blob : List UInt8) (i : Nat) : u32At blob i < word := by
  have hbyte : ∀ j, byteAt blob j < 256 := fun j => UInt8.toNat_lt _
  have h0 := hbyte i
  have h1 := hbyte (i + 1)
  have h2 := hbyte (i + 2)
  have h3 := hbyte (i + 2 + 1)
  simp only [u32At,u16At,word]
  omega

theorem execLoadSegment_cases {ph : Proghdr} {b : Bool}
    (hmem : ph.memsz < word) (he : execLoadSegment blob ph sb = (sb',b)) :
    (sb' = sb ∧ (b = true → ph.type ≠ elfProgLoad ∨ ph.memsz = 0)) ∨
      (ph.memsz ≠ 0 ∧ ph.filesz ≤ ph.memsz ∧ ph.off + ph.filesz ≤ blob.length ∧
        userLoad ≤ ph.vaddr ∧ ph.vaddr + ph.memsz ≤ userHeapTop) ∧
      ∃ t, loaduvmSeg ph.vaddr (blob.drop ph.off) ph.filesz ph.memsz
          (ph.flags &&& elfProgFlagWrite != 0) sb.1 = (t,b) ∧
        sb' = (t,if b then max sb.2 (ph.vaddr + ph.memsz) else sb.2) := by
  simp only [execLoadSegment] at he
  split at he
  · rename_i hskip
    cases he
    exact .inl ⟨rfl,fun _ => hskip⟩
  rename_i hkeep
  split at he
  · cases he
    exact .inl ⟨rfl,nofun⟩
  split at he
  · cases he
    exact .inl ⟨rfl,nofun⟩
  split at he
  · cases he
    exact .inl ⟨rfl,nofun⟩
  split at he
  · cases he
    exact .inl ⟨rfl,nofun⟩
  rename_i hseg
  have hmod : (ph.vaddr + ph.memsz) % word = ph.vaddr + ph.memsz := by
    simp only [word] at *
    omega
  rw [hmod] at hseg he
  refine .inr ⟨⟨(not_or.mp hkeep).2,by omega,by omega,by omega,by omega⟩,?_⟩
  split at he
  all_goals
    rename_i t ht
    cases he
    exact ⟨t,ht,rfl⟩

theorem execLoadElf_cases (blob : List UInt8) (s : Space) :
    execLoadElf blob s = (s,none) ∨ ∃ t brk b,
      Loop.forEach (fun i => execLoadSegment blob
        (proghdr blob ((elfhdr blob).phoff + i * sizeofProghdr))) (List.range (elfhdr blob).phnum)
        (s,userLoad) = ((t,brk),b) ∧
      (execLoadElf blob s = (t,none) ∨ b = true ∧ userLoad ≤ (elfhdr blob).entry ∧
        (elfhdr blob).entry < userHeapTop ∧
        execLoadElf blob s = (t,some ((elfhdr blob).entry,brk))) := by
  simp only [execLoadElf]
  split
  · exact .inl rfl
  split
  · exact .inl rfl
  split
  · exact .inl rfl
  refine .inr ?_
  split
  · rename_i t brk hr
    exact ⟨t,brk,false,hr,.inl rfl⟩
  rename_i t brk hr
  refine ⟨t,brk,true,hr,?_⟩
  split
  · exact .inl rfl
  · exact .inr ⟨rfl,by omega,by omega,rfl⟩

theorem execLoadSegment_loaded {ph : Proghdr} {b : Bool}
    (h : LoadedTo s X Y sb) (hmem : ph.memsz < word) (he : execLoadSegment blob ph sb = (sb',b)) :
    if b then LoadedTo s X Y sb' else Loaded s sb'.1 X Y (fun _ => True) := by
  have hany : Loaded s sb.1 X Y (fun _ => True) := h.loaded.mono fun _ _ => trivial
  rcases execLoadSegment_cases hmem he with ⟨rfl,-⟩ | ⟨⟨-,-,-,-,hend⟩,t,ht,rfl⟩
  · split
    · exact h
    · exact hany
  have hload := loaduvmSeg_loaded (blob.drop ph.off) ph.filesz
    (ph.flags &&& elfProgFlagWrite != 0) h.loaded.ok h.loaded.sole (hend.trans userHeapTop_le)
  rw [ht] at hload
  cases b with
  | false => exact hany.trans (hload.mono fun _ _ => trivial)
  | true =>
    have h1 := h.low
    have h2 := h.top
    refine ⟨(h.loaded.mono fun p hp => ?_).trans (hload.mono fun p hp => ?_),le_max_of_le_left h1,
      max_le h2 hend⟩
    · exact lt_max_of_lt_left hp
    · exact lt_max_of_lt_right hp.2

theorem execLoadElf_loaded {r : Option (Nat × Nat)} (h : s.Ok X Y) (hs : s.Sole X)
    (he : execLoadElf blob s = (s',r)) :
    Loaded s s' X Y (fun _ => True) ∧ ∀ entry brk, r = some (entry,brk) →
      LoadedTo s X Y (s',brk) := by
  have hloop := Loop.forEach_range_rule
    (fun i => execLoadSegment blob (proghdr blob ((elfhdr blob).phoff + i * sizeofProghdr)))
    (elfhdr blob).phnum (s := (s,userLoad)) (I := fun _ sb => LoadedTo s X Y sb)
    (E := fun sb => Loaded s sb.1 X Y (fun _ => True))
    (fun i _ sb sb' hi hb => execLoadSegment_loaded hi (u32At_lt _ _) hb)
    (fun i _ sb sb' hi hb => execLoadSegment_loaded hi (u32At_lt _ _) hb)
    ⟨.refl h hs,le_rfl,show userLoad ≤ userHeapTop by decide⟩
  rcases execLoadElf_cases blob s with hr | ⟨t,brk,b,hrun,hr | ⟨rfl,-,-,hr⟩⟩
  · rw [hr] at he
    cases he
    exact ⟨.refl h hs,nofun⟩
  · rw [hr] at he
    rw [hrun] at hloop
    cases he
    refine ⟨?_,nofun⟩
    cases b with
    | false => exact hloop.2 rfl
    | true => exact (hloop.1 rfl).loaded.mono fun _ _ => trivial
  · rw [hr] at he
    rw [hrun] at hloop
    cases he
    refine ⟨(hloop.1 rfl).loaded.mono fun _ _ => trivial,fun entry brk' hr => ?_⟩
    cases hr
    exact hloop.1 rfl

theorem execMapStack_loaded (h : s.Ok X Y) (hs : s.Sole X) :
    Loaded s (execMapStack s).1 X Y (fun p => userStackBottom / pgSize ≤ p) := by
  refine Loop.forEach_invariant
    (I := fun t => Loaded s t X Y fun p => userStackBottom / pgSize ≤ p) ?_ (.refl h hs)
  intro a ha t ht
  obtain ⟨i,rfl,hlt⟩ := mem_pageRange.mp ha
  have hal : (userStackBottom + i * pgSize) % pgSize = 0 := by
    rw [Nat.add_mul_mod_self_right]
    decide
  have hpage : (execMapStackPage (userStackBottom + i * pgSize) t).1 =
      (t.mapNewPage (userStackBottom + i * pgSize) true).1 := by
    simp only [execMapStackPage]
    rcases t.mapNewPage (userStackBottom + i * pgSize) true with ⟨u,_ | f⟩ <;> rfl
  rw [hpage]
  refine ht.trans ((mapNewPage_loaded ht.ok ht.sole hal hlt).mono ?_)
  rintro p rfl
  exact Nat.div_le_div_right (Nat.le_add_right _ _)

structure Ctx.Written (x y : Ctx) (X Y : Nat → Nat) : Prop where
  loaded : Loaded x.space y.space X Y (fun _ => False)
  shm : y.shm = x.shm
  mm : y.mm = x.mm

theorem Ctx.Written.refl (h : x.space.Ok X Y) (hs : x.space.Sole X) : Ctx.Written x x X Y :=
  ⟨.refl h hs,rfl,rfl⟩

theorem Ctx.Written.trans {y z : Ctx} (h : Ctx.Written x y X Y) (h' : Ctx.Written y z X Y) :
    Ctx.Written x z X Y :=
  ⟨h.loaded.trans h'.loaded,h'.shm.trans h.shm,h'.mm.trans h.mm⟩

theorem pin_sole {y : Ctx} {o : Option Nat} (h : x.space.Ok X Y) (hs : x.space.Sole X)
    (hw : va < word) (hp : x.pin false va true = (y,o)) :
    y = x ∧ ∀ f, o = some f → va < userEnd ∧ ∃ pte, x.mm.pd.lookup va = some pte ∧ pte.frame = f := by
  have hwd := pgRoundDown_lt_word hw
  have hwf : x.mm.pd.Wf := h.wf
  have hlook := x.mm.pd.lookup_pgRoundDown hw
  rcases hl : x.mm.pd.lookup va with _ | pte
  · have hensure : x.ensureUserPage false (pgRoundDown va) true = (x,false) := by
      simp [Ctx.ensureUserPage,pgRoundDown_of_mod (pgRoundDown_mod va),hlook,hl]
    simp only [Ctx.pin,hensure,Prod.mk.injEq] at hp
    exact ⟨hp.1.symm,fun f hf => by simp [← hp.2] at hf⟩
  have hcow : pte.perm.cow = false := by
    by_cases hlt : va < userEnd
    · exact (hs va hlt pte hl).2
    · exact (hwf.lookup_kernel (not_lt.mp hlt) hw hl).2
  have hensure : x.ensureUserPage false (pgRoundDown va) true = (x,true) := by
    simp [Ctx.ensureUserPage,pgRoundDown_of_mod (pgRoundDown_mod va),hlook,hl,hcow]
  simp only [Ctx.pin,hensure,Prod.mk.injEq,Pgdir.walkaddr_eq hwf hwd,hlook,hl] at hp
  refine ⟨hp.1.symm,fun f hf => ?_⟩
  rw [hf] at hp
  by_cases hlt : pgRoundDown va < userEnd
  · rw [if_pos hlt] at hp
    exact ⟨pgRoundDown_lt_userEnd.mp hlt,pte,rfl,by simpa using hp.2⟩
  · rw [if_neg hlt] at hp
    cases hp.2

theorem copyoutLoop_written (fuel : Nat) {dstva : Nat} (src : List UInt8) (h : x.space.Ok X Y)
    (hs : x.space.Sole X) (hw : dstva < word) :
    Ctx.Written x (Ctx.copyoutLoop false fuel x dstva src).1 X Y := by
  induction fuel generalizing x dstva src with
  | zero => exact .refl h hs
  | succ fuel ih =>
    by_cases hn : src = []
    · simp only [Ctx.copyoutLoop,if_pos hn]
      exact .refl h hs
    rw [Ctx.copyoutLoop_succ hn]
    rcases hp : x.pin false dstva true with ⟨y,_ | f⟩
    · obtain ⟨rfl,-⟩ := pin_sole h hs hw hp
      exact .refl h hs
    obtain ⟨rfl,hf⟩ := pin_sole h hs hw hp
    obtain ⟨hlt,pte,hl,rfl⟩ := hf f rfl
    generalize hc : Ctx.chunk dstva src.length = c
    have hwrite : Ctx.Written y
        { y with phys := y.phys.writeBytes pte.frame (dstva % pgSize) (src.take c) } X Y :=
      ⟨(Loaded.refl h hs).write hlt hl,rfl,rfl⟩
    exact hwrite.trans (ih _ hwrite.loaded.ok hwrite.loaded.sole (Nat.mod_lt _ (by decide)))

theorem pushString_written {str : List UInt8} {st : Pushed}
    (h : Ctx.Written x st.ctx X Y) (hsp : st.sp ≤ userStack) :
    Ctx.Written x (pushString str st).1.ctx X Y ∧ (pushString str st).1.sp ≤ userStack := by
  have hw : userStack < word := userEnd_lt
  simp only [pushString]
  split
  · exact ⟨h,hsp⟩
  have hcopy := copyoutLoop_written (str ++ [0]).length (str ++ [0]) h.loaded.ok h.loaded.sole
    (show st.sp - (str.length + 1) < word by omega)
  rcases hc : st.ctx.copyout false (st.sp - (str.length + 1)) (str ++ [0]) with ⟨y,_ | _⟩
  · rw [Ctx.copyout] at hc
    rw [hc] at hcopy
    exact ⟨h.trans hcopy,by dsimp only; omega⟩
  · rw [Ctx.copyout] at hc
    rw [hc] at hcopy
    exact ⟨h.trans hcopy,by dsimp only; omega⟩

theorem pushAll_written (strs : List (List UInt8)) (st : Pushed)
    (h : Ctx.Written x st.ctx X Y) (hsp : st.sp ≤ userStack) :
    Ctx.Written x (Loop.forEach pushString strs st).1.ctx X Y ∧
      (Loop.forEach pushString strs st).1.sp ≤ userStack :=
  Loop.forEach_invariant (I := fun st : Pushed => Ctx.Written x st.ctx X Y ∧ st.sp ≤ userStack)
    (fun _ _ _ hst => pushString_written hst.1 hst.2) ⟨h,hsp⟩

theorem copyoutAll_written {parts : List (Nat × List UInt8)} (h : x.space.Ok X Y)
    (hs : x.space.Sole X) (hparts : ∀ part ∈ parts, part.1 < word) :
    Ctx.Written x (copyoutAll x parts).1 X Y := by
  refine Loop.forEach_invariant (I := fun y => Ctx.Written x y X Y) ?_ (.refl h hs)
  intro part hpart y hy
  exact hy.trans (copyoutLoop_written _ _ hy.loaded.ok hy.loaded.sole (hparts part hpart))

theorem execStackArgv_written (name : List UInt8) (argv envp : List (List UInt8))
    (h : x.space.Ok X Y) (hs : x.space.Sole X) :
    Ctx.Written x (execStackArgv x name argv envp).1 X Y := by
  have hrefl : Ctx.Written x x X Y := .refl h hs
  simp only [execStackArgv]
  split
  · exact hrefl
  generalize (if argv = [] then [name] else argv) = argv
  have hargv := pushAll_written argv ⟨x,userStack,[]⟩ hrefl le_rfl
  rcases ha : Loop.forEach pushString argv ⟨x,userStack,[]⟩ with ⟨a,_ | _⟩
  · rw [ha] at hargv
    exact hargv.1
  rw [ha] at hargv
  have henvp := pushAll_written envp ⟨a.ctx,a.sp,[]⟩ hargv.1 hargv.2
  rcases he : Loop.forEach pushString envp ⟨a.ctx,a.sp,[]⟩ with ⟨e,_ | _⟩
  · rw [he] at henvp
    simpa only [he] using henvp.1
  rw [he] at henvp
  simp only [he]
  split
  · exact henvp.1
  rename_i htab
  split
  · exact henvp.1
  have hsp := henvp.2
  have hw : userStack < word := userEnd_lt
  split
  all_goals
    rename_i y hc
    refine henvp.1.trans (congrArg Prod.fst hc ▸ copyoutAll_written henvp.1.loaded.ok
      henvp.1.loaded.sole fun part hp => ?_)
    simp only [List.mem_cons,List.not_mem_nil,or_false] at hp
    rcases hp with rfl | rfl | rfl | rfl <;> dsimp only at * <;> omega

structure Imaged (x x' : Ctx) (X Y : Nat → Nat) (r : Option Nat) : Prop where
  loaded : Loaded x.space x'.space X Y (fun _ => True)
  shm : x'.shm = x.shm
  mm : x'.mm = { x.mm with pd := x'.mm.pd }
  low : ∀ brk, r = some brk → userLoad ≤ brk
  top : ∀ brk, r = some brk → brk ≤ userHeapTop
  pages : ∀ brk, r = some brk → ∀ a < userEnd, x'.mm.pd.lookup a ≠ none →
    x.mm.pd.lookup a ≠ none ∨ a / pgSize * pgSize < brk ∨ userStackBottom / pgSize ≤ a / pgSize

theorem Imaged.of_none (h : Loaded x.space s X Y (fun _ => True)) :
    Imaged x (x.setSpace s) X Y none :=
  ⟨h,rfl,rfl,fun _ => nofun,fun _ => nofun,fun _ => nofun⟩

theorem execImage_rest {x' : Ctx} {heapEnd : Nat} {r : Option Nat}
    (h : LoadedTo x.space X Y (s,heapEnd))
    (he : (match execMapStack s with
      | (s,false) => (x.setSpace s,none)
      | (s,true) =>
        match execStackArgv (x.setSpace s) name argv envp with
        | (x,none) => (x,none)
        | (x,some _) => (x,some (min (max heapEnd userLoad) userHeapTop))) = (x',r)) :
    Imaged x x' X Y r := by
  have hany : ∀ {t : Space} {P : Nat → Prop}, Loaded x.space t X Y P →
      Loaded x.space t X Y (fun _ => True) := fun h => h.mono fun _ _ => trivial
  have hs0 : Loaded x.space s X Y (fun p => p * pgSize < heapEnd) := h.loaded
  have hstack := execMapStack_loaded hs0.ok hs0.sole
  rcases hm : execMapStack s with ⟨t,_ | _⟩
  · rw [hm] at hstack
    simp only [hm,Prod.mk.injEq] at he
    obtain ⟨rfl,rfl⟩ := he
    exact .of_none ((hany hs0).trans (hstack.mono fun _ _ => trivial))
  rw [hm] at hstack
  have htwo : Loaded x.space t X Y (fun p => p * pgSize < heapEnd ∨ userStackBottom / pgSize ≤ p) :=
    (hs0.mono fun _ => .inl).trans (hstack.mono fun _ => .inr)
  have hargv := execStackArgv_written (x := x.setSpace t) name argv envp hstack.ok hstack.sole
  simp only [hm] at he
  rcases ha : execStackArgv (x.setSpace t) name argv envp with ⟨y,_ | sp⟩
  · rw [ha] at hargv
    simp only [ha,Prod.mk.injEq] at he
    obtain ⟨rfl,rfl⟩ := he
    exact ⟨(hany htwo).trans (hargv.loaded.mono fun _ _ => trivial),hargv.shm,by rw [hargv.mm]; rfl,
      fun _ => nofun,fun _ => nofun,fun _ => nofun⟩
  rw [ha] at hargv
  simp only [ha,Prod.mk.injEq] at he
  obtain ⟨rfl,rfl⟩ := he
  have hlow : userLoad ≤ heapEnd := h.low
  have htop : heapEnd ≤ userHeapTop := h.top
  have hbrk : min (max heapEnd userLoad) userHeapTop = heapEnd := by omega
  rw [hbrk]
  refine ⟨(hany htwo).trans (hargv.loaded.mono fun _ _ => trivial),hargv.shm,by rw [hargv.mm]; rfl,
    fun _ hr => ?_,fun _ hr => ?_,fun _ hr a ha hne => ?_⟩
  · cases hr
    exact hlow
  · cases hr
    exact htop
  · cases hr
    have hload := htwo.trans (hargv.loaded.mono fun _ hf => hf.elim)
    exact (hload.pages a (ha.trans userEnd_lt)).imp_left fun he => he.symm.trans_ne hne

theorem execImage_imaged {x' : Ctx} {r : Option Nat} (h : x.space.Ok X Y) (hs : x.space.Sole X)
    (he : execImage x blob name argv envp = (x',r)) : Imaged x x' X Y r := by
  simp only [execImage] at he
  split at he
  · rename_i t ht
    cases he
    refine .of_none ?_
    split at ht
    · rcases hl : execLoadElf blob x.space with ⟨u,_ | ⟨e,brk⟩⟩
      · simp only [hl,Prod.mk.injEq,and_true] at ht
        exact ht ▸ (execLoadElf_loaded h hs hl).1
      · simp [hl] at ht
    split at ht
    · cases ht
      exact .refl h hs
    rename_i hlen
    have hload := loaduvm_loaded userLoad blob h hs (by
      have := userHeapTop_le
      have : userLoad ≤ userHeapTop := by decide
      omega)
    rcases hl : loaduvm userLoad blob x.space with ⟨u,_ | _⟩
    · rw [hl] at hload
      simp only [hl,Prod.mk.injEq,and_true] at ht
      exact ht ▸ hload.mono fun _ _ => trivial
    · simp [hl] at ht
  · rename_i t heapEnd ht
    refine execImage_rest ?_ he
    split at ht
    · rcases hl : execLoadElf blob x.space with ⟨u,_ | ⟨e,brk⟩⟩
      · simp [hl] at ht
      simp only [hl,Prod.mk.injEq,Option.some.injEq] at ht
      obtain ⟨rfl,rfl⟩ := ht
      exact (execLoadElf_loaded h hs hl).2 e brk rfl
    split at ht
    · cases ht
    rename_i hlen
    have htop : userLoad ≤ userHeapTop := by decide
    have hend : userLoad + blob.length ≤ userHeapTop := by omega
    have hload := loaduvm_loaded userLoad blob h hs (hend.trans userHeapTop_le)
    rcases hl : loaduvm userLoad blob x.space with ⟨u,_ | _⟩
    · simp [hl] at ht
    rw [hl] at hload
    simp only [hl,Prod.mk.injEq,Option.some.injEq] at ht
    obtain ⟨rfl,rfl⟩ := ht
    exact ⟨hload,Nat.le_add_right _ _,hend⟩

end TinyOs
