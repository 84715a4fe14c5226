import TinyOs.Exec.Bytes
import TinyOs.Reachable

namespace TinyOs.Elf

open Space List Option

variable {a : Nat}

structure Seg where
  vaddr : Nat
  memsz : Nat
  filesz : Nat
  off : Nat
  write : Bool
  deriving DecidableEq, Repr

namespace Seg

variable (g : Seg)

def Has (a : Nat) : Prop := g.vaddr ≤ a ∧ a < g.vaddr + g.memsz

def Touches (p : Nat) : Prop := g.vaddr / pgSize ≤ p ∧ p * pgSize < g.vaddr + g.memsz

instance (a : Nat) : Decidable (g.Has a) := inferInstanceAs (Decidable (_ ∧ _))

instance (p : Nat) : Decidable (g.Touches p) := inferInstanceAs (Decidable (_ ∧ _))

def data (blob : List UInt8) (a : Nat) : Option UInt8 :=
  segData g.vaddr g.filesz (blob.drop g.off) a

structure Fits (blob : List UInt8) : Prop where
  file : g.filesz ≤ g.memsz
  inside : g.off + g.filesz ≤ blob.length
  low : userLoad ≤ g.vaddr
  top : g.vaddr + g.memsz ≤ userHeapTop
  nonempty : g.memsz ≠ 0

theorem touches_of_has (h : g.Has a) : g.Touches (a / pgSize) := by
  obtain ⟨hlo,hhi⟩ := h
  exact ⟨Nat.div_le_div_right hlo,lt_of_le_of_lt (Nat.div_mul_le_self a pgSize) hhi⟩

end Seg

def seg (ph : Proghdr) : Option Seg :=
  if ph.type ≠ elfProgLoad ∨ ph.memsz = 0 then none
  else some ⟨ph.vaddr,ph.memsz,ph.filesz,ph.off,ph.flags &&& elfProgFlagWrite != 0⟩

def phdr (blob : List UInt8) (i : Nat) : Proghdr :=
  proghdr blob ((elfhdr blob).phoff + i * sizeofProghdr)

def segsTo (blob : List UInt8) (n : Nat) : List Seg :=
  (List.range n).filterMap fun i => seg (phdr blob i)

def segments (blob : List UInt8) : List Seg := segsTo blob (elfhdr blob).phnum

theorem segsTo_succ (blob : List UInt8) (n : Nat) :
    segsTo blob (n + 1) = segsTo blob n ++ (seg (phdr blob n)).toList := by
  rw [segsTo,range_succ,filterMap_append,segsTo]
  refine congrArg _ ?_
  cases h : seg (phdr blob n) with
  | none | some g => simp [h]

variable {blob : List UInt8} {s s' : Space} {X Y : Nat → Nat} {segs : List Seg} {g : Seg}

def content (blob : List UInt8) (segs : List Seg) (a : Nat) : Option UInt8 :=
  segs.foldl (fun b g => (g.data blob a).or b) none

theorem content_append (a : Nat) :
    content blob (segs ++ [g]) a = (g.data blob a).or (content blob segs a) := by
  rw [content,foldl_append]
  rfl

structure Shows (blob : List UInt8) (segs : List Seg) (s : Space) : Prop where
  bytes : ∀ a < userEnd, (∃ g ∈ segs, g.Touches (a / pgSize)) →
    s.byte a = some ((content blob segs a).getD 0)
  perms : ∀ a < userEnd, (∃ g ∈ segs, g.Touches (a / pgSize)) →
    s.writable a = (segs.find? fun g => g.Touches (a / pgSize)).map Seg.write
  other : ∀ a < userEnd, (¬ ∃ g ∈ segs, g.Touches (a / pgSize)) →
    s.byte a = none ∧ s.writable a = none

theorem Shows.nil (h : ∀ a < userEnd, s.pd.lookup a = none) : Shows blob [] s := by
  refine ⟨fun a _ hg => ?_,fun a _ hg => ?_,fun a ha _ => ?_⟩
  · simp at hg
  · simp at hg
  · rw [byte,writable,h a ha]
    exact ⟨rfl,rfl⟩

theorem data_touches {b : UInt8} (hg : g.Fits blob) (h : g.data blob a = some b) :
    g.Touches (a / pgSize) := by
  rw [Seg.data,segData] at h
  split at h
  · rename_i hin
    have := hg.file
    exact g.touches_of_has ⟨hin.1,by omega⟩
  · cases h

theorem content_none (hfits : ∀ g ∈ segs, g.Fits blob)
    (h : ¬ ∃ g ∈ segs, g.Touches (a / pgSize)) : content blob segs a = none := by
  induction segs using List.reverseRecOn with
  | nil => rfl
  | append_singleton segs g ih =>
    have hg : g.data blob a = none := by
      by_contra hne
      obtain ⟨b,hb⟩ := ne_none_iff_exists'.mp hne
      exact h ⟨g,by simp,data_touches (hfits g (by simp)) hb⟩
    rw [content_append,hg,none_or]
    refine ih (fun g hg => hfits g (mem_append_left _ hg)) ?_
    rintro ⟨g,hg,ht⟩
    exact h ⟨g,mem_append_left _ hg,ht⟩

theorem exists_first {p : Nat} (hg : g ∈ segs) (ht : g.Touches p) :
    ∃ first, (segs.find? fun g => g.Touches p) = some first ∧ first ∈ segs ∧ first.Touches p := by
  have hsome : (segs.find? fun g => decide (g.Touches p)).isSome = true :=
    find?_isSome.mpr ⟨g,hg,decide_eq_true ht⟩
  obtain ⟨first,hfirst⟩ := isSome_iff_exists.mp hsome
  have htouch := find?_some (p := fun g : Seg => decide (g.Touches p)) hfirst
  exact ⟨first,hfirst,mem_of_find?_eq_some hfirst,of_decide_eq_true htouch⟩

theorem Shows.append (h : Shows blob segs s) (hfits : ∀ g ∈ segs, g.Fits blob)
    (hg : g.Fits blob) (hl : Laid s s' g.Touches (g.data blob) g.write) :
    Shows blob (segs ++ [g]) s' := by
  have hor : ∀ p, (∃ g' ∈ segs ++ [g], g'.Touches p) ↔ (∃ g' ∈ segs, g'.Touches p) ∨ g.Touches p := by
    intro p
    simp [or_and_right,exists_or]
  have hbyte : ∀ a < userEnd, (s.byte a).getD 0 = (content blob segs a).getD 0 := by
    intro a ha
    by_cases ht : ∃ g ∈ segs, g.Touches (a / pgSize)
    · rw [h.bytes a ha ht]
      rfl
    · rw [(h.other a ha ht).1,content_none hfits ht]
  have hnone : ∀ a, ¬ g.Touches (a / pgSize) → g.data blob a = none := by
    intro a ht
    by_contra hne
    obtain ⟨b,hb⟩ := ne_none_iff_exists'.mp hne
    exact ht (data_touches hg hb)
  refine ⟨fun a ha ht => ?_,fun a ha ht => ?_,fun a ha ht => ?_⟩
  · rw [content_append]
    by_cases htg : g.Touches (a / pgSize)
    · rw [hl.bytes a ha htg,hbyte a ha]
      cases g.data blob a <;> rfl
    · rw [(hl.other a ha htg).1,h.bytes a ha (((hor _).mp ht).resolve_right htg),hnone a htg,
        none_or]
  · rw [find?_append]
    by_cases hold : ∃ g ∈ segs, g.Touches (a / pgSize)
    · obtain ⟨g',hg',ht'⟩ := hold
      obtain ⟨first,hfirst,-⟩ := exists_first hg' ht'
      have hperm := h.perms a ha ⟨g',hg',ht'⟩
      rw [hfirst] at hperm ⊢
      by_cases htg : g.Touches (a / pgSize)
      · rw [hl.perms a ha htg,hperm]
        rfl
      · rw [(hl.other a ha htg).2,hperm]
        rfl
    · have htg := ((hor _).mp ht).resolve_left hold
      have hfirst : (segs.find? fun g => g.Touches (a / pgSize)) = none := by
        rw [find?_eq_none]
        intro g' hg' ht'
        exact hold ⟨g',hg',of_decide_eq_true ht'⟩
      rw [hl.perms a ha htg,(h.other a ha hold).2,hfirst,none_or,find?_cons_of_pos]
      · rfl
      · exact decide_eq_true htg
  · obtain ⟨hold,hnew⟩ := not_or.mp ((hor _).not.mp ht)
    rw [(hl.other a ha hnew).1,(hl.other a ha hnew).2]
    exact h.other a ha hold

theorem seg_fields {ph : Proghdr} (h : seg ph = some g) : ph.type = elfProgLoad ∧ ph.memsz ≠ 0 ∧
      g = ⟨ph.vaddr,ph.memsz,ph.filesz,ph.off,ph.flags &&& elfProgFlagWrite != 0⟩ := by
  rw [seg] at h
  split at h
  · cases h
  rename_i hload
  obtain ⟨htype,hmem⟩ := not_or.mp hload
  exact ⟨not_not.mp htype,hmem,(Option.some.inj h).symm⟩

structure Built (s : Space) (X Y : Nat → Nat) (blob : List UInt8) (segs : List Seg)
    (sb : Space × Nat) : Prop where
  loaded : LoadedTo s X Y sb
  fits : ∀ g ∈ segs, g.Fits blob
  shows : Shows blob segs sb.1
  brk : sb.2 = segs.foldl (fun brk g => max brk (g.vaddr + g.memsz)) userLoad

theorem Built.header {sb sb' : Space × Nat} {ph : Proghdr} (h : Built s X Y blob segs sb)
    (hmem : ph.memsz < word) (he : execLoadSegment blob ph sb = (sb',true)) :
    Built s X Y blob (segs ++ (seg ph).toList) sb' := by
  have hload := execLoadSegment_loaded h.loaded hmem he
  rw [if_pos rfl] at hload
  cases hseg : seg ph with
  | none =>
    have hskip : ph.type ≠ elfProgLoad ∨ ph.memsz = 0 := by
      by_contra hno
      rw [seg,if_neg hno] at hseg
      cases hseg
    rw [execLoadSegment,if_pos hskip] at he
    cases he
    rw [toList_none,append_nil]
    exact h
  | some g =>
    obtain ⟨htype,hpos,rfl⟩ := seg_fields hseg
    rcases execLoadSegment_cases hmem he with ⟨-,hskip⟩ | ⟨⟨-,hfile,hin,hlow,hend⟩,t,ht,rfl⟩
    · exact absurd (hskip rfl) (not_or.mpr ⟨not_not.mpr htype,hpos⟩)
    have hfits : Seg.Fits ⟨ph.vaddr,ph.memsz,ph.filesz,ph.off,
        ph.flags &&& elfProgFlagWrite != 0⟩ blob := ⟨hfile,hin,hlow,hend,hpos⟩
    have hok := h.loaded.loaded
    have hlaid := loaduvmSeg_laid hok.ok hok.sole (hend.trans userHeapTop_le) hpos
      (by rw [length_drop]; omega) ht
    refine ⟨hload,fun g hg => ?_,h.shows.append h.fits hfits hlaid,?_⟩
    · rcases mem_append.mp hg with hg | hg
      · exact h.fits g hg
      · obtain rfl := mem_singleton.mp hg
        exact hfits
    · rw [toList_some,foldl_append,← h.brk]
      rfl

theorem execLoadElf_built {entry brk : Nat} (h : s.Ok X Y)
    (hnew : ∀ a < userEnd, s.pd.lookup a = none)
    (he : execLoadElf blob s = (s',some (entry,brk))) :
    Built s X Y blob (segments blob) (s',brk) ∧ userLoad ≤ entry ∧ entry < userHeapTop := by
  have hs : s.Sole X := fun a ha pte hl => by
    rw [hnew a ha] at hl
    cases hl
  have hloop := Loop.forEach_range_rule (fun i => execLoadSegment blob (phdr blob i))
    (elfhdr blob).phnum (s := (s,userLoad)) (I := fun i sb => Built s X Y blob (segsTo blob i) sb)
    (E := fun _ => True) ?_ (fun _ _ _ _ _ _ => trivial) ?_
  · rcases execLoadElf_cases blob s with hr | ⟨t,brk,b,hrun,hr | ⟨rfl,hlow,htop,hr⟩⟩
    · rw [hr] at he
      cases he
    · rw [hr] at he
      cases he
    · rw [hr] at he
      cases he
      rw [show Loop.forEach (fun i => execLoadSegment blob (phdr blob i)) _ _ = _ from hrun] at hloop
      exact ⟨hloop.1 rfl,hlow,htop⟩
  · intro i _ sb sb' hi hb
    rw [segsTo_succ]
    exact hi.header (u32At_lt _ _) hb
  · have htop : userLoad ≤ userHeapTop := by decide
    exact ⟨⟨.refl h hs,le_rfl,htop⟩,fun g hg => by simp [segsTo] at hg,.nil hnew,rfl⟩

theorem data_none (hg : g.Fits blob) (h : ¬ g.Has a) : g.data blob a = none := by
  refine segData_none fun hin => h ⟨hin.1,?_⟩
  have := hg.file
  omega

theorem content_outside (hfits : ∀ g ∈ segs, g.Fits blob) (h : ∀ g ∈ segs, ¬ g.Has a) :
    content blob segs a = none := by
  induction segs using List.reverseRecOn with
  | nil => rfl
  | append_singleton segs g ih =>
    rw [content_append,data_none (hfits g (by simp)) (h g (by simp)),none_or]
    exact ih (fun g hg => hfits g (mem_append_left _ hg)) fun g hg => h g (mem_append_left _ hg)

def Disjoint (segs : List Seg) : Prop :=
  segs.Pairwise fun g g' => g.vaddr + g.memsz ≤ g'.vaddr ∨ g'.vaddr + g'.memsz ≤ g.vaddr

instance : Decidable (Disjoint segs) := inferInstanceAs (Decidable (List.Pairwise _ _))

theorem content_disjoint (hfits : ∀ g ∈ segs, g.Fits blob) (hdis : Disjoint segs)
    (hg : g ∈ segs) (ha : g.Has a) : content blob segs a = g.data blob a := by
  induction segs using List.reverseRecOn with
  | nil => cases hg
  | append_singleton segs last ih =>
    obtain ⟨hrest,-,hlast⟩ := pairwise_append.mp hdis
    rw [content_append]
    rcases mem_append.mp hg with hg | hg
    · have hno : ¬ last.Has a := by
        have hd := hlast g hg last (mem_singleton_self _)
        obtain ⟨hlo,hhi⟩ := ha
        rintro ⟨hlo',hhi'⟩
        omega
      rw [data_none (hfits last (by simp)) hno,none_or]
      exact ih (fun g hg => hfits g (mem_append_left _ hg)) hrest hg
    obtain rfl := mem_singleton.mp hg
    have hno : ∀ g' ∈ segs, ¬ g'.Has a := by
      intro g' hg'
      have hd := hlast g' hg' g (mem_singleton_self _)
      obtain ⟨hlo,hhi⟩ := ha
      rintro ⟨hlo',hhi'⟩
      omega
    rw [content_outside (fun g hg => hfits g (mem_append_left _ hg)) hno,or_none]

theorem newSpace_ok {k : Kernel} (h : k.Inv) :
    Space.Ok ⟨k.phys,fun _ => none⟩ k.users (k.total procKernel + k.heldRefs) := by
  have hrefs : Pgdir.userRefs (fun _ => none) = 0 := Finset.sum_eq_zero fun _ _ => rfl
  have hdirs : Pgdir.dirRefs (fun _ => none) = 0 := Finset.sum_eq_zero fun _ _ => rfl
  refine ⟨?_,⟨fun _ _ _ he => (nomatch he),fun _ _ _ he => (nomatch he)⟩⟩
  dsimp only
  rw [hrefs,hdirs,zero_add,zero_add]
  exact h.phys

theorem exists_booted (test : Kernel → Bool)
    (h : (boot 0x102000 0x180000 (fun _ _ => 0) fun _ => none).map test = some true) :
    ∃ k : Kernel, k.Inv ∧ test k = true := by
  obtain ⟨k,hk,ht⟩ := map_eq_some_iff.mp h
  exact ⟨k,Kernel.boot_inv Kernel.supervisor_empty hk,ht⟩

theorem exists_accepted (h : (execLoadElf blob s).2.isSome = true) :
    ∃ entry brk, execLoadElf blob s = ((execLoadElf blob s).1,some (entry,brk)) := by
  obtain ⟨⟨entry,brk⟩,hr⟩ := isSome_iff_exists.mp h
  exact ⟨entry,brk,Prod.ext rfl hr⟩

def sampleHeader (phnum : Nat) : List UInt8 :=
  [0x7f,0x45,0x4c,0x46,1,1,1,0,0,0,0,0,0,0,0,0,2,0,3,0] ++
    [1,0x400010,52,0,0].flatMap le32 ++ [52,0,32,0,UInt8.ofNat phnum,0,0,0,0,0,0,0]

def samplePhdr (off vaddr filesz memsz flags : Nat) : List UInt8 :=
  [elfProgLoad,off,vaddr,vaddr,filesz,memsz,flags,0x1000].flatMap le32

def sharedPage : List UInt8 :=
  sampleHeader 2 ++ samplePhdr 116 0x400010 3 8 5 ++ samplePhdr 119 0x400100 2 4 6 ++
    [1,2,3,4,5]

theorem elf_image_exact (blob : List UInt8) (s s' : Space) (X Y : Nat → Nat) (entry brk : Nat)
    (h : s.Ok X Y) (hnew : ∀ a < userEnd, s.pd.lookup a = none)
    (he : execLoadElf blob s = (s',some (entry,brk))) (hdis : Disjoint (segments blob)) :
    (∀ g ∈ segments blob, ∀ i < g.memsz,
        s'.byte (g.vaddr + i) = some (if i < g.filesz then blob.getD (g.off + i) 0 else 0)) ∧
      ∀ a < userEnd, (∃ g ∈ segments blob, g.Touches (a / pgSize)) →
        (∀ g ∈ segments blob, ¬ g.Has a) → s'.byte a = some 0 := by
  obtain ⟨hbuilt,-⟩ := execLoadElf_built h hnew he
  refine ⟨fun g hg i hi => ?_,fun a ha ht hout => ?_⟩
  · have hfits := hbuilt.fits g hg
    have hlt : g.vaddr + i < userEnd := by
      have := hfits.top
      have := userHeapTop_le
      omega
    have hhas : g.Has (g.vaddr + i) := ⟨Nat.le_add_right _ _,Nat.add_lt_add_left hi _⟩
    rw [hbuilt.shows.bytes _ hlt ⟨g,hg,g.touches_of_has hhas⟩,
      content_disjoint hbuilt.fits hdis hg hhas,Seg.data,segData,Nat.add_sub_cancel_left]
    by_cases hfile : i < g.filesz
    · rw [if_pos ⟨Nat.le_add_right _ _,Nat.add_lt_add_left hfile _⟩,if_pos hfile,
        getD_eq_getElem?_getD,getD_eq_getElem?_getD,getElem?_drop]
      rfl
    · rw [if_neg (by omega),if_neg hfile]
      rfl
  · rw [hbuilt.shows.bytes a ha ht,content_outside hbuilt.fits hout]
    rfl

theorem elf_image_exact_shared : ∃ (s s' : Space) (entry brk : Nat),
    execLoadElf sharedPage s = (s',some (entry,brk)) ∧
      s'.byte 0x400012 = some 3 ∧ s'.byte 0x400013 = some 0 ∧ s'.byte 0x400101 = some 5 ∧
      s'.byte 0x400fff = some 0 := by
  obtain ⟨k,hk,ht⟩ := exists_booted
    (fun k => (execLoadElf sharedPage ⟨k.phys,fun _ => none⟩).2.isSome) (by decide +kernel)
  obtain ⟨entry,brk,he⟩ := exists_accepted ht
  obtain ⟨hin,hout⟩ := elf_image_exact sharedPage _ _ _ _ entry brk (newSpace_ok hk)
    (fun _ _ => rfl) he (by decide)
  exact ⟨_,_,entry,brk,he,hin ⟨0x400010,8,3,116,false⟩ (by decide) 2 (by decide),
    hin ⟨0x400010,8,3,116,false⟩ (by decide) 3 (by decide),
    hin ⟨0x400100,4,2,119,true⟩ (by decide) 1 (by decide),
    hout 0x400fff (by decide) ⟨⟨0x400010,8,3,116,false⟩,by decide,by decide⟩ (by decide)⟩

def Permitted (blob : List UInt8) (s : Space) : Prop := ∀ a < userEnd,
    ((∃ g ∈ segments blob, g.Touches (a / pgSize) ∧ g.write = true) → s.writable a = some true) ∧
      ((∃ g ∈ segments blob, g.Touches (a / pgSize)) →
        (∀ g ∈ segments blob, g.Touches (a / pgSize) → g.write = false) →
        s.writable a = some false)

theorem elf_permissions_iff (blob : List UInt8) (s s' : Space) (X Y : Nat → Nat) (entry brk : Nat)
    (h : s.Ok X Y) (hnew : ∀ a < userEnd, s.pd.lookup a = none)
    (he : execLoadElf blob s = (s',some (entry,brk))) :
    Permitted blob s' ↔ ∀ p first, ((segments blob).find? fun g => g.Touches p) = some first →
      (∃ g ∈ segments blob, g.Touches p ∧ g.write = true) → first.write = true := by
  obtain ⟨hbuilt,-⟩ := execLoadElf_built h hnew he
  have hpage : ∀ p, p * pgSize / pgSize = p := fun p => Nat.mul_div_cancel p (by decide)
  have huser : ∀ g ∈ segments blob, ∀ p, g.Touches p → p * pgSize < userEnd := by
    intro g hg p ht
    have h1 := (hbuilt.fits g hg).top
    have h2 := userHeapTop_le
    have h3 := ht.2
    omega
  have hperm := hbuilt.shows.perms
  constructor
  · rintro hall p first hfirst ⟨g,hg,ht,hw⟩
    have hp := huser g hg p ht
    have hright := (hall _ hp).1 ⟨g,hg,by rwa [hpage],hw⟩
    rw [hperm _ hp ⟨g,hg,by rwa [hpage]⟩,hpage,hfirst] at hright
    exact Option.some.inj hright
  intro hcond a ha
  constructor
  · rintro ⟨g,hg,ht,hw⟩
    obtain ⟨first,hfirst,-⟩ := exists_first hg ht
    rw [hperm a ha ⟨g,hg,ht⟩,hfirst]
    exact congrArg some (hcond _ first hfirst ⟨g,hg,ht,hw⟩)
  · rintro ⟨g,hg,ht⟩ hro
    obtain ⟨first,hfirst,hmem,htouch⟩ := exists_first hg ht
    rw [hperm a ha ⟨g,hg,ht⟩,hfirst]
    exact congrArg some (hro first hmem htouch)

def writableFirst : List UInt8 :=
  sampleHeader 2 ++ samplePhdr 119 0x400100 2 4 6 ++ samplePhdr 116 0x400010 3 8 5 ++
    [1,2,3,4,5]

theorem elf_permissions_iff_first : ∃ (s s' : Space) (entry brk : Nat),
    execLoadElf writableFirst s = (s',some (entry,brk)) ∧ Permitted writableFirst s' := by
  obtain ⟨k,hk,ht⟩ := exists_booted
    (fun k => (execLoadElf writableFirst ⟨k.phys,fun _ => none⟩).2.isSome) (by decide +kernel)
  obtain ⟨entry,brk,he⟩ := exists_accepted ht
  refine ⟨_,_,entry,brk,he,(elf_permissions_iff writableFirst _ _ _ _ entry brk
    (newSpace_ok hk) (fun _ _ => rfl) he).mpr ?_⟩
  have hsegs : segments writableFirst =
      [⟨0x400100,4,2,119,true⟩,⟨0x400010,8,3,116,false⟩] := by decide
  rw [hsegs]
  rintro p first hfirst ⟨g,hg,ht,-⟩
  have hp : p = 0x400 := by
    simp only [mem_cons,not_mem_nil,or_false] at hg
    rcases hg with rfl | rfl
    all_goals
      simp only [Seg.Touches,pgSize] at ht
      omega
  subst hp
  cases hfirst
  rfl

theorem shared_page_readonly : ∃ (k : Kernel) (s' : Space) (entry brk : Nat), k.Inv ∧
    execLoadElf sharedPage ⟨k.phys,fun _ => none⟩ = (s',some (entry,brk)) ∧
      (⟨0x400100,4,2,119,true⟩ : Seg) ∈ segments sharedPage ∧
      (⟨0x400100,4,2,119,true⟩ : Seg).Touches 0x400 ∧ s'.writable 0x400000 = some false := by
  obtain ⟨k,hk,ht⟩ := exists_booted
    (fun k => (execLoadElf sharedPage ⟨k.phys,fun _ => none⟩).2.isSome &&
      (execLoadElf sharedPage ⟨k.phys,fun _ => none⟩).1.writable 0x400000 == some false)
    (by decide +kernel)
  obtain ⟨hsome,hro⟩ := Bool.and_eq_true_iff.mp ht
  obtain ⟨entry,brk,he⟩ := exists_accepted hsome
  exact ⟨k,_,entry,brk,hk,he,by decide,by decide,eq_of_beq hro⟩

end TinyOs.Elf
