import TinyOs.Mm.Acct

namespace TinyOs

open Function (update)
open Dyadic Buddy Count List

structure Phys where
  pmm : Pmm
  mem : Nat → Nat → UInt8
  panicked : Bool

def Buddy.Pmm.blocks (s : Pmm) : Nat × List Block :=
  (s.nrPages,s.live.filter fun b => decide (0 < b.order))

def Phys.blocks (ph : Phys) : Nat × List Block := ph.pmm.blocks

namespace Phys

def allocPage (ph : Phys) : Phys × Option Nat :=
  match allocPages ph.pmm 0 with
  | (s,none) => ({ ph with pmm := s },none)
  | (s,some f) => ({ ph with pmm := s, mem := update ph.mem f (fun _ => 0) },some f)

def allocUser (ph : Phys) : Phys × Option Nat :=
  match ph.allocPage with
  | (ph,none) => (ph,none)
  | (ph,some f) =>
    ({ ph with pmm := { ph.pmm with user := update ph.pmm.user f true } },some f)

def getPage (ph : Phys) (f : Nat) : Phys :=
  match Buddy.getPage ph.pmm f with
  | none => { ph with panicked := true }
  | some s => { ph with pmm := s }

def putPage (ph : Phys) (f : Nat) : Phys :=
  match Buddy.putPage ph.pmm f with
  | none => { ph with panicked := true }
  | some s => { ph with pmm := s }

def pageRefcount (ph : Phys) (f : Nat) : Nat := Buddy.pageRefcount ph.pmm f

def write (ph : Phys) (f i : Nat) (b : UInt8) : Phys :=
  { ph with mem := update ph.mem f (update (ph.mem f) i b) }

structure Ok (ph : Phys) (U K : Nat → Nat) : Prop where
  acct : Acct ph.pmm U K
  running : ph.panicked = false

end Phys

theorem filter_erase_single (l : List Block) (f : Nat) :
    (l.erase ⟨f,0⟩).filter (fun b => decide (0 < b.order)) =
      l.filter fun b => decide (0 < b.order) := by
  induction l with
  | nil => rfl
  | cons b l ih =>
    by_cases hb : b = ⟨f,0⟩
    · subst hb
      rw [erase_cons_head,filter_cons_of_neg (by simp)]
    · rw [erase_cons_tail (by simpa using hb),filter_cons,filter_cons,ih]

theorem Buddy.Kept.blocks {s s' : Pmm} (h : Kept s s') : s'.blocks = s.blocks := by
  rw [Pmm.blocks,Pmm.blocks,h.nrPages,h.live]

theorem Buddy.allocPages_blocks (s : Pmm) : (allocPages s 0).1.blocks = s.blocks := by
  simp only [allocPages]
  split
  · rfl
  split
  · rfl
  rename_i o _ _ page rest _
  have hk := (splitLoop_kept (o - 0) (freeAreaDel s page o) page 0).blocks
  rw [Pmm.blocks,takePage]
  dsimp only
  rw [filter_cons_of_neg (by simp)]
  exact hk

theorem Buddy.putPage_same {s s' : Pmm} {f : Nat} (h : putPage s f = some s') :
    s'.failed = s.failed ∧ s'.blocks = s.blocks := by
  simp only [Buddy.putPage] at h
  split at h
  · cases h
  split at h
  · cases h
  split at h
  · cases h
    refine ⟨(mergeLoop_kept maxOrder _ f 0).failed,(mergeLoop_kept maxOrder _ f 0).blocks.trans ?_⟩
    rw [Pmm.blocks,dropLive]
    dsimp only
    rw [filter_erase_single]
    rfl
  · cases h
    exact ⟨rfl,rfl⟩

theorem Buddy.Pmm.Wf.not_free_iff {s : Pmm} (h : s.Wf) {g : Nat} :
    ¬ s.Free g ↔ s.nrPages ≤ g ∨ ∃ b ∈ s.live, b.Covers g := by
  constructor
  · intro hg
    by_cases hlt : g < s.nrPages
    · exact .inr ((h.free_or_live hlt).resolve_left hg)
    · exact .inl (not_lt.mp hlt)
  · rintro (hge | ⟨b,hb,hc⟩) hg
    · exact absurd (h.free_lt hg) (not_lt.mpr hge)
    · exact h.not_free_of_live hb hc hg

variable {ph ph' ph'' : Phys} {U K : Nat → Nat} {f g : Nat}

namespace Phys

structure Same (ph ph' : Phys) : Prop where
  mem : ph'.mem = ph.mem
  failed : ph'.pmm.failed = ph.pmm.failed
  blocks : ph'.blocks = ph.blocks

theorem Same.refl (ph : Phys) : Same ph ph := ⟨rfl,rfl,rfl⟩

theorem Same.trans (h : Same ph ph') (h' : Same ph' ph'') : Same ph ph'' :=
  ⟨h'.mem.trans h.mem,h'.failed.trans h.failed,h'.blocks.trans h.blocks⟩

structure Spares (ph ph' : Phys) : Prop where
  mem : ∀ g, ¬ ph.pmm.Free g → ph'.mem g = ph.mem g
  held : ∀ g, ¬ ph.pmm.Free g → ¬ ph'.pmm.Free g

theorem Spares.refl (ph : Phys) : Spares ph ph := ⟨fun _ _ => rfl,fun _ => id⟩

theorem Spares.trans (h : Spares ph ph') (h' : Spares ph' ph'') : Spares ph ph'' where
  mem g hg := (h'.mem g (h.held g hg)).trans (h.mem g hg)
  held g hg := h'.held g (h.held g hg)

theorem getPage_same (ph : Phys) (f : Nat) : Same ph (ph.getPage f) := by
  simp only [getPage,Buddy.getPage]
  by_cases ho : ph.pmm.order f = none
  · rw [if_pos ho]
    exact ⟨rfl,rfl,rfl⟩
  · rw [if_neg ho]
    exact ⟨rfl,rfl,rfl⟩

theorem putPage_same (ph : Phys) (f : Nat) : Same ph (ph.putPage f) := by
  simp only [putPage]
  split
  · exact ⟨rfl,rfl,rfl⟩
  · exact ⟨rfl,(Buddy.putPage_same ‹_›).1,(Buddy.putPage_same ‹_›).2⟩

@[simp] theorem getPage_mem (ph : Phys) (f : Nat) : (ph.getPage f).mem = ph.mem :=
  (ph.getPage_same f).mem

@[simp] theorem putPage_mem (ph : Phys) (f : Nat) : (ph.putPage f).mem = ph.mem :=
  (ph.putPage_same f).mem

@[simp] theorem getPage_failed (ph : Phys) (f : Nat) :
    (ph.getPage f).pmm.failed = ph.pmm.failed := (ph.getPage_same f).failed

@[simp] theorem putPage_failed (ph : Phys) (f : Nat) :
    (ph.putPage f).pmm.failed = ph.pmm.failed := (ph.putPage_same f).failed

end Phys

structure Keeps (R : Nat → Nat) (ph ph' : Phys) : Prop where
  mem : ∀ f, 0 < R f → ph'.mem f = ph.mem f
  failed : ph.pmm.failed ≤ ph'.pmm.failed
  blocks : ph'.blocks = ph.blocks

namespace Phys

theorem allocPage_none (h : ph.Ok U K) (ha : ph.allocPage = (ph',none)) :
    ph'.Ok U K ∧ Keeps U ph ph' ∧ Spares ph ph' ∧ ph.pmm.failed < ph'.pmm.failed := by
  simp only [allocPage] at ha
  split at ha
  · rename_i s hs
    cases ha
    have he := allocPages_none hs
    subst he
    have hacct := h.acct
    exact ⟨⟨⟨hacct.wf.setHistory _ _ _,hacct.live,hacct.count,hacct.kind,hacct.history⟩,
      h.running⟩,⟨fun _ _ => rfl,Nat.le_succ _,rfl⟩,⟨fun _ _ => rfl,fun _ => id⟩,Nat.lt_succ_self _⟩
  · cases ha

structure Fresh (ph ph' : Phys) (U K : Nat → Nat) (f : Nat) : Prop where
  user : U f = 0
  kernel : K f = 0
  mem : ph'.mem = update ph.mem f (fun _ => 0)
  failed : ph'.pmm.failed = ph.pmm.failed
  blocks : ph'.blocks = ph.blocks
  free : ph.pmm.Free f
  spares : Spares ph ph'

theorem allocPage_some (h : ph.Ok U K) (ha : ph.allocPage = (ph',some f)) :
    ph'.Ok U (K + unit f) ∧ Fresh ph ph' U K f := by
  simp only [allocPage] at ha
  split at ha
  · cases ha
  rename_i s g hs
  cases ha
  have ht := allocPages_some h.acct.wf hs
  obtain ⟨hacct,hu,hk⟩ := h.acct.alloc ht
  have hb := allocPages_blocks ph.pmm
  rw [hs] at hb
  have hfree := ht.wasFree f (Acct.covers_zero.mpr rfl)
  refine ⟨⟨hacct,h.running⟩,hu,hk,rfl,ht.failed,hb,hfree,fun g hg => ?_,fun g hg => ?_⟩
  · have hne : g ≠ f := by
      rintro rfl
      exact hg hfree
    exact Function.update_of_ne hne _ _
  rw [h.acct.wf.not_free_iff] at hg
  rw [ht.wf.not_free_iff,ht.nrPages,ht.live]
  rcases hg with hg | ⟨b,hb,hc⟩
  · exact .inl hg
  · exact .inr ⟨b,mem_cons_of_mem _ hb,hc⟩

theorem allocUser_none (h : ph.Ok U K) (ha : ph.allocUser = (ph',none)) :
    ph'.Ok U K ∧ Keeps U ph ph' ∧ Spares ph ph' ∧ ph.pmm.failed < ph'.pmm.failed := by
  simp only [allocUser] at ha
  split at ha
  · cases ha
    exact allocPage_none h ‹_›
  · cases ha

theorem allocUser_some (h : ph.Ok U K) (ha : ph.allocUser = (ph',some f)) :
    ph'.Ok (U + unit f) K ∧ Fresh ph ph' U K f := by
  simp only [allocUser] at ha
  split at ha
  · cases ha
  rename_i q g hq
  cases ha
  obtain ⟨hok,hf⟩ := allocPage_some h hq
  exact ⟨⟨hok.acct.toUser hf.user hf.kernel,hok.running⟩,hf.user,hf.kernel,hf.mem,hf.failed,
    hf.blocks,hf.free,hf.spares.mem,hf.spares.held⟩

theorem getPage_ok (h : ph.Ok U K) (hf : 0 < U f) (hw : U f + 1 < word) :
    (ph.getPage f).Ok (U + unit f) K := by
  obtain ⟨hg,hacct⟩ := h.acct.get hf hw
  simp only [getPage,hg]
  exact ⟨hacct,h.running⟩

theorem putPage_user (h : ph.Ok (U + unit f) K) : (ph.putPage f).Ok U K := by
  obtain ⟨s,hs,-,hacct⟩ := h.acct.put (V := U) (L := K) (f := f)
    (fun _ => Nat.le_add_right _ _) le_rfl (by abel)
  simp only [putPage,hs]
  exact ⟨hacct,h.running⟩

theorem putPage_kernel (h : ph.Ok U (K + unit f)) : (ph.putPage f).Ok U K := by
  obtain ⟨s,hs,-,hacct⟩ := h.acct.put (V := U) (L := K) (f := f) le_rfl
    (fun _ => Nat.le_add_right _ _) (by abel)
  simp only [putPage,hs]
  exact ⟨hacct,h.running⟩

theorem putPage_held (h : ph.Ok (U + unit f) K) (hg : ¬ ph.pmm.Free g) (hne : g ≠ f ∨ 0 < U f) :
    ¬ (ph.putPage f).pmm.Free g := by
  obtain ⟨s,hs,hput,hacct⟩ := h.acct.put (V := U) (L := K) (f := f)
    (fun _ => Nat.le_add_right _ _) le_rfl (add_right_comm _ _ _)
  simp only [putPage,hs]
  by_cases he : g = f
  · subst he
    have hpos : 0 < U g + K g := Nat.add_pos_left (hne.resolve_left fun hc => hc rfl) _
    exact hacct.wf.not_free_of_live (hacct.live g hpos) (Acct.covers_zero.mpr rfl)
  rw [h.acct.wf.not_free_iff] at hg
  rw [hput.wf.not_free_iff,hput.nrPages,hput.live]
  rcases hg with hg | ⟨b,hb,hc⟩
  · exact .inl hg
  refine .inr ⟨b,?_,hc⟩
  split
  · refine (mem_erase_of_ne ?_).mpr hb
    rintro rfl
    exact he (Acct.covers_zero.mp hc)
  · exact hb

theorem refcount_eq (h : ph.Ok U K) (hf : 0 < U f) : ph.pageRefcount f = U f :=
  (h.acct.refcount_eq (h.acct.user_eq hf).1).1

end Phys

end TinyOs
