import TinyOs.Library.Machine
import TinyOs.Mm.Pagetable

namespace TinyOs.TwoLevel

open List
open Function (update update_of_ne update_self)

structure Tables where
  mem : Nat → Nat → Option Pte
  dirs : List Nat
  put : List Nat
  freed : List Nat

namespace Tables

def alloc (t : Tables) (f : Nat) : Tables :=
  { t with mem := fun g j => if g = f then none else t.mem g j }

def freePage (t : Tables) (f : Nat) : Tables :=
  { t with freed := t.freed ++ [f] }

def store (t : Tables) (f i : Nat) (w : Option Pte) : Tables :=
  { t with mem := fun g j => if g = f ∧ j = i then w else t.mem g j }

def addTable (t : Tables) (pgdir i pt : Nat) (user : Bool) : Tables :=
  (t.alloc pt).store pgdir i (some ⟨pt,⟨true,user,false⟩⟩)

def walk (t : Tables) (pgdir va : Nat) (page : Option Nat) (user : Bool) : Option (Tables × Nat) :=
  match t.mem pgdir (pdx va) with
  | some pde => some (t,pde.frame)
  | none => page.map fun pt => (t.addTable pgdir (pdx va) pt user,pt)

def mappages (t : Tables) (pgdir va pa : Nat) (perm : Perm) (user : Bool) (page : Option Nat) :
    Tables × Bool :=
  if va % pgSize ≠ 0 ∨ pa % pgSize ≠ 0 then (t,false)
  else
    match t.walk pgdir va page user with
    | none => (t,false)
    | some (t,pt) =>
      match t.mem pt (ptx va) with
      | some _ => (t,false)
      | none => (t.store pt (ptx va) (some ⟨pa / pgSize,perm⟩),true)

def unmapPage (t : Tables) (pgdir a : Nat) (doFree allowMissing : Bool) : Tables × Bool :=
  match t.walk pgdir a none false with
  | none => (t,allowMissing)
  | some (t,pt) =>
    match t.mem pt (ptx a) with
    | none => (t,allowMissing)
    | some pte =>
      ({ t.store pt (ptx a) none with put := if doFree then t.put ++ [pte.frame] else t.put },true)

def unmappages (t : Tables) (pgdir va npages : Nat) (doFree allowMissing : Bool) : Tables × Bool :=
  if va % pgSize ≠ 0 ∨ npages = 0 then (t,false)
  else
    Loop.forEach (fun a t => t.unmapPage pgdir a doFree allowMissing)
      (pageRange va ((va + npages * pgSize) % word)) t

def uvmcreate (t : Tables) (kernelPgdir : Nat) (page : Option Nat) : Tables × Bool :=
  match page with
  | none => (t,false)
  | some f =>
    ({ t.alloc f with
        mem := fun g j =>
          if g = f ∧ pdx kernBase ≤ j ∧ j < maxKernelPt then t.mem kernelPgdir j
          else (t.alloc f).mem g j
        dirs := f :: t.dirs },true)

def uvmmap (t : Tables) (pgdir va pa : Nat) (perm : Perm) (page : Option Nat) : Tables × Bool :=
  t.mappages pgdir va pa { perm with u := true } true page

def uvmunmap (t : Tables) (pgdir va npages : Nat) (doFree : Bool) : Tables × Bool :=
  t.unmappages pgdir va npages doFree true

def walkaddr (t : Tables) (pgdir va : Nat) : Option Nat :=
  (t.walk pgdir va none false).bind fun r =>
    (r.1.mem r.2 (ptx va)).bind fun pte =>
      if pte.perm.u then some (p2v (pte.frame * pgSize) + va % pgSize) else none

def freePte (pt : Nat) (t : Tables) (j : Nat) : Tables :=
  match t.mem pt j with
  | none => t
  | some pte => { t.store pt j none with put := t.put ++ [pte.frame] }

def freePde (pgdir : Nat) (t : Tables) (i : Nat) : Tables :=
  match t.mem pgdir i with
  | none => t
  | some pde =>
    if pde.perm.u then
      (((range 1024).foldl (freePte pde.frame) t).freePage pde.frame).store pgdir i none
    else t

def uvmfree (t : Tables) (pgdir : Nat) : Tables :=
  { ((range (pdx (userEnd - 1) + 1)).foldl (freePde pgdir) t).freePage pgdir with
    dirs := t.dirs.erase pgdir }

def lookup (t : Tables) (pgdir va : Nat) : Option Pte :=
  (t.walk pgdir va none false).bind fun r => r.1.mem r.2 (ptx va)

end Tables

inductive Op where
  | create (page : Option Nat)
  | map (pgdir va pa : Nat) (perm : Perm) (page : Option Nat)
  | unmap (pgdir va npages : Nat) (doFree : Bool)
  | free (pgdir : Nat)

structure Kernel where
  mem : Nat → Nat → Option Pte
  pgdir : Nat
  pages : Nat → Bool
  pages_pgdir : pages pgdir = true
  pages_table : ∀ i, ∀ pde ∈ mem pgdir i, pages pde.frame = true

namespace Kernel

variable (k : Kernel)

def boot : Tables := ⟨k.mem,[],[],[]⟩

def used (t : Tables) (f : Nat) : Bool :=
  k.pages f || t.dirs.any fun d =>
    d == f || (range 768).any fun i => (t.mem d i).map Pte.frame == some f

def allowed (t : Tables) : Op → Bool
  | .create page => page.all (!k.used t ·)
  | .map pgdir va _ _ page => t.dirs.contains pgdir && va < userEnd && page.all (!k.used t ·)
  | .unmap pgdir va npages _ => t.dirs.contains pgdir && va + npages * pgSize ≤ userEnd
  | .free pgdir => t.dirs.contains pgdir

def exec (t : Tables) : Op → Tables × Bool
  | .create page => t.uvmcreate k.pgdir page
  | .map pgdir va pa perm page => t.uvmmap pgdir va pa perm page
  | .unmap pgdir va npages doFree => t.uvmunmap pgdir va npages doFree
  | .free pgdir => (t.uvmfree pgdir,true)

def step (t : Tables) (op : Op) : Option (Tables × Op × Bool) :=
  if k.allowed t op then some ((k.exec t op).1,op,(k.exec t op).2) else none

end Kernel

def replay (m : Nat → Nat → Option Pte) : Op × Bool → Nat → Nat → Option Pte
  | (.create (some f),_), d, p => if d = f then none else m d p
  | (.map pgdir va pa perm _,true), d, p =>
    if d = pgdir ∧ p = va / pgSize then some ⟨pa / pgSize,{ perm with u := true }⟩ else m d p
  | (.unmap pgdir va npages _,true), d, p =>
    if d = pgdir ∧ va / pgSize ≤ p ∧ p < va / pgSize + npages then none else m d p
  | _, d, p => m d p

structure Slot (t : Tables) (own : Nat → Option (Nat × Option Nat)) (d i : Nat)
    (m : Nat → Option Pte) : Prop where
  table : ∀ pde, t.mem d i = some pde → own pde.frame = some (d,some i) ∧ pde.perm.u = true ∧
    ∀ j pte, t.mem pde.frame j = some pte → pte.perm.u = true
  view : ∀ v < userEnd, pdx v = i → t.lookup d v = m (v / pgSize)

structure Inv (k : Kernel) (t : Tables) (own : Nat → Option (Nat × Option Nat))
    (m : Nat → Nat → Option Pte) : Prop where
  kernel : ∀ f, k.pages f = true → own f = none ∧ t.mem f = k.mem f
  dir : ∀ d ∈ t.dirs, own d = some (d,none) ∧
    ∀ i, 768 ≤ i → i < 1024 → t.mem d i = k.mem k.pgdir i
  slot : ∀ d ∈ t.dirs, ∀ i < 768, Slot t own d i (m d)
  nodup : t.dirs.Nodup

variable {k : Kernel} {t t' : Tables} {own own' : Nat → Option (Nat × Option Nat)}
  {m : Nat → Nat → Option Pte} {d f i va : Nat}

theorem lookup_eq (t : Tables) (d va : Nat) :
    t.lookup d va = (t.mem d (pdx va)).bind fun pde => t.mem pde.frame (ptx va) := by
  unfold Tables.lookup Tables.walk
  cases t.mem d (pdx va) <;> rfl

theorem Slot.frame {m m' : Nat → Option Pte} (h : Slot t own d i m)
    (hdir : t'.mem d i = t.mem d i) (htable : ∀ pde, t.mem d i = some pde →
      own' pde.frame = own pde.frame ∧ t'.mem pde.frame = t.mem pde.frame)
    (hm : ∀ v < userEnd, pdx v = i → m' (v / pgSize) = m (v / pgSize)) : Slot t' own' d i m' := by
  refine ⟨fun pde hpde => ?_,fun v hv hi => ?_⟩
  · rw [hdir] at hpde
    obtain ⟨hown,hmem⟩ := htable pde hpde
    rw [hown,hmem]
    exact h.table pde hpde
  · rw [hm v hv hi,← h.view v hv hi,lookup_eq,lookup_eq,hi,hdir]
    cases hpde : t.mem d i with
    | none => rfl
    | some pde => exact congrFun (htable pde hpde).2 (ptx v)

theorem Slot.filled {m : Nat → Option Pte} {pde : Pte} (hpde : t.mem d i = some pde)
    (hown : own pde.frame = some (d,some i)) (hu : pde.perm.u = true)
    (hperm : ∀ j pte, t.mem pde.frame j = some pte → pte.perm.u = true)
    (hview : ∀ v < userEnd, pdx v = i → t.mem pde.frame (ptx v) = m (v / pgSize)) :
    Slot t own d i m := by
  refine ⟨fun pde' hpde' => ?_,fun v hv hi => ?_⟩
  · cases hpde.symm.trans hpde'
    exact ⟨hown,hu,hperm⟩
  · rw [lookup_eq,hi,hpde]
    exact hview v hv hi

theorem store_other (t : Tables) (own : Nat → Option (Nat × Option Nat)) (f i : Nat)
    (w : Option Pte) (g : Nat) (hg : own g ≠ own f) : (t.store f i w).mem g = t.mem g :=
  funext fun _ => if_neg fun hj => hg (by rw [hj.1])

theorem unused (hf : k.used t f = false) : (∀ g, k.pages g = true → g ≠ f) ∧ (∀ d ∈ t.dirs, d ≠ f) ∧
    ∀ d ∈ t.dirs, ∀ i < 768, ∀ pde, t.mem d i = some pde → pde.frame ≠ f := by
  simp only [Kernel.used,Bool.or_eq_false_iff,any_eq_false,Bool.or_eq_true,beq_iff_eq,any_eq_true,
    mem_range,not_or,not_exists] at hf
  refine ⟨fun g hg => ?_,fun d hd => (hf.2 d hd).1,fun d hd i hi pde hpde heq => ?_⟩
  · rintro rfl
    exact Bool.eq_false_iff.mp hf.1 hg
  · exact (hf.2 d hd).2 i ⟨hi,by rw [hpde,← heq]; rfl⟩

namespace Inv

theorem view (h : Inv k t own m) (hd : d ∈ t.dirs) (hva : va < userEnd) :
    t.lookup d va = m d (va / pgSize) :=
  (h.slot d hd _ (pdx_lt_of_user hva)).view va hva rfl

theorem store (h : Inv k t own m) {pde : Pte} (hd : d ∈ t.dirs) (hva : va < userEnd)
    (hpde : t.mem d (pdx va) = some pde) {w : Option Pte} (hw : ∀ pte ∈ w, pte.perm.u = true)
    (put : List Nat) : Inv k { t.store pde.frame (ptx va) w with put := put } own
      fun d' p => if d' = d ∧ p = va / pgSize then w else m d' p := by
  have hslot := h.slot d hd _ (pdx_lt_of_user hva)
  obtain ⟨hown,hu,hpte⟩ := hslot.table pde hpde
  have hsame := store_other t own pde.frame (ptx va) w
  have hdir : ∀ d' ∈ t.dirs, (t.store pde.frame (ptx va) w).mem d' = t.mem d' := by
    intro d' hd'
    exact hsame d' (by simp [(h.dir d' hd').1,hown])
  refine ⟨fun f hf => ?_,fun d' hd' => ?_,fun d' hd' i hi => ?_,h.nodup⟩
  · obtain ⟨hf,hmem⟩ := h.kernel f hf
    exact ⟨hf,(hsame f (by simp [hf,hown])).trans hmem⟩
  · obtain ⟨hd'',hmem⟩ := h.dir d' hd'
    exact ⟨hd'',(hdir d' hd').symm ▸ hmem⟩
  by_cases heq : d' = d ∧ i = pdx va
  · obtain ⟨rfl,rfl⟩ := heq
    refine .filled ((congrFun (hdir d' hd') _).trans hpde) hown hu (fun j pte hj => ?_)
      fun v hv hp => ?_
    · change (if _ then _ else _) = _ at hj
      split at hj
      · exact hw pte hj
      · exact hpte j pte hj
    · simp only [← h.view hd' hv,← index_eq_iff (hva.trans userEnd_lt) (hv.trans userEnd_lt)]
      rw [lookup_eq,hp,hpde]
      exact if_congr (by simp) rfl rfl
  · refine (h.slot d' hd' i hi).frame (congrFun (hdir d' hd') i) (fun pde' hpde' => ⟨rfl,?_⟩)
      fun v hv hi => if_neg fun hp => heq ⟨hp.1,?_⟩
    · refine hsame _ fun hk => heq ?_
      rw [((h.slot d' hd' i hi).table pde' hpde').1,hown] at hk
      simpa using hk
    · exact hi ▸ ((index_eq_iff (hva.trans userEnd_lt) (hv.trans userEnd_lt)).mpr hp.2).1

theorem grow (h : Inv k t own m) (hd : d ∈ t.dirs) (hva : va < userEnd)
    (hnone : t.mem d (pdx va) = none) (hf : k.used t f = false) :
    Inv k (t.addTable d (pdx va) f true) (update own f (some (d,some (pdx va)))) m := by
  obtain ⟨hkernel,hdirs,htables⟩ := unused hf
  have hsame : ∀ g j, g ≠ f → ¬ (g = d ∧ j = pdx va) →
      (t.addTable d (pdx va) f true).mem g j = t.mem g j := by
    intro g j hg hj
    exact (if_neg hj).trans (if_neg hg)
  have hnew : ∀ j, (t.addTable d (pdx va) f true).mem f j = none := by
    intro j
    exact (if_neg fun hj => hdirs d hd hj.1.symm).trans (if_pos rfl)
  have hother : ∀ g, g ≠ f → own g ≠ some (d,none) → update own f (some (d,some (pdx va))) g =
      own g ∧ (t.addTable d (pdx va) f true).mem g = t.mem g := by
    intro g hg hk
    refine ⟨update_of_ne hg ..,funext fun j => hsame g j hg fun hj => hk ?_⟩
    rw [hj.1,(h.dir d hd).1]
  refine ⟨fun g hg => ?_,fun d' hd' => ?_,fun d' hd' i hi => ?_,h.nodup⟩
  · obtain ⟨hg',hmem⟩ := h.kernel g hg
    obtain ⟨hown,hm⟩ := hother g (hkernel g hg) (by simp [hg'])
    exact ⟨hown.trans hg',hm.trans hmem⟩
  · obtain ⟨hown,hmem⟩ := h.dir d' hd'
    have hlt := pdx_lt_of_user hva
    refine ⟨by rw [update_of_ne (hdirs d' hd'),hown],fun i hi hi' => ?_⟩
    rw [hsame d' i (hdirs d' hd') (by omega)]
    exact hmem i hi hi'
  by_cases heq : d' = d ∧ i = pdx va
  · obtain ⟨rfl,rfl⟩ := heq
    refine .filled (if_pos ⟨rfl,rfl⟩) (update_self ..) rfl (fun j pte hpte => ?_) fun v hv hp => ?_
    · cases (hnew j).symm.trans hpte
    · rw [← h.view hd' hv,lookup_eq,hp,hnone]
      exact hnew (ptx v)
  · refine (h.slot d' hd' i hi).frame (hsame d' i (hdirs d' hd') heq)
      (fun pde hpde => hother _ (htables d' hd' i hi pde hpde) ?_) fun _ _ _ => rfl
    simp [((h.slot d' hd' i hi).table pde hpde).1]

theorem create (h : Inv k t own m) (hf : k.used t f = false) :
    Inv k (t.uvmcreate k.pgdir (some f)).1 (update own f (some (f,none)))
      fun d p => if d = f then none else m d p := by
  obtain ⟨hkernel,hdirs,htables⟩ := unused hf
  have hsame : ∀ g, g ≠ f → update own f (some (f,none)) g = own g ∧
      (t.uvmcreate k.pgdir (some f)).1.mem g = t.mem g := by
    intro g hg
    exact ⟨update_of_ne hg ..,funext fun j => (if_neg fun hj => hg hj.1).trans (if_neg hg)⟩
  have hnew : ∀ i, (t.uvmcreate k.pgdir (some f)).1.mem f i =
      if 768 ≤ i ∧ i < 1024 then k.mem k.pgdir i else none := by
    intro i
    rw [← (h.kernel k.pgdir k.pages_pgdir).2]
    exact if_congr (and_iff_right rfl) rfl (if_pos rfl)
  refine ⟨fun g hg => ?_,fun d hd => ?_,fun d hd i hi => ?_,
    nodup_cons.mpr ⟨fun hd => hdirs f hd rfl,h.nodup⟩⟩
  · obtain ⟨hown,hmem⟩ := hsame g (hkernel g hg)
    exact ⟨hown.trans (h.kernel g hg).1,hmem.trans (h.kernel g hg).2⟩
  · rcases mem_cons.mp hd with rfl | hd
    · exact ⟨update_self ..,fun i hi hi' => (hnew i).trans (if_pos ⟨hi,hi'⟩)⟩
    · obtain ⟨hown,hmem⟩ := hsame d (hdirs d hd)
      exact ⟨hown.trans (h.dir d hd).1,hmem ▸ (h.dir d hd).2⟩
  · rcases mem_cons.mp hd with rfl | hd
    · have hnone := (hnew i).trans (if_neg (by omega))
      refine ⟨fun pde hpde => ?_,fun v hv hp => ?_⟩
      · cases hnone.symm.trans hpde
      · rw [lookup_eq,hp,hnone,if_pos rfl]
        rfl
    · exact (h.slot d hd i hi).frame (congrFun (hsame d (hdirs d hd)).2 i)
        (fun pde hpde => hsame _ (htables d hd i hi pde hpde)) fun v _ _ => if_neg (hdirs d hd)

theorem walk {page : Option Nat} (h : Inv k t own m) (hd : d ∈ t.dirs)
    (hva : va < userEnd) (hpage : ∀ f ∈ page, k.used t f = false) :
    t.walk d va page true = none ∧ t.mem d (pdx va) = none ∧ page = none ∨
    ∃ t' pde own, t.walk d va page true = some (t',pde.frame) ∧ Inv k t' own m ∧
      t'.dirs = t.dirs ∧ t'.mem d (pdx va) = some pde ∧ (t.mem d (pdx va) = none → page ≠ none) ∧
      (t.mem d (pdx va) ≠ none → t' = t) := by
  unfold Tables.walk
  cases hpde : t.mem d (pdx va) with
  | some pde => exact .inr ⟨t,pde,own,rfl,h,rfl,hpde,(fun hk => by cases hk),fun _ => rfl⟩
  | none =>
    cases page with
    | none => exact .inl ⟨rfl,rfl,rfl⟩
    | some f =>
      exact .inr ⟨_,⟨f,⟨true,true,false⟩⟩,_,rfl,h.grow hd hva hpde (hpage f rfl),rfl,
        if_pos ⟨rfl,rfl⟩,fun _ hk => (by cases hk),fun hk => absurd rfl hk⟩

theorem map {pa : Nat} {perm : Perm} {page : Option Nat} {b : Bool}
    (h : Inv k t own m) (hd : d ∈ t.dirs) (hva : va < userEnd)
    (hpage : ∀ f ∈ page, k.used t f = false) (hmap : t.uvmmap d va pa perm page = (t',b)) :
    (∃ own, Inv k t' own (replay m (.map d va pa perm page,b))) ∧
    (b = true ↔ va % pgSize = 0 ∧ pa % pgSize = 0 ∧ t.lookup d va = none ∧
      (t.mem d (pdx va) = none → page ≠ none)) ∧
    (t.lookup d va ≠ none → t' = t) := by
  unfold Tables.uvmmap Tables.mappages at hmap
  split at hmap
  · cases hmap
    exact ⟨⟨own,h⟩,by simp; omega,fun _ => rfl⟩
  rename_i hgood
  rcases h.walk hd hva hpage with ⟨hwalk,hnone,rfl⟩ | ⟨t₁,pde,own₁,hwalk,h₁,hdirs,hpde,hnew,hold⟩
  · rw [hwalk] at hmap
    cases hmap
    exact ⟨⟨own,h⟩,by simp [hnone],fun _ => rfl⟩
  have hfind : t.lookup d va = t₁.mem pde.frame (ptx va) := by
    rw [h.view hd hva,← h₁.view (hdirs ▸ hd) hva,lookup_eq,hpde]
    rfl
  have hbound : t.lookup d va ≠ none → t.mem d (pdx va) ≠ none := by
    intro hk hm
    rw [lookup_eq,hm] at hk
    exact hk rfl
  rw [hwalk] at hmap
  simp only [← hfind] at hmap
  cases hl : t.lookup d va with
  | some pte =>
    rw [hl] at hmap
    cases hmap
    exact ⟨⟨own₁,h₁⟩,by simp,fun _ => hold (hbound (by simp [hl]))⟩
  | none =>
    rw [hl] at hmap
    cases hmap
    refine ⟨⟨own₁,h₁.store (hdirs ▸ hd) hva hpde (by simp) t₁.put⟩,?_,fun hk => absurd rfl hk⟩
    exact iff_of_true rfl ⟨by omega,by omega,rfl,hnew⟩

theorem unmapPage {a : Nat} {doFree b : Bool} (h : Inv k t own m) (hd : d ∈ t.dirs)
    (ha : a < userEnd) (hstep : t.unmapPage d a doFree true = (t',b)) :
    b = true ∧ t'.dirs = t.dirs ∧ Inv k t' own
      fun d' p => if d' = d ∧ p = a / pgSize then none else m d' p := by
  have hmiss : t.lookup d a = none → Inv k t own
      fun d' p => if d' = d ∧ p = a / pgSize then none else m d' p := by
    refine fun hnone => ⟨h.kernel,h.dir,fun d' hd' i hi => ⟨(h.slot d' hd' i hi).table,?_⟩,h.nodup⟩
    intro v hv _
    split
    · rename_i heq
      rw [h.view hd' hv,heq.1,heq.2,← h.view hd ha,hnone]
    · exact h.view hd' hv
  have hfind := lookup_eq t d a
  unfold Tables.unmapPage Tables.walk at hstep
  cases hpde : t.mem d (pdx a) with
  | none =>
    rw [hpde] at hstep hfind
    cases hstep
    exact ⟨rfl,rfl,hmiss hfind⟩
  | some pde =>
    rw [hpde] at hstep hfind
    dsimp only at hstep
    cases hpte : t.mem pde.frame (ptx a) with
    | none =>
      rw [hpte] at hstep
      cases hstep
      exact ⟨rfl,rfl,hmiss (hfind.trans hpte)⟩
    | some pte =>
      rw [hpte] at hstep
      cases hstep
      exact ⟨rfl,rfl,h.store hd ha hpde (by simp) _⟩

theorem unmap {npages : Nat} {doFree b : Bool} (h : Inv k t own m)
    (hd : d ∈ t.dirs) (hend : va + npages * pgSize ≤ userEnd)
    (hcall : t.uvmunmap d va npages doFree = (t',b)) :
    Inv k t' own (replay m (.unmap d va npages doFree,b)) := by
  unfold Tables.uvmunmap Tables.unmappages at hcall
  split at hcall
  · cases hcall
    exact h
  rename_i hgood
  rw [Nat.mod_eq_of_lt (hend.trans_lt userEnd_lt)] at hcall
  obtain ⟨I,hI⟩ : ∃ I : List Nat → Tables → Prop, I = fun done s => d ∈ s.dirs ∧
      Inv k s own
        fun d' p => if d' = d ∧ ∃ a ∈ done, p = a / pgSize then none else m d' p := ⟨_,rfl⟩
  have hbody : ∀ done a rest s s' b, pageRange va (va + npages * pgSize) = done ++ a :: rest →
      I done s → s.unmapPage d a doFree true = (s',b) → b = true ∧ I (done ++ [a]) s' := by
    intro done a rest s s' b heq hs hstep
    rw [hI] at hs ⊢
    obtain ⟨i,-,hi⟩ := mem_pageRange.mp (heq ▸ mem_append_right done mem_cons_self)
    obtain ⟨hb,hdirs,h'⟩ := hs.2.unmapPage hs.1 (hi.trans_le hend) hstep
    refine ⟨hb,hdirs ▸ hs.1,?_⟩
    simpa only [← ite_or,mem_append,mem_singleton,← and_or_left,or_and_right,exists_or,
      exists_eq_left,or_comm] using h'
  have hrule := Loop.forEach_rule (fun a (t : Tables) => t.unmapPage d a doFree true)
    (pageRange va (va + npages * pgSize)) (s := t) (E := fun _ => False)
    (fun done a rest s s' heq hs hstep => (hbody done a rest s s' true heq hs hstep).2)
    (fun done a rest s s' heq hs hstep =>
      Bool.noConfusion (hbody done a rest s s' false heq hs hstep).1)
    (hI ▸ ⟨hd,by simpa using h⟩)
  rw [hcall,hI] at hrule
  cases b with
  | false => exact (hrule.2 rfl).elim
  | true =>
    obtain ⟨-,h'⟩ := hrule.1 rfl
    refine ⟨h'.kernel,h'.dir,fun d' hd' i hi => ⟨(h'.slot d' hd' i hi).table,?_⟩,h'.nodup⟩
    refine fun v hv _ => (h'.view hd' hv).trans ?_
    refine if_congr (and_congr_right fun _ => ?_) rfl rfl
    simp only [mem_pageRange,pgSize] at hgood ⊢
    refine ⟨?_,fun hk => ⟨v / 4096 * 4096,⟨v / 4096 - va / 4096,?_⟩,?_⟩⟩
    · rintro ⟨_,⟨i,rfl,hi⟩,hv⟩
      omega
    · omega
    · omega

end Inv

theorem foldl_freePte (pt : Nat) (js : List Nat) (t : Tables) :
    (js.foldl (Tables.freePte pt) t).freed = t.freed ∧
    ∀ g ≠ pt, (js.foldl (Tables.freePte pt) t).mem g = t.mem g := by
  induction js generalizing t with
  | nil => exact ⟨rfl,fun _ _ => rfl⟩
  | cons j js ih =>
    obtain ⟨hfreed,hmem⟩ := ih (t.freePte pt j)
    have hstep : (t.freePte pt j).freed = t.freed ∧ ∀ g ≠ pt, (t.freePte pt j).mem g = t.mem g := by
      unfold Tables.freePte
      split
      · exact ⟨rfl,fun _ _ => rfl⟩
      · exact ⟨rfl,fun g hg => funext fun k => if_neg fun hk => hg hk.1⟩
    exact ⟨hfreed.trans hstep.1,fun g hg => (hmem g hg).trans (hstep.2 g hg)⟩

def tables (t : Tables) (d : Nat) (is : List Nat) : List Nat :=
  is.filterMap fun i => (t.mem d i).map Pte.frame

theorem foldl_freePde {is : List Nat} (his : is.Nodup)
    (hpde : ∀ i ∈ is, ∀ pde ∈ t.mem d i, pde.perm.u = true ∧ pde.frame ≠ d) :
    (is.foldl (Tables.freePde d) t).freed = t.freed ++ tables t d is ∧
    ∀ g ∉ tables t d is ++ [d], (is.foldl (Tables.freePde d) t).mem g = t.mem g := by
  induction is generalizing t with
  | nil => exact ⟨(append_nil _).symm,fun _ _ => rfl⟩
  | cons i is ih =>
    obtain ⟨hi,his⟩ := nodup_cons.mp his
    rw [foldl_cons]
    cases hm : t.mem d i with
    | none =>
      have hstep : t.freePde d i = t := by rw [Tables.freePde,hm]
      have htables : tables t d (i :: is) = tables t d is := by simp [tables,hm]
      rw [hstep,htables]
      exact ih his fun j hj => hpde j (mem_cons_of_mem i hj)
    | some pde =>
      obtain ⟨hu,hne⟩ := hpde i mem_cons_self pde hm
      obtain ⟨t₂,hstep,hfreed,hmem⟩ : ∃ t₂ : Tables,
          t.freePde d i = (t₂.freePage pde.frame).store d i none ∧ t₂.freed = t.freed ∧
            ∀ g ≠ pde.frame, t₂.mem g = t.mem g := by
        refine ⟨_,?_,foldl_freePte pde.frame (range 1024) t⟩
        rw [Tables.freePde,hm]
        exact if_pos hu
      generalize t.freePde d i = t₁ at hstep ⊢
      have hdir : ∀ k, k ≠ i → t₁.mem d k = t.mem d k := by
        intro k hk
        rw [hstep,← hmem d hne.symm]
        exact if_neg fun h => hk h.2
      have hother : ∀ g, g ≠ pde.frame → g ≠ d → t₁.mem g = t.mem g := by
        intro g hg hgd
        rw [hstep,← hmem g hg]
        exact funext fun k => if_neg fun h => hgd h.1
      have hsame : ∀ j ∈ is, t₁.mem d j = t.mem d j := by
        intro j hj
        exact hdir j fun heq => hi (heq ▸ hj)
      have htables : tables t d (i :: is) = pde.frame :: tables t₁ d is := by
        simp only [tables,filterMap_cons,hm,Option.map_some]
        exact congrArg _ (filterMap_congr fun j hj => by rw [hsame j hj])
      obtain ⟨hf,hrest⟩ := ih his fun j hj => hsame j hj ▸ hpde j (mem_cons_of_mem i hj)
      rw [htables]
      refine ⟨?_,fun g hg => ?_⟩
      · rw [hf,hstep,append_cons]
        exact congrArg (· ++ [pde.frame] ++ _) hfreed
      · simp only [cons_append,mem_cons,not_or] at hg
        rw [hrest g hg.2,hother g hg.1 fun hd => hg.2 (by simp [hd])]

namespace Inv

theorem own_table (h : Inv k t own m) (hd : d ∈ t.dirs) (hi : i ∈ range 768)
    (hf : (t.mem d i).map Pte.frame = some f) : own f = some (d,some i) := by
  obtain ⟨pde,hpde,rfl⟩ := Option.map_eq_some_iff.mp hf
  exact ((h.slot d hd i (mem_range.mp hi)).table pde hpde).1

theorem own_pages (h : Inv k t own m) (hd : d ∈ t.dirs) (hf : f ∈ tables t d (range 768) ++ [d]) :
    ∃ x, own f = some (d,x) := by
  rcases mem_append.mp hf with hf | hf
  · obtain ⟨i,hi,hf⟩ := mem_filterMap.mp hf
    exact ⟨some i,h.own_table hd hi hf⟩
  · rw [mem_singleton.mp hf]
    exact ⟨none,(h.dir d hd).1⟩

theorem pages_nodup (h : Inv k t own m) (hd : d ∈ t.dirs) :
    (tables t d (range 768) ++ [d]).Nodup := by
  refine nodup_append.mpr ⟨?_,nodup_singleton d,fun f hf g hg => ?_⟩
  · refine pairwise_filterMap.mpr (nodup_range.imp_of_mem fun {i j} hi hj hne f hf g hg => ?_)
    rintro rfl
    have heq := (h.own_table hd hi hf).symm.trans (h.own_table hd hj hg)
    simp [hne] at heq
  · obtain ⟨i,hi,hf⟩ := mem_filterMap.mp hf
    rintro rfl
    have heq := (h.own_table hd hi hf).symm.trans (mem_singleton.mp hg ▸ (h.dir d hd).1)
    simp at heq

theorem free (h : Inv k t own m) (hd : d ∈ t.dirs) : Inv k (t.uvmfree d) own m ∧
    (t.uvmfree d).freed = t.freed ++ (tables t d (range 768) ++ [d]) := by
  have hpde : ∀ i ∈ range 768, ∀ pde ∈ t.mem d i, pde.perm.u = true ∧ pde.frame ≠ d := by
    intro i hi pde hpde
    obtain ⟨hown,hu,-⟩ := (h.slot d hd i (mem_range.mp hi)).table pde hpde
    refine ⟨hu,fun heq => ?_⟩
    rw [heq,(h.dir d hd).1] at hown
    simp at hown
  obtain ⟨hfreed,hmem⟩ := foldl_freePde nodup_range hpde
  obtain ⟨t₁,ht₁⟩ : ∃ t₁, t₁ = (range 768).foldl (Tables.freePde d) t := ⟨_,rfl⟩
  have heq : t.uvmfree d = { t₁.freePage d with dirs := t.dirs.erase d } := by
    rw [ht₁]
    rfl
  rw [← ht₁] at hfreed hmem
  have hsame : ∀ g, (∀ x, own g ≠ some (d,x)) → t₁.mem g = t.mem g := by
    intro g hg
    refine hmem g fun hf => ?_
    obtain ⟨x,hx⟩ := h.own_pages hd hf
    exact hg x hx
  have hdirs : ∀ d' ∈ t.dirs.erase d, d' ∈ t.dirs ∧ d' ≠ d ∧ t₁.mem d' = t.mem d' := by
    intro d' hd'
    obtain ⟨hne,hd'⟩ := h.nodup.mem_erase_iff.mp hd'
    exact ⟨hd',hne,hsame d' (by simp [(h.dir d' hd').1,hne])⟩
  rw [heq]
  refine ⟨⟨fun g hg => ?_,fun d' hd' => ?_,fun d' hd' i hi => ?_,h.nodup.erase d⟩,?_⟩
  · obtain ⟨hg,hk⟩ := h.kernel g hg
    exact ⟨hg,(hsame g (by simp [hg])).trans hk⟩
  · obtain ⟨hd',-,hm⟩ := hdirs d' hd'
    exact ⟨(h.dir d' hd').1,hm ▸ (h.dir d' hd').2⟩
  · obtain ⟨hd',hne,hm⟩ := hdirs d' hd'
    refine (h.slot d' hd' i hi).frame (congrFun hm i) (fun pde hpde => ⟨rfl,hsame _ ?_⟩)
      fun _ _ _ => rfl
    simp [((h.slot d' hd' i hi).table pde hpde).1,hne]
  · rw [← append_assoc,← hfreed]
    rfl

end Inv

def Sees (pd : Pgdir) (t : Tables) (d : Nat) : Prop := ∀ i < 1024,
  pd i = (t.mem d i).map fun pde => ⟨pde.frame,pde.perm.u,t.mem pde.frame⟩

theorem Inv.pde_frame {pde : Pte} (h : Inv k t own m) (hd : d ∈ t.dirs) (hi : i < 1024)
    (hpde : t.mem d i = some pde) :
    i < 768 ∧ own pde.frame = some (d,some i) ∨ k.pages pde.frame = true := by
  rcases Nat.lt_or_ge i 768 with hlt | hge
  · exact .inl ⟨hlt,((h.slot d hd i hlt).table pde hpde).1⟩
  · rw [(h.dir d hd).2 i hge hi] at hpde
    exact .inr (k.pages_table i pde hpde)

namespace Sees

variable {pd : Pgdir}

theorem dir (hs : Sees pd t d) (va : Nat) : pd (pdx va) =
    (t.mem d (pdx va)).map fun pde => ⟨pde.frame,pde.perm.u,t.mem pde.frame⟩ :=
  hs _ (Nat.mod_lt _ (by decide))

theorem lookup (hs : Sees pd t d) (va : Nat) : pd.lookup va = t.lookup d va := by
  rw [lookup_eq,Pgdir.lookup,hs.dir va]
  cases t.mem d (pdx va) <;> rfl

theorem change {e : Option Pde} (hs : Sees pd t d) (hi : e = (t'.mem d i).map fun pde =>
      ⟨pde.frame,pde.perm.u,t'.mem pde.frame⟩) (hdir : ∀ j ≠ i, t'.mem d j = t.mem d j)
    (htable : ∀ j < 1024, j ≠ i → ∀ pde, t.mem d j = some pde → t'.mem pde.frame = t.mem pde.frame) :
    Sees (pd.setPde i e) t' d := by
  intro j hj
  by_cases heq : j = i
  · rw [heq,Pgdir.setPde,update_self,hi]
  · rw [Pgdir.setPde,update_of_ne heq,hs j hj,hdir j heq]
    exact Option.map_congr fun pde hpde => by rw [htable j hj heq pde hpde]

theorem store {pde : Pte} {w : Option Pte} (hs : Sees pd t d) (h : Inv k t own m) (hd : d ∈ t.dirs)
    (hva : va < userEnd) (hpde : t.mem d (pdx va) = some pde) (put : List Nat) :
    Sees (pd.setPte va w) { t.store pde.frame (ptx va) w with put := put } d := by
  have hown := ((h.slot d hd _ (pdx_lt_of_user hva)).table pde hpde).1
  have hsame := store_other t own pde.frame (ptx va) w
  have hdir := hsame d (by simp [(h.dir d hd).1,hown])
  rw [Pgdir.setPte,hs.dir va,hpde]
  refine hs.change ?_ (fun j _ => congrFun hdir j) fun j hj hne pde' hpde' => hsame _ ?_
  · rw [hdir,hpde]
    refine congrArg some (congrArg (Pde.mk _ _) (funext fun j => ?_))
    simp [Tables.store,Function.update_apply]
  · rcases h.pde_frame hd hj hpde' with ⟨-,hk⟩ | hk
    · simp [hk,hown,hne]
    · simp [(h.kernel _ hk).1,hown]

theorem grow (hs : Sees pd t d) (h : Inv k t own m) (hd : d ∈ t.dirs) (hf : k.used t f = false) :
    Sees (pd.setPde i (some ⟨f,true,fun _ => none⟩)) (t.addTable d i f true) d := by
  obtain ⟨hkernel,hdirs,htables⟩ := unused hf
  have hne := hdirs d hd
  refine hs.change ?_ (fun j hj => ?_) fun j hj _ pde hpde => funext fun n => ?_
  · simp [Tables.addTable,Tables.store,Tables.alloc,hne.symm]
  · simp [Tables.addTable,Tables.store,Tables.alloc,hj,hne]
  · have hframe : pde.frame ≠ f ∧ pde.frame ≠ d := by
      rcases h.pde_frame hd hj hpde with ⟨hlt,hk⟩ | hk
      · exact ⟨htables d hd j hlt pde hpde,fun heq => by simp [heq,(h.dir d hd).1] at hk⟩
      · exact ⟨hkernel _ hk,fun heq => by simpa [(h.dir d hd).1,heq] using (h.kernel _ hk).1⟩
    simp [Tables.addTable,Tables.store,Tables.alloc,hframe]

variable {s : Space}

theorem unmapPage {doFree allowMissing : Bool} (hs : Sees s.pd t d) (h : Inv k t own m)
    (hd : d ∈ t.dirs) (hva : va < userEnd) :
    Sees (s.unmapPage va doFree allowMissing).1.pd (t.unmapPage d va doFree allowMissing).1 d ∧
    (s.unmapPage va doFree allowMissing).2 = (t.unmapPage d va doFree allowMissing).2 := by
  unfold Space.unmapPage Tables.unmapPage Tables.walk
  rw [hs.lookup,lookup_eq]
  cases hpde : t.mem d (pdx va) with
  | none => exact ⟨hs,rfl⟩
  | some pde =>
    dsimp only [Option.bind_some]
    cases hpte : t.mem pde.frame (ptx va) with
    | none => exact ⟨hs,rfl⟩
    | some pte => exact ⟨hs.store h hd hva hpde _,rfl⟩

theorem mapPage {frame : Nat} {perm : Perm} (hs : Sees s.pd t d) (h : Inv k t own m)
    (hd : d ∈ t.dirs) (hva : va < userEnd) (hpage : va % pgSize = 0)
    (hfree : ∀ f ∈ s.phys.allocPage.2, k.used t f = false) :
    Sees (s.mapPage va frame perm true).1.pd
      (t.mappages d va (frame * pgSize) perm true s.phys.allocPage.2).1 d ∧
    (s.mapPage va frame perm true).2 =
      (t.mappages d va (frame * pgSize) perm true s.phys.allocPage.2).2 := by
  have hgood : ¬ (va % pgSize ≠ 0 ∨ frame * pgSize % pgSize ≠ 0) := by simp [hpage]
  have hframe : frame * pgSize / pgSize = frame := Nat.mul_div_cancel frame (by decide)
  have hfind := hs.lookup va
  unfold Space.mapPage Space.walk Tables.mappages Tables.walk
  rw [if_neg hgood,hframe,hs.dir]
  cases hpde : t.mem d (pdx va) with
  | some pde =>
    rw [lookup_eq,hpde] at hfind
    dsimp only [Option.map_some,Option.bind_some] at hfind ⊢
    rw [hfind]
    cases t.mem pde.frame (ptx va) with
    | some pte => exact ⟨hs,rfl⟩
    | none => exact ⟨hs.store h hd hva hpde _,rfl⟩
  | none =>
    rcases halloc : s.phys.allocPage with ⟨ph,_ | f⟩
    · exact ⟨hs,rfl⟩
    · have hf := hfree f (by rw [halloc]; rfl)
      have hs' := hs.grow (i := pdx va) h hd hf
      have hnew : (t.addTable d (pdx va) f true).mem f (ptx va) = none :=
        (if_neg fun hj => (unused hf).2.1 d hd hj.1.symm).trans (if_pos rfl)
      have hmiss : (s.pd.setPde (pdx va) (some ⟨f,true,fun _ => none⟩)).lookup va = none := by
        simp [Pgdir.lookup,Pgdir.setPde]
      simp only [Option.map_none,Option.map_some,if_true,hmiss,hnew]
      exact ⟨hs'.store (h.grow hd hva hpde hf) hd hva (if_pos ⟨rfl,rfl⟩) _,trivial⟩

end Sees

theorem step_keeps {op : Op} {o : Op × Bool} (h : Inv k t own m)
    (hstep : k.step t op = some (t',o)) : ∃ own, Inv k t' own (replay m o) := by
  unfold Kernel.step at hstep
  split at hstep
  · rename_i hok
    cases hstep
    cases op with
    | create page =>
      cases page with
      | none => exact ⟨own,h⟩
      | some f => exact ⟨_,h.create (by simpa [Kernel.allowed] using hok)⟩
    | map pgdir va pa perm page =>
      simp only [Kernel.allowed,Bool.and_eq_true,contains_iff_mem,decide_eq_true_eq,
        Option.all_eq_true,Bool.not_eq_true'] at hok
      exact (h.map hok.1.1 hok.1.2 hok.2 rfl).1
    | unmap pgdir va npages doFree =>
      simp only [Kernel.allowed,Bool.and_eq_true,contains_iff_mem,decide_eq_true_eq] at hok
      exact ⟨own,h.unmap hok.1 hok.2 rfl⟩
    | free pgdir => exact ⟨own,(h.free (by simpa [Kernel.allowed] using hok)).1⟩
  · cases hstep

def sample : Kernel where
  mem f i := if f = 1 ∧ i = 768 then some ⟨2,⟨true,false,false⟩⟩ else none
  pgdir := 1
  pages f := f == 1 || f == 2
  pages_pgdir := rfl
  pages_table i pde h := by
    split at h
    · cases h
      rfl
    · cases h

end TinyOs.TwoLevel
