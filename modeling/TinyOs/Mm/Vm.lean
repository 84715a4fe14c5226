import Mathlib.Data.List.TakeWhile
import TinyOs.Mm.Space

namespace TinyOs

open Count List

structure Copying where
  phys : Phys
  old : Pgdir
  new : Pgdir

def Pte.share (pte : Pte) : Pte :=
  { pte with perm := { pte.perm with w := false, cow := pte.perm.w || pte.perm.cow } }

def uvmcopyPage (va : Nat) (c : Copying) : Copying × Bool :=
  match c.old.lookup va with
  | none => (c,true)
  | some pte =>
    let cow := pte.perm.w || pte.perm.cow
    let old :=
      if cow then
        c.old.setPte va (some { pte with perm := { pte.perm with w := false, cow := true } })
      else c.old
    match Space.uvmmap ⟨c.phys.getPage pte.frame,c.new⟩ va pte.frame pgSize ⟨false,true,cow⟩ with
    | (s,true) => (⟨s.phys,old,s.pd⟩,true)
    | (s,false) => (⟨s.phys.putPage pte.frame,old,s.pd⟩,false)

def uvmcopyTable (sz i : Nat) (c : Copying) : Copying × Bool :=
  match c.old i with
  | none => (c,true)
  | some pde =>
    if pde.user then
      Loop.forEach (fun j => uvmcopyPage (i * 2 ^ 22 + j * 2 ^ 12))
        ((List.range 1024).takeWhile fun j => i * 2 ^ 22 + j * 2 ^ 12 < sz) c
    else (c,true)

def uvmcopy (c : Copying) (sz : Nat) : Copying × Bool :=
  if sz = 0 then (c,false)
  else
    let sz := if userEnd < sz then userEnd else sz
    if sz ≤ userBase then (c,true)
    else Loop.forEach (uvmcopyTable sz) (List.range (pdx (sz - 1) + 1)) c

def Phys.copyFrame (ph : Phys) (src dst : Nat) : Phys :=
  { ph with
    mem := Function.update ph.mem dst fun i => if i < pgSize then ph.mem src i else ph.mem dst i }

namespace Space

def uvmCowFault (s : Space) (addr : Nat) : Space × Bool :=
  let va := pgRoundDown addr
  if va < userBase ∨ userEnd ≤ va then (s,false)
  else
    match s.pd.lookup va with
    | none => (s,false)
    | some pte =>
      if pte.perm.cow then
        if s.phys.pageRefcount pte.frame = 1 then
          let sole := { pte with perm := { pte.perm with w := true, cow := false } }
          ({ s with pd := s.pd.setPte va (some sole) },true)
        else
          match s.phys.allocUser with
          | (ph,none) => ({ s with phys := ph },false)
          | (ph,some f) =>
            ({ phys := (ph.copyFrame pte.frame f).putPage pte.frame
               pd := s.pd.setPte va (some ⟨f,⟨true,true,false⟩⟩) },true)
      else (s,false)

def uvmdealloc (s : Space) (oldsz newsz : Nat) : Space × Nat :=
  if oldsz ≤ newsz then (s,oldsz)
  else if pgRoundUp newsz < pgRoundUp oldsz then
    match s.uvmunmap (pgRoundUp newsz) ((pgRoundUp oldsz - pgRoundUp newsz) / pgSize) true with
    | (s,true) => (s,newsz)
    | (s,false) => (s,0)
  else (s,newsz)

end Space

def uvmalloc (oldsz newsz : Nat) : Nat :=
  if newsz < oldsz then 0 else if userHeapTop < newsz then 0 else newsz

namespace Copying

structure Ok (c : Copying) (X Y : Nat → Nat) : Prop where
  phys : c.phys.Ok (c.old.userRefs + (c.new.userRefs + X)) (c.old.dirRefs + (c.new.dirRefs + Y))
  old : c.old.Wf
  new : c.new.Wf

variable {c c' : Copying} {X Y : Nat → Nat} {va : Nat}

theorem of_space {s : Space} {old : Pgdir} (hs : s.Ok (old.userRefs + X) (old.dirRefs + Y))
    (hold : old.Wf) : Ok ⟨s.phys,old,s.pd⟩ X Y := by
  refine ⟨?_,hold,hs.wf⟩
  have := hs.phys
  rwa [add_left_comm,add_left_comm s.pd.dirRefs] at this

end Copying

namespace Pgdir

variable {pd : Pgdir} {va : Nat} {pte : Pte}

theorem userRefs_setPerm (perm : Perm) (h : pd.Wf) (hva : va < userEnd)
    (hl : pd.lookup va = some pte) :
    (pd.setPte va (some { pte with perm := perm })).userRefs = pd.userRefs := by
  obtain ⟨pde,hpde,-⟩ := pde_of_lookup hl
  have := userRefs_setPte (e := some { pte with perm := perm }) h hva (by simp [hpde])
  rw [hl] at this
  exact add_right_cancel this

theorem lookup_setPte_of_some {e : Option Pte} {va' : Nat} (hl : pd.lookup va = some pte)
    (hw : va < word) (hw' : va' < word) :
    (pd.setPte va e).lookup va' = if va' / pgSize = va / pgSize then e else pd.lookup va' := by
  obtain ⟨pde,hpde,-⟩ := pde_of_lookup hl
  exact lookup_setPte (by simp [hpde]) hw hw'

end Pgdir

theorem Pte.share_of_private {pte : Pte} (h : (pte.perm.w || pte.perm.cow) = false) :
    pte.share = pte := by
  obtain ⟨frame,w,u,cow⟩ := pte
  simp_all [Pte.share]

structure Copied (c c' : Copying) (X Y : Nat → Nat) (done : Nat → Prop) [DecidablePred done] :
    Prop where
  ok : c'.Ok X Y
  old : ∀ a < word, c'.old.lookup a =
    if done (a / pgSize) then (c.old.lookup a).map Pte.share else c.old.lookup a
  refs : c'.old.userRefs = c.old.userRefs
  keeps : Keeps (c.old.userRefs + X) c.phys c'.phys

variable {c c' : Copying} {X Y : Nat → Nat} {va : Nat} {b : Bool}

theorem uvmcopyPage_old {pte : Pte} (h : c.old.Wf) (hva : va < userEnd)
    (hl : c.old.lookup va = some pte) :
    let old := if (pte.perm.w || pte.perm.cow) = true then
      c.old.setPte va (some { pte with perm := { pte.perm with w := false, cow := true } }) else c.old
    old.Wf ∧ old.userRefs = c.old.userRefs ∧ old.dirRefs = c.old.dirRefs ∧
      ∀ a < word, old.lookup a =
        if a / pgSize = va / pgSize then (c.old.lookup a).map Pte.share else c.old.lookup a := by
  have hw := hva.trans userEnd_lt
  have hu := h.lookup_user hva hl
  intro old
  by_cases hc : (pte.perm.w || pte.perm.cow) = true
  · have hold : old = c.old.setPte va
        (some { pte with perm := { pte.perm with w := false, cow := true } }) := if_pos hc
    rw [hold]
    refine ⟨h.setPte hva (by rintro _ ⟨rfl⟩; exact hu),Pgdir.userRefs_setPerm _ h hva hl,
      Pgdir.dirRefs_setPte _ _ _,fun a ha => ?_⟩
    rw [Pgdir.lookup_setPte_of_some hl hw ha]
    split
    · rename_i he
      rw [Pgdir.lookup_eq_of_page hw ha he,hl]
      simp [Pte.share,hc]
    · rfl
  · have hold : old = c.old := if_neg hc
    rw [hold]
    refine ⟨h,rfl,rfl,fun a ha => ?_⟩
    split
    · rename_i he
      rw [Pgdir.lookup_eq_of_page hw ha he,hl,Option.map_some,
        Pte.share_of_private (by simpa using hc)]
    · rfl

theorem uvmcopyPage_spec (h : c.Ok X Y) (hX : ∀ f, X f ≤ 2 ^ 31) (hal : va % pgSize = 0)
    (hva : va < userEnd) (hc : uvmcopyPage va c = (c',b)) :
    Copied c c' X Y (· = va / pgSize) ∧
      if b then ∀ a < word, c'.new.lookup a =
        if a / pgSize = va / pgSize then ((c.old.lookup a).map Pte.share).or (c.new.lookup a)
        else c.new.lookup a
      else c'.phys.pmm.failed ≠ 0 ∨ c.new.lookup va ≠ none := by
  have hw := hva.trans userEnd_lt
  simp only [uvmcopyPage] at hc
  split at hc
  · rename_i hnone
    cases hc
    have hpage : ∀ a < word, a / pgSize = va / pgSize → c.old.lookup a = none := fun a ha he => by
      rw [Pgdir.lookup_eq_of_page hw ha he,hnone]
    refine ⟨⟨h,fun a ha => ?_,rfl,Keeps.refl _ _⟩,?_⟩
    · split
      · rename_i he
        rw [hpage a ha he]
        rfl
      · rfl
    rw [if_pos rfl]
    intro a ha
    split
    · rename_i he
      rw [hpage a ha he]
      rfl
    · rfl
  rename_i pte hl
  obtain ⟨hwf,hrefs,hdir,hold⟩ := uvmcopyPage_old h.old hva hl
  have hu := h.old.lookup_user hva hl
  have hget := Phys.getPage_ok (f := pte.frame) h.phys
    (by have := Pgdir.userRefs_pos h.old hva hl; simp only [Pi.add_apply]; omega)
    (by
      have h1 := c.old.userRefs_le pte.frame
      have h2 := c.new.userRefs_le pte.frame
      have h3 := hX pte.frame
      simp only [Pi.add_apply,word]
      omega)
  have hspace : Space.Ok ⟨c.phys.getPage pte.frame,c.new⟩
      (unit pte.frame + (c.old.userRefs + X)) (c.old.dirRefs + Y) := by
    refine ⟨?_,h.new⟩
    have e1 : c.new.userRefs + (unit pte.frame + (c.old.userRefs + X)) =
        c.old.userRefs + (c.new.userRefs + X) + unit pte.frame := by abel
    have e2 : c.new.dirRefs + (c.old.dirRefs + Y) = c.old.dirRefs + (c.new.dirRefs + Y) := by abel
    rw [e1,e2]
    exact hget
  split at hc
  · rename_i s hs
    cases hc
    have hm := Space.uvmmap_true hspace hal hva hs
    refine ⟨⟨?_,hold,hrefs,(Keeps.getPage _ _ _).trans (hm.keeps.mono ?_)⟩,?_⟩
    · exact Copying.of_space (by rw [hrefs,hdir]; exact hm.ok) hwf
    · intro f hf
      simp only [Pi.add_apply] at hf ⊢
      omega
    rw [if_pos rfl]
    intro a ha
    rw [hm.lookup a ha]
    split
    · rename_i he
      rw [Pgdir.lookup_eq_of_page hw ha he,hl]
      simp [Pte.share,hu]
    · rfl
  · rename_i s hs
    cases hc
    obtain ⟨hm,hfail⟩ := Space.uvmmap_false hspace hal hva hs
    refine ⟨⟨?_,hold,hrefs,?_⟩,?_⟩
    · refine Copying.of_space (s := ⟨s.phys.putPage pte.frame,s.pd⟩) ⟨?_,hm.ok.wf⟩ hwf
      have hok := hm.ok.phys
      have e1 : s.pd.userRefs + (unit pte.frame + (c.old.userRefs + X)) =
          s.pd.userRefs + (c.old.userRefs + X) + unit pte.frame := by abel
      rw [e1] at hok
      rw [hrefs,hdir]
      exact Phys.putPage_user hok
    · refine ((Keeps.getPage _ _ _).trans (hm.keeps.mono ?_)).trans (Keeps.putPage _ _ _)
      intro f hf
      simp only [Pi.add_apply] at hf ⊢
      omega
    · simpa using hfail.imp_left Nat.ne_zero_of_lt

theorem Pte.share_share (pte : Pte) : pte.share.share = pte.share := by
  simp [Pte.share]

structure Marked (c c' : Copying) (X Y : Nat → Nat) : Prop where
  ok : c'.Ok X Y
  old : ∀ a < word, c'.old.lookup a = c.old.lookup a ∨
    c'.old.lookup a = (c.old.lookup a).map Pte.share
  refs : c'.old.userRefs = c.old.userRefs
  keeps : Keeps (c.old.userRefs + X) c.phys c'.phys

theorem Marked.refl (h : c.Ok X Y) : Marked c c X Y := ⟨h,fun _ _ => .inl rfl,rfl,Keeps.refl _ _⟩

theorem Marked.copied {c'' : Copying} {done : Nat → Prop} [DecidablePred done]
    (h : Marked c c' X Y) (h' : Copied c' c'' X Y done) : Marked c c'' X Y := by
  refine ⟨h'.ok,fun a ha => ?_,h'.refs.trans h.refs,h.keeps.trans (h.refs ▸ h'.keeps)⟩
  rw [h'.old a ha]
  rcases h.old a ha with he | he <;> rw [he] <;> split
  · exact .inr rfl
  · exact .inl rfl
  · refine .inr ?_
    rw [Option.map_map]
    exact congrFun (congrArg Option.map (funext Pte.share_share)) _
  · exact .inr rfl

theorem uvmcopyTable_marked {c₀ : Copying} {sz i : Nat} (h : Marked c₀ c X Y)
    (hX : ∀ f, X f ≤ 2 ^ 31) (hsz : sz ≤ userEnd) : Marked c₀ (uvmcopyTable sz i c).1 X Y := by
  simp only [uvmcopyTable]
  split
  · exact h
  split
  · refine Loop.forEach_invariant (I := fun c => Marked c₀ c X Y) (fun j hj c' hc' => ?_) h
    have hlt := mem_takeWhile_imp hj
    simp only [decide_eq_true_eq] at hlt
    rcases hb : uvmcopyPage (i * 2 ^ 22 + j * 2 ^ 12) c' with ⟨c'',b⟩
    exact hc'.copied (uvmcopyPage_spec hc'.ok hX (by simp only [pgSize]; omega) (by omega) hb).1
  · exact h

theorem uvmcopy_marked (sz : Nat) (h : c.Ok X Y) (hX : ∀ f, X f ≤ 2 ^ 31) :
    Marked c (uvmcopy c sz).1 X Y := by
  have hle : (if userEnd < sz then userEnd else sz) ≤ userEnd := by split <;> omega
  simp only [uvmcopy]
  generalize (if userEnd < sz then userEnd else sz) = n at hle
  split
  · exact Marked.refl h
  split
  · exact Marked.refl h
  refine Loop.forEach_invariant (I := fun c' => Marked c c' X Y) (fun i _ c' hc' => ?_)
    (Marked.refl h)
  exact uvmcopyTable_marked hc' hX hle

structure SharedTo (c c' : Copying) (X Y : Nat → Nat) (n : Nat) : Prop where
  copied : Copied c c' X Y (· < n)
  new : ∀ a < word, c'.new.lookup a =
    if a / pgSize < n then ((c.old.lookup a).map Pte.share).or (c.new.lookup a)
    else c.new.lookup a

theorem SharedTo.page {n : Nat} {c'' : Copying} (h : SharedTo c c' X Y n)
    (hX : ∀ f, X f ≤ 2 ^ 31) (hn : n * pgSize < userEnd)
    (hc : uvmcopyPage (n * pgSize) c' = (c'',b)) :
    if b then SharedTo c c'' X Y (n + 1)
    else c''.phys.pmm.failed ≠ 0 ∨ c.new.lookup (n * pgSize) ≠ none := by
  have hdiv : n * pgSize / pgSize = n := Nat.mul_div_cancel _ (by decide)
  have hw : n * pgSize < word := by simp only [userEnd,kernBase,word] at *; omega
  obtain ⟨hpage,hres⟩ := uvmcopyPage_spec h.copied.ok hX (Nat.mul_mod_left _ _) hn hc
  rw [hdiv] at hres
  cases b with
  | false =>
    rw [if_neg (by simp)] at hres ⊢
    rwa [h.new _ hw,hdiv,if_neg (by omega)] at hres
  | true =>
    rw [if_pos rfl] at hres ⊢
    refine ⟨⟨hpage.ok,fun a ha => ?_,hpage.refs.trans h.copied.refs,
      h.copied.keeps.trans (h.copied.refs ▸ hpage.keeps)⟩,fun a ha => ?_⟩
    · rw [hpage.old a ha,h.copied.old a ha,hdiv]
      by_cases h1 : a / pgSize = n
      · simp [h1]
      by_cases h2 : a / pgSize < n
      · simp [h1,h2,Nat.lt_succ_of_lt h2]
      · simp only [h1,h2,if_false]
        rw [if_neg (by omega)]
    · rw [hres a ha,h.copied.old a ha,h.new a ha]
      by_cases h1 : a / pgSize = n
      · simp [h1]
      by_cases h2 : a / pgSize < n
      · simp [h1,h2,Nat.lt_succ_of_lt h2]
      · simp only [h1,h2,if_false]
        rw [if_neg (by omega)]

theorem SharedTo.skip {i : Nat} (h : SharedTo c c' X Y (i * 1024)) (hi : c'.old i = none) :
    SharedTo c c' X Y ((i + 1) * 1024) := by
  have hgap : ∀ a < word, ¬ a / pgSize < i * 1024 → a / pgSize < (i + 1) * 1024 →
      c.old.lookup a = none := by
    intro a ha h1 h2
    have hold := h.copied.old a ha
    rw [if_neg h1] at hold
    have hpdx : pdx a = i := by simp only [pdx,pgSize,word] at *; omega
    rw [← hold,Pgdir.lookup,hpdx,hi]
  refine ⟨⟨h.copied.ok,fun a ha => ?_,h.copied.refs,h.copied.keeps⟩,fun a ha => ?_⟩
  · rw [h.copied.old a ha]
    by_cases h1 : a / pgSize < i * 1024
    · have h2 : a / pgSize < (i + 1) * 1024 :=
        lt_of_lt_of_le h1 (Nat.mul_le_mul_right _ (Nat.le_succ i))
      rw [if_pos h1,if_pos h2]
    rw [if_neg h1]
    split
    · rename_i h2
      rw [hgap a ha h1 h2]
      rfl
    · rfl
  · rw [h.new a ha]
    by_cases h1 : a / pgSize < i * 1024
    · have h2 : a / pgSize < (i + 1) * 1024 :=
        lt_of_lt_of_le h1 (Nat.mul_le_mul_right _ (Nat.le_succ i))
      rw [if_pos h1,if_pos h2]
    rw [if_neg h1]
    split
    · rename_i h2
      rw [hgap a ha h1 h2]
      rfl
    · rfl

theorem uvmcopyTable_shared {i : Nat} (h : SharedTo c c' X Y (i * 1024)) (hX : ∀ f, X f ≤ 2 ^ 31)
    (hi : i < 768) (hnew : ∀ a < userEnd, c.new.lookup a = none) :
    ((uvmcopyTable userEnd i c').2 = true →
        SharedTo c (uvmcopyTable userEnd i c').1 X Y ((i + 1) * 1024)) ∧
      ((uvmcopyTable userEnd i c').2 = false →
        (uvmcopyTable userEnd i c').1.phys.pmm.failed ≠ 0) := by
  simp only [uvmcopyTable]
  split
  · rename_i hnone
    exact ⟨fun _ => h.skip hnone,fun hf => by simp at hf⟩
  rename_i pde hpde
  rw [if_pos (h.copied.ok.old.user i hi pde hpde).1]
  have hall : (range 1024).takeWhile (fun j => decide (i * 2 ^ 22 + j * 2 ^ 12 < userEnd)) =
      range 1024 := by
    refine takeWhile_eq_self_iff.mpr fun j hj => ?_
    have := mem_range.mp hj
    refine decide_eq_true ?_
    simp only [userEnd,kernBase]
    omega
  rw [hall]
  have hpage : ∀ j < 1024, i * 2 ^ 22 + j * 2 ^ 12 = (i * 1024 + j) * pgSize ∧
      (i * 1024 + j) * pgSize < userEnd := fun j hj => by
    simp only [pgSize,userEnd,kernBase]
    omega
  have hrule := Loop.forEach_range_rule
    (fun j => uvmcopyPage (i * 2 ^ 22 + j * 2 ^ 12)) 1024 (s := c')
    (I := fun j c' => SharedTo c c' X Y (i * 1024 + j)) (E := fun c' => c'.phys.pmm.failed ≠ 0)
    (fun j hj s s' hs hb => by
      rw [(hpage j hj).1] at hb
      have := hs.page hX (hpage j hj).2 hb
      rwa [if_pos rfl,add_assoc] at this)
    (fun j hj s s' hs hb => by
      rw [(hpage j hj).1] at hb
      have := hs.page hX (hpage j hj).2 hb
      rw [if_neg (by simp)] at this
      exact this.resolve_right fun hne => hne (hnew _ (hpage j hj).2))
    (by rwa [add_zero])
  rwa [← Nat.succ_mul] at hrule

theorem uvmcopy_spec (h : c.Ok X Y) (hX : ∀ f, X f ≤ 2 ^ 31)
    (hnew : ∀ a < userEnd, c.new.lookup a = none) :
    ((uvmcopy c userEnd).2 = true → SharedTo c (uvmcopy c userEnd).1 X Y (768 * 1024)) ∧
      ((uvmcopy c userEnd).2 = false → (uvmcopy c userEnd).1.phys.pmm.failed ≠ 0) := by
  have hn : pdx (userEnd - 1) + 1 = 768 := by decide
  have h0 : userEnd ≠ 0 := by decide
  have hb : ¬ userEnd ≤ userBase := by decide
  simp only [uvmcopy,if_neg h0,lt_irrefl,if_false,if_neg hb,hn]
  have hstart : SharedTo c c X Y (0 * 1024) :=
    ⟨⟨h,fun a _ => by simp,rfl,Keeps.refl _ _⟩,fun a _ => by simp⟩
  exact Loop.forEach_range_rule (uvmcopyTable userEnd) 768 (s := c)
    (I := fun i c' => SharedTo c c' X Y (i * 1024)) (E := fun c' => c'.phys.pmm.failed ≠ 0)
    (fun i hi s s' hs hb => by
      have := (uvmcopyTable_shared hs hX hi hnew).1
      rw [hb] at this
      exact this rfl)
    (fun i hi s s' hs hb => by
      have := (uvmcopyTable_shared hs hX hi hnew).2
      rw [hb] at this
      exact this rfl)
    hstart

end TinyOs
