import TinyOs.Mm.Demand

namespace TinyOs

open Count

namespace Ctx

variable {x x' x'' : Ctx} {X Y N : Nat → Nat} {va f n fuel srcva dstva : Nat} {write cur : Bool}
  {src : List UInt8} {I : Ctx → Prop}

def reads (x : Ctx) (va : Nat) : Option UInt8 :=
  if va < userEnd then
    match x.mm.pd.lookup va with
    | some pte => some (x.phys.mem pte.frame (va % pgSize))
    | none => (x.mm.demand (pgRoundDown va)).map fun _ => 0
  else none

structure Paged (x x' : Ctx) (X Y N : Nat → Nat) : Prop where
  ok : x'.Ok X Y N
  shm : x'.shm = x.shm
  mm : x'.mm = { x.mm with pd := x'.mm.pd }
  closed : ∀ g, 0 < X g → (x.mm.pd.userRefs + x.shm.refs) g = 0 → x'.mm.pd.userRefs g = 0
  present : ∀ a < userEnd, x.mm.pd.lookup a ≠ none → x'.mm.pd.lookup a ≠ none
  failed : x.phys.pmm.failed ≤ x'.phys.pmm.failed
  blocks : x'.phys.blocks = x.phys.blocks

namespace Paged

theorem refl (h : x.Ok X Y N) : Paged x x X Y N :=
  ⟨h,rfl,rfl,fun _ _ h0 => (Nat.add_eq_zero_iff.mp h0).1,fun _ _ => id,le_rfl,rfl⟩

theorem trans (h : Paged x x' X Y N) (h' : Paged x' x'' X Y N) : Paged x x'' X Y N where
  ok := h'.ok
  shm := h'.shm.trans h.shm
  mm := by
    rw [h'.mm,h.mm]
  closed g hg h0 := by
    have h1 := h.closed g hg h0
    refine h'.closed g hg ?_
    rw [Pi.add_apply,Nat.add_eq_zero_iff] at h0 ⊢
    rw [h.shm]
    exact ⟨h1,h0.2⟩
  present a ha hne := h'.present a ha (h.present a ha hne)
  failed := h.failed.trans h'.failed
  blocks := h'.blocks.trans h.blocks

theorem out (h : Paged x x' X Y N) :
    Outside x.shm x'.shm x.mm.pd.userRefs x'.mm.pd.userRefs X N := by
  rw [h.shm]
  exact Outside.of_refs fun g hg h0 h1 => h.closed g hg (Nat.add_eq_zero_iff.mpr ⟨h0,h1⟩)

theorem setMem (h : Paged x x' X Y N) (mem : Nat → Nat → UInt8) :
    Paged x { x' with phys := { x'.phys with mem := mem } } X Y N :=
  ⟨⟨⟨⟨h.ok.space.phys.acct,h.ok.space.phys.running⟩,h.ok.space.wf⟩,h.ok.shm,h.ok.layout,h.ok.backed,
    h.ok.attach⟩,h.shm,h.mm,h.closed,h.present,h.failed,h.blocks⟩

theorem demand (h : Paged x x' X Y N) (page : Nat) : x'.mm.demand page = x.mm.demand page := by
  rw [h.mm]
  rfl

end Paged

theorem paged_of_page {s : Space} {perm : Perm} {R : Nat → Nat} (h : x.Ok X Y N)
    (hs : s.Ok (x.shm.refs + X) Y)
    (hlook : ∀ a < word, s.pd.lookup a =
      if a / pgSize = va / pgSize then some ⟨f,perm⟩ else x.mm.pd.lookup a)
    (hf : 0 < x.mm.pd.userRefs f ∨ X f = 0)
    (hk : Keeps R x.phys s.phys) :
    Paged x (x.setSpace s) X Y N := by
  have hpresent : ∀ a < userEnd, x.mm.pd.lookup a ≠ none → s.pd.lookup a ≠ none := by
    intro a ha hne
    rw [hlook a (ha.trans userEnd_lt)]
    split
    · exact Option.some_ne_none _
    · exact hne
  refine ⟨h.setSpace hs hpresent,rfl,rfl,fun g hg h0 => ?_,hpresent,hk.failed,hk.blocks⟩
  rw [Pi.add_apply,Nat.add_eq_zero_iff] at h0
  by_contra hne
  obtain ⟨a,ha,pte,hl,rfl⟩ := Pgdir.exists_of_userRefs_pos (Nat.pos_of_ne_zero hne)
  have he : s.pd.lookup a = some pte := hl
  rw [hlook a (ha.trans userEnd_lt)] at he
  split at he
  · cases he
    dsimp only at hg h0
    omega
  · have := Pgdir.userRefs_pos h.wf ha he
    omega

theorem Served.paged (hs : Served x x' X Y va) (h : x.Ok X Y N) : Paged x x' X Y N := by
  cases hs with
  | same he =>
    subst he
    exact Paged.refl h
  | filled f w he hlt hd hf =>
    rw [he]
    refine paged_of_page h hf.ok hf.lookup (.inr ?_) hf.keeps
    have := hf.fresh
    simp only [Pi.add_apply] at this
    omega
  | broken pte f he hlt hl hcow hb =>
    rw [he]
    refine paged_of_page h hb.ok hb.lookup ?_ hb.keeps
    rcases hb.origin with rfl | h0
    · exact .inl (Pgdir.userRefs_pos h.wf hlt hl)
    · simp only [Pi.add_apply] at h0
      exact .inr (by omega)

theorem NoMemory.paged (hn : NoMemory x x' X Y) (h : x.Ok X Y N) : Paged x x' X Y N := by
  have hlook : ∀ a, x'.mm.pd.lookup a = x.mm.pd.lookup a := hn.walked.lookup
  have hshm : x'.shm = x.shm := by
    rw [hn.space]
    rfl
  have hmm : x'.mm = { x.mm with pd := x'.mm.pd } := congrArg Ctx.mm hn.space
  refine ⟨hn.ok h,hshm,hmm,fun g hg h0 => ?_,fun a _ hne => (hlook a).trans_ne hne,
    hn.walked.keeps.failed,hn.walked.keeps.blocks⟩
  have hrefs : x'.mm.pd.userRefs = x.mm.pd.userRefs := hn.walked.refs
  rw [hrefs]
  exact (Nat.add_eq_zero_iff.mp h0).1

theorem Served.keeps (hs : Served x x' X Y va) :
    Keeps (x.mm.pd.userRefs + (x.shm.refs + X)) x.phys x'.phys := by
  cases hs with
  | same he => exact he ▸ Keeps.refl _ _
  | filled f w he hlt hd hf => exact hf.keeps
  | broken pte f he hlt hl hcow hb => exact hb.keeps

theorem Served.spares (hs : Served x x' X Y va) : x.phys.Spares x'.phys := by
  cases hs with
  | same he => exact he ▸ .refl _
  | filled f w he hlt hd hf => exact hf.spares
  | broken pte f he hlt hl hcow hb => exact hb.spares

theorem reads_congr {a : Nat} (hlook : x'.mm.pd.lookup a = x.mm.pd.lookup a)
    (hdem : x'.mm.demand (pgRoundDown a) = x.mm.demand (pgRoundDown a))
    (hmem : ∀ pte, x.mm.pd.lookup a = some pte → x'.phys.mem pte.frame = x.phys.mem pte.frame) :
    x'.reads a = x.reads a := by
  simp only [reads,hlook,hdem]
  split
  · split
    · rw [hmem _ ‹_›]
    · rfl
  · rfl

theorem Served.reads (hs : Served x x' X Y va) (h : x.Ok X Y N) (a : Nat) :
    x'.reads a = x.reads a := by
  have hp := hs.paged h
  have hk := hs.keeps
  by_cases hau : a < userEnd
  swap
  · simp only [Ctx.reads,if_neg hau]
  have haw := hau.trans userEnd_lt
  have hother : x'.mm.pd.lookup a = x.mm.pd.lookup a → x'.reads a = x.reads a := fun hlook =>
    reads_congr hlook (hp.demand _) fun pte hl =>
      hk.mem _ (Nat.add_pos_left (Pgdir.userRefs_pos h.wf hau hl) _)
  cases hs with
  | same he => rw [he]
  | filled f w he hlt hd hf =>
    have hlook : x'.mm.pd.lookup a = _ := hf.lookup a haw
    by_cases hpage : a / pgSize = va / pgSize
    · rw [if_pos hpage] at hlook
      have hnone : x.mm.pd.lookup a = none :=
        (Pgdir.lookup_eq_of_page (hlt.trans userEnd_lt) haw hpage).trans hf.was
      have hdown : pgRoundDown a = pgRoundDown va := by simp only [pgRoundDown,hpage]
      have hzero : x'.phys.mem f = fun _ => 0 := hf.zeroed
      simp [Ctx.reads,hau,hlook,hnone,hdown,hd,hzero]
    · rw [if_neg hpage] at hlook
      exact hother hlook
  | broken pte f he hlt hl hcow hb =>
    have hlook : x'.mm.pd.lookup a = _ := hb.lookup a haw
    by_cases hpage : a / pgSize = va / pgSize
    · rw [if_pos hpage] at hlook
      have hold : x.mm.pd.lookup a = some pte :=
        (Pgdir.lookup_eq_of_page (hlt.trans userEnd_lt) haw hpage).trans hl
      have hcopy : x'.phys.mem f (a % pgSize) = x.phys.mem pte.frame (a % pgSize) :=
        hb.copy _ (Nat.mod_lt _ (by decide))
      simp [Ctx.reads,hau,hlook,hold,hcopy]
    · rw [if_neg hpage] at hlook
      exact hother hlook

def chunk (va n : Nat) : Nat := min (pgSize - (va - pgRoundDown va)) n

theorem chunk_bounds (va : Nat) (hn : n ≠ 0) :
    0 < chunk va n ∧ chunk va n ≤ n ∧ va % pgSize + chunk va n ≤ pgSize ∧
      va - pgRoundDown va = va % pgSize := by
  simp only [chunk,pgRoundDown,pgSize]
  omega

def pin (x : Ctx) (cur : Bool) (va : Nat) (write : Bool) : Ctx × Option Nat :=
  match x.ensureUserPage cur (pgRoundDown va) write with
  | (y,false) => (y,none)
  | (y,true) => (y,y.mm.pd.walkaddr (pgRoundDown va))

theorem copyinLoop_succ (hn : n ≠ 0) : copyinLoop cur (fuel + 1) x srcva n =
      match x.pin cur srcva false with
      | (y,none) => (y,[],false)
      | (y,some f) =>
        let r := copyinLoop cur fuel y ((srcva + chunk srcva n) % word) (n - chunk srcva n)
        (r.1,(List.range (chunk srcva n)).map (fun i => y.phys.mem f (srcva % pgSize + i)) ++ r.2.1,
          r.2.2) := by
  have hoff := (chunk_bounds srcva hn).2.2.2
  simp only [copyinLoop,if_neg hn,pin,chunk,hoff]
  rcases x.ensureUserPage cur (pgRoundDown srcva) false with ⟨y,_ | _⟩
  · rfl
  · rcases hw : y.mm.pd.walkaddr (pgRoundDown srcva) with _ | f <;> simp only [hw]

theorem copyoutLoop_succ (hn : src ≠ []) : copyoutLoop cur (fuel + 1) x dstva src =
      match x.pin cur dstva true with
      | (y,none) => (y,false)
      | (y,some f) => copyoutLoop cur fuel
          { y with phys := y.phys.writeBytes f (dstva % pgSize) (src.take (chunk dstva src.length)) }
          ((dstva + chunk dstva src.length) % word) (src.drop (chunk dstva src.length)) := by
  have hoff := (chunk_bounds dstva (by simpa using hn : src.length ≠ 0)).2.2.2
  simp only [copyoutLoop,if_neg hn,pin,chunk,hoff]
  rcases x.ensureUserPage cur (pgRoundDown dstva) true with ⟨y,_ | _⟩
  · rfl
  · rcases hw : y.mm.pd.walkaddr (pgRoundDown dstva) with _ | f <;> simp only [hw]

theorem Served.of_page (hs : Served x x' X Y (pgRoundDown va)) (hw : va < word) :
    Served x x' X Y va := by
  cases hs with
  | same he => exact .same he
  | filled f w he hlt hd hf =>
    rw [pgRoundDown_of_mod (pgRoundDown_mod va)] at hd
    refine .filled f w he (pgRoundDown_lt_userEnd.mp hlt) hd ⟨hf.ok,?_,?_,hf.keeps,hf.zeroed,
      hf.fresh,hf.refs,hf.sole,hf.spares⟩
    · rw [← hf.was]
      exact (Pgdir.lookup_pgRoundDown _ hw).symm
    · have := hf.lookup
      rwa [pgRoundDown_div] at this
  | broken pte f he hlt hl hcow hb =>
    rw [Pgdir.lookup_pgRoundDown _ hw] at hl
    refine .broken pte f he (pgRoundDown_lt_userEnd.mp hlt) hl hcow ⟨hb.ok,?_,hb.copy,hb.keeps,
      hb.origin,hb.refs,hb.sole,hb.spares⟩
    have := hb.lookup
    rwa [pgRoundDown_div] at this

theorem allows_pgRoundDown (mm : Mm) (hw : va < word) :
    mm.allows (pgRoundDown va) write = mm.allows va write := by
  simp only [Mm.allows,pgRoundDown_lt_userEnd,Pgdir.lookup_pgRoundDown _ hw,
    pgRoundDown_of_mod (pgRoundDown_mod va)]

theorem pin_some {y : Ctx} (h : x.Ok X Y N) (hw : va < word)
    (hp : x.pin cur va write = (y,some f)) :
    Served x y X Y va ∧ va < userEnd ∧ ∃ pte, y.mm.pd.lookup va = some pte ∧ pte.frame = f ∧
      ((x.mm.allows va write = true ∧ (write = true → pte.perm.w = true)) ∨
        (y = x ∧ write = true ∧ pte.perm.w = false ∧ pte.perm.cow = false)) := by
  have hwd := pgRoundDown_lt_word hw
  simp only [pin] at hp
  rcases he : x.ensureUserPage cur (pgRoundDown va) write with ⟨z,_ | _⟩
  · simp [he] at hp
  simp only [he,Prod.mk.injEq] at hp
  obtain ⟨rfl,hwalk⟩ := hp
  obtain ⟨hserved,hcase⟩ := ensureUserPage_true h hwd (pgRoundDown_mod va) he
  rw [Pgdir.walkaddr_eq (hserved.ok h).wf hwd] at hwalk
  split at hwalk
  · rename_i hlt
    obtain ⟨pte,hl,rfl⟩ := Option.map_eq_some_iff.mp hwalk
    refine ⟨hserved.of_page hw,pgRoundDown_lt_userEnd.mp hlt,pte,?_,rfl,?_⟩
    · rw [← hl]
      exact (Pgdir.lookup_pgRoundDown _ hw).symm
    rcases hcase with ⟨hallow,g,-,q,hq,-,hwr⟩ | ⟨rfl,q,hq,hwhy⟩
    · cases hq.symm.trans hl
      rw [allows_pgRoundDown _ hw] at hallow
      exact .inl ⟨hallow,hwr⟩
    · cases hq.symm.trans hl
      exact .inr ⟨rfl,hwhy.resolve_left (by omega)⟩
  · cases hwalk

theorem pin_none {y : Ctx} (h : x.Ok X Y N) (hw : va < word) (hp : x.pin cur va write = (y,none)) :
    NoMemory x y X Y ∨ (y = x ∧ (cur = true → x.mm.allows va write = false)) := by
  have hwd := pgRoundDown_lt_word hw
  simp only [pin] at hp
  rcases he : x.ensureUserPage cur (pgRoundDown va) write with ⟨z,_ | _⟩
  · simp only [he,Prod.mk.injEq,and_true] at hp
    subst hp
    refine (ensureUserPage_false h hwd (pgRoundDown_mod va) he).imp_right fun hx => ⟨hx.1,?_⟩
    rw [← allows_pgRoundDown _ hw]
    exact hx.2.2
  simp only [he,Prod.mk.injEq] at hp
  obtain ⟨rfl,hwalk⟩ := hp
  obtain ⟨hserved,hcase⟩ := ensureUserPage_true h hwd (pgRoundDown_mod va) he
  rw [Pgdir.walkaddr_eq (hserved.ok h).wf hwd] at hwalk
  rcases hcase with ⟨-,g,hlt,q,hq,-⟩ | ⟨rfl,q,hq,-⟩
  · rw [if_pos hlt,hq] at hwalk
    cases hwalk
  refine .inr ⟨rfl,fun _ => ?_⟩
  by_cases hlt : pgRoundDown va < userEnd
  · rw [if_pos hlt,hq] at hwalk
    cases hwalk
  · have : ¬ va < userEnd := fun hc => hlt (pgRoundDown_lt_userEnd.mpr hc)
    simp [Mm.allows,this]

theorem copyinLoop_rule (hok : ∀ y, I y → y.Ok X Y N)
    (hserved : ∀ y z va, I y → Served y z X Y va → I z)
    (hmemory : ∀ y z, I y → NoMemory y z X Y → I z) (hw : srcva < word) (hx : I x) :
    I (copyinLoop cur fuel x srcva n).1 := by
  induction fuel generalizing x srcva n with
  | zero => exact hx
  | succ fuel ih =>
    by_cases hn : n = 0
    · simpa only [copyinLoop,if_pos hn] using hx
    rw [copyinLoop_succ hn]
    rcases hp : x.pin cur srcva false with ⟨y,_ | f⟩
    · rcases pin_none (hok x hx) hw hp with hno | ⟨rfl,-⟩
      · exact hmemory x y hx hno
      · exact hx
    · exact ih (Nat.mod_lt _ (by decide)) (hserved x y _ hx (pin_some (hok x hx) hw hp).1)

theorem copyoutLoop_rule
    (hok : ∀ y, I y → y.Ok X Y N) (hserved : ∀ y z va, I y → Served y z X Y va → I z)
    (hmemory : ∀ y z, I y → NoMemory y z X Y → I z)
    (hwrite : ∀ y mem, I y → I { y with phys := { y.phys with mem := mem } }) (hw : dstva < word)
    (hx : I x) : I (copyoutLoop cur fuel x dstva src).1 := by
  induction fuel generalizing x dstva src with
  | zero => exact hx
  | succ fuel ih =>
    by_cases hn : src = []
    · simpa only [copyoutLoop,if_pos hn] using hx
    rw [copyoutLoop_succ hn]
    rcases hp : x.pin cur dstva true with ⟨y,_ | f⟩
    · rcases pin_none (hok x hx) hw hp with hno | ⟨rfl,-⟩
      · exact hmemory x y hx hno
      · exact hx
    · exact ih (Nat.mod_lt _ (by decide))
        (hwrite y _ (hserved x y _ hx (pin_some (hok x hx) hw hp).1))

theorem copyin_paged (cur : Bool) (n : Nat) (h : x.Ok X Y N) (hw : srcva < word) :
    Paged x (x.copyin cur srcva n).1 X Y N :=
  copyinLoop_rule (I := fun y => Paged x y X Y N) (fun _ hy => hy.ok)
    (fun _ _ _ hy hs => hy.trans (hs.paged hy.ok)) (fun _ _ hy hn => hy.trans (hn.paged hy.ok)) hw
    (.refl h)

theorem copyout_paged (cur : Bool) (src : List UInt8) (h : x.Ok X Y N) (hw : dstva < word) :
    Paged x (x.copyout cur dstva src).1 X Y N :=
  copyoutLoop_rule (I := fun y => Paged x y X Y N) (fun _ hy => hy.ok)
    (fun _ _ _ hy hs => hy.trans (hs.paged hy.ok)) (fun _ _ hy hn => hy.trans (hn.paged hy.ok))
    (fun _ mem hy => hy.setMem mem) hw (.refl h)

end Ctx

end TinyOs
