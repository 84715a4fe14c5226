import TinyOs.Mm.Confine

namespace TinyOs

open List
open Function (comp_apply update_of_ne update_self)

namespace Ctx

variable {x y z : Ctx} {X Y N : Nat → Nat} {va d n f fuel a : Nat} {src : List UInt8}
  {write cur : Bool} {mem : Nat → Nat → UInt8} {S : Nat → Prop}

def Within (d n a : Nat) : Prop := d ≤ a ∧ a < d + n ∧ a < userEnd

theorem chunk_rest (d n : Nat) (hd : d < userEnd) :
    d + chunk d n ≤ userEnd ∧ (chunk d n = n ∨ (d + chunk d n) % pgSize = 0) ∧
      ∀ a, d ≤ a → a < d + chunk d n → a / pgSize = d / pgSize := by
  simp only [chunk,pgRoundDown,pgSize,userEnd,kernBase] at *
  refine ⟨by omega,by omega,fun a _ _ => by omega⟩

theorem Within.later (hn : n ≠ 0) (hd : d < userEnd)
    (ha : Within (d + chunk d n) (n - chunk d n) a) : Within d n a ∧ d / pgSize < a / pgSize := by
  obtain ⟨hlo,hhi,hlt⟩ := ha
  obtain ⟨hpos,hle,-,-⟩ := chunk_bounds d hn
  obtain ⟨-,hrest,-⟩ := chunk_rest d n hd
  refine ⟨⟨by omega,by omega,hlt⟩,?_⟩
  simp only [pgSize] at *
  omega

def writeChunk (x : Ctx) (f d : Nat) (src : List UInt8) : Ctx :=
  { x with phys := x.phys.writeBytes f (d % pgSize) (src.take (chunk d src.length)) }

theorem Ok.writeChunk (h : x.Ok X Y N) : (x.writeChunk f d src).Ok X Y N := h.setMem _

theorem copyoutLoop_nil : copyoutLoop cur fuel x d [] = (x,true) := by
  cases fuel with
  | zero => rfl
  | succ fuel => simp only [copyoutLoop,if_true]

theorem copyinLoop_zero : copyinLoop cur fuel x d 0 = (x,[],true) := by
  cases fuel with
  | zero => rfl
  | succ fuel => simp only [copyinLoop,if_true]

structure Pinned (x y : Ctx) (X Y N : Nat → Nat) (d f : Nat) (write : Bool) : Prop where
  ok : y.Ok X Y N
  mm : y.mm = { x.mm with pd := y.mm.pd }
  user : d < userEnd
  here : ∃ pte, y.mm.pd.lookup d = some pte ∧ pte.frame = f ∧ (write = true →
    (x.mm.allows d true = true ∧ pte.perm.w = true) ∨
      (x.mm.pd.lookup d = some pte ∧ pte.perm.w = false ∧ pte.perm.cow = false))
  other : ∀ a < word, a / pgSize ≠ d / pgSize → y.mm.pd.lookup a = x.mm.pd.lookup a
  origin : (∃ pte, x.mm.pd.lookup d = some pte ∧ pte.frame = f) ∨ x.mm.pd.userRefs f = 0
  reads : ∀ a, y.reads a = x.reads a
  spares : x.phys.Spares y.phys

theorem pin_pinned (h : x.Ok X Y N) (hw : d < word) (hp : x.pin cur d write = (y,some f)) :
    Pinned x y X Y N d f write := by
  obtain ⟨hserved,hlt,pte,hl,hf,hwhy⟩ := pin_some h hw hp
  refine ⟨hserved.ok h,(hserved.paged h).mm,hlt,⟨pte,hl,hf,?_⟩,?_,?_,hserved.reads h,hserved.spares⟩
  · rintro rfl
    rcases hwhy with ⟨hallow,hwr⟩ | ⟨rfl,-,hperm⟩
    · exact .inl ⟨hallow,hwr rfl⟩
    · exact .inr ⟨hl,hperm⟩
  · intro a ha hne
    cases hserved with
    | same he => rw [he]
    | filled g w he _ hd hfill => exact (hfill.lookup a ha).trans (if_neg hne)
    | broken q g he _ hq hcow hb => exact (hb.lookup a ha).trans (if_neg hne)
  cases hserved with
  | same he =>
    rw [he] at hl
    exact .inl ⟨pte,hl,hf⟩
  | filled g w he _ hd hfill =>
    have hnew : y.mm.pd.lookup d = some ⟨g,⟨w,true,false⟩⟩ :=
      (hfill.lookup d hw).trans (if_pos rfl)
    cases hl.symm.trans hnew
    subst hf
    exact .inr (Nat.add_eq_zero_iff.mp hfill.fresh).1
  | broken q g he _ hq hcow hb =>
    have hnew : y.mm.pd.lookup d = some ⟨g,⟨true,true,false⟩⟩ :=
      (hb.lookup d hw).trans (if_pos rfl)
    cases hl.symm.trans hnew
    subst hf
    rcases hb.origin with he | h0
    · exact .inl ⟨q,hq,he.symm⟩
    · exact .inr (Nat.add_eq_zero_iff.mp h0).1

theorem pin_refused (h : x.Ok X Y N) (hw : d < word) (hp : x.pin cur d write = (y,none)) :
    (∀ a, y.mm.pd.lookup a = x.mm.pd.lookup a) ∧ (∀ a, y.reads a = x.reads a) ∧
      x.phys.Spares y.phys := by
  rcases pin_none h hw hp with hno | ⟨rfl,-⟩
  · refine ⟨hno.walked.lookup,fun a => ?_,hno.walked.spares⟩
    by_cases hau : a < userEnd
    · refine reads_congr (hno.walked.lookup a) ((hno.paged h).demand _) fun pte hl => ?_
      exact hno.walked.keeps.mem _ (Nat.add_pos_left (Pgdir.userRefs_pos h.wf hau hl) _)
    · simp only [Ctx.reads,if_neg hau]
  · exact ⟨fun _ => rfl,fun _ => rfl,.refl _⟩

theorem copyoutLoop_induct (cur : Bool) {P : Ctx → Nat → List UInt8 → Ctx × Bool → Prop}
    (nil : ∀ x d, x.Ok X Y N → P x d [] (x,true))
    (refused : ∀ x d src y, x.Ok X Y N → d < word → src ≠ [] → x.pin cur d true = (y,none) →
      P x d src (y,false))
    (page : ∀ x d src y f r, x.Ok X Y N → d < word → src ≠ [] → x.pin cur d true = (y,some f) →
      Pinned x y X Y N d f true → P (y.writeChunk f d src) (d + chunk d src.length)
        (src.drop (chunk d src.length)) r → P x d src r)
    (h : x.Ok X Y N) (hd : d < word) (hf : src.length ≤ fuel) :
    P x d src (copyoutLoop cur fuel x d src) := by
  induction fuel generalizing x d src with
  | zero =>
    obtain rfl := length_eq_zero_iff.mp (Nat.le_zero.mp hf)
    exact nil x d h
  | succ fuel ih =>
    by_cases hn : src = []
    · subst hn
      rw [copyoutLoop_nil]
      exact nil x d h
    have hlen : src.length ≠ 0 := by simpa using hn
    rw [copyoutLoop_succ hn]
    rcases hp : x.pin cur d true with ⟨y,_ | f⟩
    · exact refused x d src y h hd hn hp
    have hpin := pin_pinned h hd hp
    have hend : d + chunk d src.length < word :=
      (chunk_rest d src.length hpin.user).1.trans_lt userEnd_lt
    have hpos := (chunk_bounds d hlen).1
    refine page x d src y f _ h hd hn hp hpin ?_
    simp only [Nat.mod_eq_of_lt hend]
    refine ih hpin.ok.writeChunk hend ?_
    rw [length_drop]
    omega

theorem copyinLoop_induct (cur : Bool) {P : Ctx → Nat → Nat → Ctx × List UInt8 × Bool → Prop}
    (zero : ∀ x d, x.Ok X Y N → P x d 0 (x,[],true))
    (refused : ∀ x d n y, x.Ok X Y N → d < word → n ≠ 0 → x.pin cur d false = (y,none) →
      P x d n (y,[],false))
    (page : ∀ x d n y f r, x.Ok X Y N → d < word → n ≠ 0 → x.pin cur d false = (y,some f) →
      Pinned x y X Y N d f false → P y (d + chunk d n) (n - chunk d n) r →
      P x d n (r.1,(List.range (chunk d n)).map (fun i => y.phys.mem f (d % pgSize + i)) ++ r.2.1,
        r.2.2))
    (h : x.Ok X Y N) (hd : d < word) (hf : n ≤ fuel) : P x d n (copyinLoop cur fuel x d n) := by
  induction fuel generalizing x d n with
  | zero =>
    obtain rfl := Nat.le_zero.mp hf
    exact zero x d h
  | succ fuel ih =>
    by_cases hn : n = 0
    · subst hn
      rw [copyinLoop_zero]
      exact zero x d h
    rw [copyinLoop_succ hn]
    rcases hp : x.pin cur d false with ⟨y,_ | f⟩
    · exact refused x d n y h hd hn hp
    have hpin := pin_pinned h hd hp
    have hend : d + chunk d n < word := (chunk_rest d n hpin.user).1.trans_lt userEnd_lt
    have hpos := (chunk_bounds d hn).1
    refine page x d n y f _ h hd hn hp hpin ?_
    simp only [Nat.mod_eq_of_lt hend]
    exact ih hpin.ok hend (by omega)

theorem copyout_within (h : x.Ok X Y N) (hd : d < word) (hs : (x.copyout cur d src).2 = true) :
    src = [] ∨ d + src.length ≤ userEnd := by
  revert hs
  refine copyoutLoop_induct cur (P := fun _ d src r => r.2 = true → src = [] ∨ d + src.length ≤ userEnd)
    (fun _ _ _ _ => .inl rfl) (fun _ _ _ _ _ _ _ _ hs => nomatch hs) ?_ h hd le_rfl
  intro x d src y f r _ _ hn _ hpin ih hs
  have hlen : src.length ≠ 0 := by simpa using hn
  have hend := (chunk_rest d src.length hpin.user).1
  refine .inr ?_
  rcases ih hs with he | hle
  · have := drop_eq_nil_iff.mp he
    omega
  · rw [length_drop] at hle
    omega

theorem copyin_within (h : x.Ok X Y N) (hd : d < word) (hs : (x.copyin cur d n).2.2 = true) :
    n = 0 ∨ d + n ≤ userEnd := by
  revert hs
  refine copyinLoop_induct cur (P := fun _ d n r => r.2.2 = true → n = 0 ∨ d + n ≤ userEnd)
    (fun _ _ _ _ => .inl rfl) (fun _ _ _ _ _ _ _ _ hs => nomatch hs) ?_ h hd le_rfl
  intro x d n y f r _ _ hn _ hpin ih hs
  have hend := (chunk_rest d n hpin.user).1
  refine .inr ?_
  rcases ih hs with he | hle
  · omega
  · omega

theorem Pinned.alone (hp : Pinned x y X Y N d f write) (h : x.Ok X Y N)
    (hx : ∀ p, x.mm.pd.lookup d = some p → ∀ b < userEnd, b / pgSize ≠ d / pgSize →
      ∀ q, x.mm.pd.lookup b = some q → q.frame ≠ p.frame)
    {b : Nat} (hb : b < userEnd) (hne : b / pgSize ≠ d / pgSize) {q : Pte}
    (hq : y.mm.pd.lookup b = some q) : q.frame ≠ f := by
  rw [hp.other b (hb.trans userEnd_lt) hne] at hq
  rcases hp.origin with ⟨p,hl,rfl⟩ | h0
  · exact hx p hl b hb hne q hq
  rintro rfl
  have := Pgdir.userRefs_pos h.wf hb hq
  omega

theorem writeChunk_reads (hlt : d < userEnd) (hn : src ≠ [])
    (hl : ∃ pte, y.mm.pd.lookup d = some pte ∧ pte.frame = f)
    (halone : ∀ b < userEnd, b / pgSize ≠ d / pgSize → ∀ q, y.mm.pd.lookup b = some q → q.frame ≠ f)
    (a : Nat) :
    (y.writeChunk f d src).reads a =
      if d ≤ a ∧ a < d + chunk d src.length then some (src.getD (a - d) 0) else y.reads a := by
  have hlen : src.length ≠ 0 := by simpa using hn
  obtain ⟨hpos,hle,hoff,-⟩ := chunk_bounds d hlen
  obtain ⟨hend,-,hpage⟩ := chunk_rest d src.length hlt
  by_cases hau : a < userEnd
  swap
  · rw [if_neg (by omega)]
    simp only [reads,if_neg hau]
  by_cases hsame : a / pgSize = d / pgSize
  · obtain ⟨pte,hpte,rfl⟩ := hl
    have hla : y.mm.pd.lookup a = some pte := by
      rw [← hpte]
      exact Pgdir.lookup_eq_of_page (hlt.trans userEnd_lt) (hau.trans userEnd_lt) hsame
    have htake : (src.take (chunk d src.length)).length = chunk d src.length := by
      rw [length_take]
      omega
    have hiff : (d % pgSize ≤ a % pgSize ∧ a % pgSize < d % pgSize + chunk d src.length) ↔
        d ≤ a ∧ a < d + chunk d src.length := by
      simp only [pgSize] at *
      omega
    have hsub : d ≤ a → a % pgSize - d % pgSize = a - d := by
      simp only [pgSize] at *
      omega
    simp only [reads,writeChunk,Phys.writeBytes,if_pos hau,hla,update_self,htake,hiff]
    split
    · rename_i hin
      rw [hsub hin.1,getD_eq_getElem?_getD,getD_eq_getElem?_getD,getElem?_take_of_lt (by omega)]
    · rfl
  · rw [if_neg fun hc => hsame (hpage a hc.1 hc.2)]
    refine reads_congr rfl rfl fun q hq => ?_
    exact update_of_ne (halone a hau hsame q hq) _ _

def Alone (x : Ctx) (d n : Nat) : Prop := ∀ a, Within d n a → ∀ p, x.mm.pd.lookup a = some p →
    ∀ b < userEnd, b / pgSize ≠ a / pgSize → ∀ q, x.mm.pd.lookup b = some q → q.frame ≠ p.frame

theorem Alone.rest (h : x.Alone d n) (hok : x.Ok X Y N) (hn : n ≠ 0)
    (hp : Pinned x y X Y N d f write) :
    y.Alone (d + chunk d n) (n - chunk d n) := by
  intro a ha p hpa b hb hne q hq
  obtain ⟨hin,hlater⟩ := ha.later hn hp.user
  have haw := hin.2.2.trans userEnd_lt
  rw [hp.other a haw (by omega)] at hpa
  by_cases hpage : b / pgSize = d / pgSize
  · obtain ⟨r,hr,hrf,-⟩ := hp.here
    have hqf : q.frame = f := by
      have hsame : y.mm.pd.lookup b = y.mm.pd.lookup d :=
        Pgdir.lookup_eq_of_page (hp.user.trans userEnd_lt) (hb.trans userEnd_lt) hpage
      rw [hq,hr] at hsame
      cases hsame
      exact hrf
    rw [hqf]
    rcases hp.origin with ⟨o,ho,rfl⟩ | h0
    · exact h a hin p hpa d hp.user (by omega) o ho
    intro he
    have := Pgdir.userRefs_pos hok.wf hin.2.2 hpa
    rw [← he] at this
    omega
  · rw [hp.other b (hb.trans userEnd_lt) hpage] at hq
    exact h a hin p hpa b hb hne q hq

theorem copyout_reads (h : x.Ok X Y N) (hd : d < word) (halone : x.Alone d src.length)
    (hs : (x.copyout cur d src).2 = true) (a : Nat) :
    (x.copyout cur d src).1.reads a =
      if d ≤ a ∧ a < d + src.length then some (src.getD (a - d) 0) else x.reads a := by
  revert hs a halone
  refine copyoutLoop_induct cur (P := fun x d src r => x.Alone d src.length → r.2 = true → ∀ a,
      r.1.reads a = if d ≤ a ∧ a < d + src.length then some (src.getD (a - d) 0) else x.reads a)
    ?_ (fun _ _ _ _ _ _ _ _ _ hs => nomatch hs) ?_ h hd le_rfl
  · intro x d _ _ _ a
    rw [if_neg (by simp)]
  intro x d src y f r hok hd hn _ hpin ih halone hs a
  have hlen : src.length ≠ 0 := by simpa using hn
  have hle := (chunk_bounds d hlen).2.1
  have hfirst : ∀ p, x.mm.pd.lookup d = some p → ∀ b < userEnd, b / pgSize ≠ d / pgSize →
      ∀ q, x.mm.pd.lookup b = some q → q.frame ≠ p.frame :=
    halone d ⟨le_rfl,by omega,hpin.user⟩
  have hrest : (y.writeChunk f d src).Alone (d + chunk d src.length)
      (src.drop (chunk d src.length)).length := by
    rw [length_drop]
    have := halone.rest hok hlen hpin
    exact this
  obtain ⟨pte,hl,hf,-⟩ := hpin.here
  rw [ih hrest hs a,writeChunk_reads hpin.user hn ⟨pte,hl,hf⟩
    (fun b hb hne q hq => hpin.alone hok hfirst hb hne hq),hpin.reads,length_drop]
  by_cases h1 : d + chunk d src.length ≤ a ∧ a < d + src.length
  · rw [if_pos (by omega),if_pos (by omega),getD_eq_getElem?_getD,getElem?_drop,
      getD_eq_getElem?_getD]
    congr 3
    omega
  · rw [if_neg (by omega)]
    by_cases h2 : d ≤ a ∧ a < d + chunk d src.length
    · rw [if_pos h2,if_pos (by omega)]
    · rw [if_neg h2,if_neg (by omega)]

theorem copyin_reads (h : x.Ok X Y N) (hd : d < word) (hs : (x.copyin cur d n).2.2 = true) :
    (x.copyin cur d n).2.1.map some = (List.range n).map fun i => x.reads (d + i) := by
  revert hs
  refine copyinLoop_induct cur (P := fun x d n r => r.2.2 = true →
      r.2.1.map some = (range n).map fun i => x.reads (d + i))
    (fun _ _ _ _ => rfl) (fun _ _ _ _ _ _ _ _ hs => nomatch hs) ?_ h hd le_rfl
  intro x d n y f r hok hd hn _ hpin ih hs
  obtain ⟨hpos,hle,hoff,-⟩ := chunk_bounds d hn
  obtain ⟨hend,-,hpage⟩ := chunk_rest d n hpin.user
  obtain ⟨pte,hl,hf,-⟩ := hpin.here
  have hsplit : range n =
      range (chunk d n) ++ (range (n - chunk d n)).map (chunk d n + ·) := by
    rw [← range_add]
    congr 1
    omega
  rw [hsplit,map_append,map_append,ih hs,map_map,map_map]
  congr 1
  · refine map_congr_left fun i hi => ?_
    have hi := mem_range.mp hi
    have hla : y.mm.pd.lookup (d + i) = some pte := by
      rw [← hl]
      exact Pgdir.lookup_eq_of_page (by omega) (by have := userEnd_lt; omega)
        (hpage (d + i) (by omega) (by omega))
    have hmod : (d + i) % pgSize = d % pgSize + i := by
      simp only [pgSize] at *
      omega
    rw [← hpin.reads (d + i)]
    simp only [comp_apply,reads,if_pos (show d + i < userEnd by omega),hla,hf,hmod]
  · refine map_congr_left fun i _ => ?_
    rw [hpin.reads,comp_apply,add_assoc]

structure Bounded (x y : Ctx) (d n : Nat) : Prop where
  held : ∀ g, ¬ x.phys.pmm.Free g → ¬ y.phys.pmm.Free g
  mem : ∀ g, ¬ x.phys.pmm.Free g → y.phys.mem g ≠ x.phys.mem g →
    ∃ a, Within d n a ∧ ∃ pte, y.mm.pd.lookup a = some pte ∧ pte.frame = g ∧ (pte.perm.w = true ∨
        (x.mm.pd.lookup a = some pte ∧ pte.perm.w = false ∧ pte.perm.cow = false))
  other : ∀ a < userEnd, (∀ c, Within d n c → c / pgSize ≠ a / pgSize) →
    y.mm.pd.lookup a = x.mm.pd.lookup a
  created : ∀ a < userEnd, x.mm.pd.lookup a = none → y.mm.pd.lookup a ≠ none →
    x.mm.allows a true = true

theorem Bounded.of_spares (hs : x.phys.Spares y.phys)
    (hl : ∀ a, y.mm.pd.lookup a = x.mm.pd.lookup a) : Bounded x y d n where
  held := hs.held
  mem g hg hne := absurd (hs.mem g hg) hne
  other a _ _ := hl a
  created a _ hnone hne := absurd ((hl a).trans hnone) hne

theorem allows_of_page {mm mm' : Mm} (hmm : mm' = { mm with pd := mm'.pd })
    (hpage : pgRoundDown a = pgRoundDown d)
    (hl : mm'.pd.lookup a = mm.pd.lookup d) : mm'.allows a write = mm.allows d write := by
  have hdem : mm'.demand (pgRoundDown a) = mm.demand (pgRoundDown d) := by
    rw [hmm,hpage]
    rfl
  have hlt : a < userEnd ↔ d < userEnd := by
    rw [← pgRoundDown_lt_userEnd,hpage,pgRoundDown_lt_userEnd]
  simp only [Mm.allows,hdem,hlt,hl]

theorem Bounded.page {r : Ctx} (hn : n ≠ 0) (hp : Pinned x y X Y N d f true)
    (hmm : z.mm = y.mm) (hpmm : z.phys.pmm = y.phys.pmm)
    (hmem : ∀ g, g ≠ f → z.phys.mem g = y.phys.mem g)
    (hr : Bounded z r (d + chunk d n) (n - chunk d n)) : Bounded x r d n := by
  have hdin : Within d n d := ⟨le_rfl,by omega,hp.user⟩
  have hdw := hp.user.trans userEnd_lt
  have hlater : ∀ a, Within (d + chunk d n) (n - chunk d n) a → a / pgSize ≠ d / pgSize := by
    intro a ha
    have := (ha.later hn hp.user).2
    omega
  have hkeep : r.mm.pd.lookup d = y.mm.pd.lookup d := by
    rw [hr.other d hp.user hlater,hmm]
  have hold : ∀ g, ¬ x.phys.pmm.Free g → ¬ z.phys.pmm.Free g := fun g hg =>
    hpmm ▸ hp.spares.held g hg
  refine ⟨fun g hg => hr.held g (hold g hg),fun g hg hne => ?_,fun a ha hoff => ?_,
    fun a ha hnone hsome => ?_⟩
  · by_cases hlast : r.phys.mem g = z.phys.mem g
    · have hgf : g = f := by
        by_contra hc
        exact hne (hlast.trans ((hmem g hc).trans (hp.spares.mem g hg)))
      obtain ⟨pte,hl,hf,hwhy⟩ := hp.here
      exact ⟨d,hdin,pte,hkeep.trans hl,hf.trans hgf.symm,(hwhy rfl).imp_left And.right⟩
    · obtain ⟨a,ha,pte,hl,hf,hwhy⟩ := hr.mem g (hold g hg) hlast
      have hin := (ha.later hn hp.user).1
      rw [hmm,hp.other a (hin.2.2.trans userEnd_lt) (hlater a ha)] at hwhy
      exact ⟨a,hin,pte,hl,hf,hwhy⟩
  · rw [hr.other a ha fun c hc => hoff c (hc.later hn hp.user).1,hmm]
    exact hp.other a (ha.trans userEnd_lt) (hoff d hdin).symm
  have haw := ha.trans userEnd_lt
  by_cases hpage : a / pgSize = d / pgSize
  · have hld : x.mm.pd.lookup a = x.mm.pd.lookup d := Pgdir.lookup_eq_of_page hdw haw hpage
    obtain ⟨pte,-,-,hwhy⟩ := hp.here
    rw [hld] at hnone
    have hallow := ((hwhy rfl).resolve_right fun hc => by rw [hnone] at hc; cases hc.1).1
    have hdown : pgRoundDown a = pgRoundDown d := by simp only [pgRoundDown,hpage]
    exact (allows_of_page rfl hdown hld).trans hallow
  have hla : z.mm.pd.lookup a = x.mm.pd.lookup a := by
    rw [hmm]
    exact hp.other a haw hpage
  have hz : z.mm = { x.mm with pd := z.mm.pd } := by
    rw [hmm]
    exact hp.mm
  rw [← allows_of_page hz rfl hla]
  exact hr.created a ha (hla.trans hnone) hsome

theorem copyout_bounded (cur : Bool) (src : List UInt8) (h : x.Ok X Y N) (hd : d < word) :
    Bounded x (x.copyout cur d src).1 d src.length := by
  refine copyoutLoop_induct cur (P := fun x d src r => Bounded x r.1 d src.length)
    (fun x _ _ => .of_spares (.refl _) fun _ => rfl) ?_ ?_ h hd le_rfl
  · intro x d src y hok hd _ hp
    obtain ⟨hl,-,hs⟩ := pin_refused hok hd hp
    exact .of_spares hs hl
  intro x d src y f r _ _ hn _ hpin ih
  have hlen : src.length ≠ 0 := by simpa using hn
  rw [length_drop] at ih
  exact Bounded.page (z := y.writeChunk f d src) hlen hpin rfl rfl
    (fun g hg => update_of_ne hg _ _) ih

theorem copyin_spares (h : x.Ok X Y N) (hd : d < word) :
    x.phys.Spares (x.copyin cur d n).1.phys := by
  refine copyinLoop_induct cur (P := fun x _ _ r => x.phys.Spares r.1.phys)
    (fun _ _ _ => .refl _) (fun _ _ _ _ hok hd _ hp => (pin_refused hok hd hp).2.2) ?_ h hd le_rfl
  intro x d n y f r _ _ _ _ hpin ih
  exact hpin.spares.trans ih

def Agree (x : Ctx) (mem : Nat → Nat → UInt8) (S : Nat → Prop) : Prop :=
  ∀ a, S a → (x.setMem mem).reads a = x.reads a

theorem Agree.pin {o : Option Nat} (ha : x.Agree mem S)
    (h : x.Ok X Y N) (hw : d < word) (hp : x.pin cur d write = (y,o)) :
    ∃ mem', (x.setMem mem).pin cur d write = (y.setMem mem',o) ∧ y.Agree mem' S := by
  obtain ⟨mem',hm⟩ := pin_setMem cur write h mem hw
  rw [hp] at hm
  refine ⟨mem',hm,fun a has => ?_⟩
  cases o with
  | none =>
    rw [(pin_refused h hw hp).2.1 a,(pin_refused (h.setMem mem) hw hm).2.1 a]
    exact ha a has
  | some f =>
    rw [(pin_pinned h hw hp).reads a,(pin_pinned (h.setMem mem) hw hm).reads a]
    exact ha a has

theorem Agree.writeChunk (ha : y.Agree mem S) (f d : Nat) (src : List UInt8) :
    ∃ mem', (y.setMem mem).writeChunk f d src = (y.writeChunk f d src).setMem mem' ∧
      (y.writeChunk f d src).Agree mem' S := by
  refine ⟨_,rfl,fun a has => ?_⟩
  have hold := ha a has
  simp only [reads,setMem,Phys.setMem,Ctx.writeChunk,Phys.writeBytes] at hold ⊢
  split
  · rename_i hau
    rw [if_pos hau,if_pos hau] at hold
    rcases hl : y.mm.pd.lookup a with _ | pte
    · rfl
    simp only [hl,Option.some.injEq] at hold ⊢
    by_cases hf : pte.frame = f
    · subst hf
      simp only [update_self,hold]
    · simp only [update_of_ne hf,hold]
  · rfl

theorem copyout_agree (cur : Bool) (src : List UInt8) (h : x.Ok X Y N) (hd : d < word)
    (ha : x.Agree mem S) : ∃ mem', (x.setMem mem).copyout cur d src =
        ((x.copyout cur d src).1.setMem mem',(x.copyout cur d src).2) ∧
      (x.copyout cur d src).1.Agree mem' S := by
  refine copyoutLoop_induct cur (P := fun x d src r => ∀ mem fuel, src.length ≤ fuel →
      x.Agree mem S → ∃ mem', copyoutLoop cur fuel (x.setMem mem) d src = (r.1.setMem mem',r.2) ∧
        r.1.Agree mem' S) ?_ ?_ ?_ h hd le_rfl mem src.length le_rfl ha
  · intro x d _ mem fuel _ ha
    exact ⟨mem,copyoutLoop_nil,ha⟩
  · intro x d src y hok hd hn hp mem fuel hfuel ha
    obtain ⟨mem',hm,ha'⟩ := ha.pin hok hd hp
    obtain ⟨fuel,rfl⟩ : ∃ k, fuel = k + 1 :=
      Nat.exists_eq_succ_of_ne_zero fun h0 => hn (by simpa [h0] using hfuel)
    rw [copyoutLoop_succ hn,hm]
    exact ⟨mem',rfl,ha'⟩
  intro x d src y f r hok hd hn hp hpin ih mem fuel hfuel ha
  obtain ⟨mem₁,hm,ha₁⟩ := ha.pin hok hd hp
  obtain ⟨mem₂,hw,ha₂⟩ := ha₁.writeChunk f d src
  obtain ⟨fuel,rfl⟩ : ∃ k, fuel = k + 1 :=
    Nat.exists_eq_succ_of_ne_zero fun h0 => hn (by simpa [h0] using hfuel)
  have hlen : src.length ≠ 0 := by simpa using hn
  have hpos := (chunk_bounds d hlen).1
  have hend := (chunk_rest d src.length hpin.user).1.trans_lt userEnd_lt
  obtain ⟨mem₃,hrun,ha₃⟩ := ih mem₂ fuel (by rw [length_drop]; omega) ha₂
  refine ⟨mem₃,?_,ha₃⟩
  rw [copyoutLoop_succ hn,hm,← hrun,← hw]
  simp only [Nat.mod_eq_of_lt hend]
  rfl

theorem copyin_agree (cur : Bool) (h : x.Ok X Y N) (hd : d < word)
    (ha : x.Agree mem (Within d n)) : ∃ mem', (x.setMem mem).copyin cur d n =
      ((x.copyin cur d n).1.setMem mem',(x.copyin cur d n).2) := by
  refine copyinLoop_induct cur (P := fun x d n r => ∀ mem fuel, n ≤ fuel →
      x.Agree mem (Within d n) → ∃ mem', copyinLoop cur fuel (x.setMem mem) d n = (r.1.setMem mem',r.2))
    ?_ ?_ ?_ h hd le_rfl mem n le_rfl ha
  · intro x d _ mem fuel _ _
    exact ⟨mem,copyinLoop_zero⟩
  · intro x d n y hok hd hn hp mem fuel hfuel ha
    obtain ⟨mem',hm,-⟩ := ha.pin hok hd hp
    obtain ⟨fuel,rfl⟩ := Nat.exists_eq_succ_of_ne_zero (show fuel ≠ 0 by omega)
    rw [copyinLoop_succ hn,hm]
    exact ⟨mem',rfl⟩
  intro x d n y f r hok hd hn hp hpin ih mem fuel hfuel ha
  obtain ⟨mem₁,hm,ha₁⟩ := ha.pin hok hd hp
  obtain ⟨fuel,rfl⟩ := Nat.exists_eq_succ_of_ne_zero (show fuel ≠ 0 by omega)
  obtain ⟨hpos,hle,hoff,-⟩ := chunk_bounds d hn
  obtain ⟨hend,-,hpage⟩ := chunk_rest d n hpin.user
  have hrest : y.Agree mem₁ (Within (d + chunk d n) (n - chunk d n)) := fun a ha =>
    ha₁ a (ha.later hn hpin.user).1
  obtain ⟨mem₂,hrun⟩ := ih mem₁ fuel (by omega) hrest
  refine ⟨mem₂,?_⟩
  rw [copyinLoop_succ hn,hm]
  simp only [Nat.mod_eq_of_lt (hend.trans_lt userEnd_lt),hrun]
  congr 3
  refine map_congr_left fun i hi => ?_
  have hi := mem_range.mp hi
  obtain ⟨pte,hl,hf,-⟩ := hpin.here
  have hau : d + i < userEnd := by omega
  have hla : y.mm.pd.lookup (d + i) = some pte := by
    rw [← hl]
    exact Pgdir.lookup_eq_of_page hd (hau.trans userEnd_lt) (hpage (d + i) (by omega) (by omega))
  have hmod : (d + i) % pgSize = d % pgSize + i := by
    simp only [pgSize] at *
    omega
  have hsame := ha₁ (d + i) ⟨by omega,by omega,hau⟩
  simpa [reads,setMem,Phys.setMem,hau,hla,hf,hmod] using hsame

end Ctx

end TinyOs
