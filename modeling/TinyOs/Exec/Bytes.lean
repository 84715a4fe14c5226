import TinyOs.Image

namespace TinyOs

open List Option

namespace Pgdir

variable {pd : Pgdir} {a b f : Nat} {p q : Pte}

theorem two_le_userRefs (h : pd.Wf) (ha : a < userEnd) (hb : b < userEnd)
    (hab : a / pgSize ≠ b / pgSize) (hp : pd.lookup a = some p) (hq : pd.lookup b = some q)
    (hpq : p.frame = q.frame) : 2 ≤ pd.userRefs p.frame := by
  obtain ⟨pde,hpde,-⟩ := pde_of_lookup hp
  have hne : pd (pdx a) ≠ none := by
    rw [hpde]
    exact some_ne_none _
  have hrefs := congrFun (userRefs_setPte (e := none) h ha hne) p.frame
  have hrest : (pd.setPte a none).lookup b = some q := by
    rw [lookup_setPte hne (ha.trans userEnd_lt) (hb.trans userEnd_lt),if_neg (Ne.symm hab)]
    exact hq
  have hwf : (pd.setPte a none).Wf := h.setPte ha fun _ he => nomatch he
  have hpos := userRefs_pos hwf hb hrest
  rw [hp] at hrefs
  simp only [Pi.add_apply,pteRefs,Count.unit_self,Pi.zero_apply] at hrefs
  rw [← hpq] at hpos
  omega

end Pgdir

namespace Space

variable {s s' s'' t u : Space} {X Y : Nat → Nat} {P Q : Nat → Prop} {a va i f : Nat} {w : Bool}
  {data : Nat → Option UInt8} {src : List UInt8}

def byte (s : Space) (a : Nat) : Option UInt8 :=
  (s.pd.lookup a).map fun pte => s.phys.mem pte.frame (a % pgSize)

def writable (s : Space) (a : Nat) : Option Bool := (s.pd.lookup a).map fun pte => pte.perm.w

theorem Sole.page_eq (hs : s.Sole X) (hwf : s.pd.Wf) {b : Nat} {p q : Pte} (ha : a < userEnd)
    (hb : b < userEnd) (hp : s.pd.lookup a = some p) (hq : s.pd.lookup b = some q)
    (hpq : p.frame = q.frame) : a / pgSize = b / pgSize := by
  by_contra hab
  have htwo := Pgdir.two_le_userRefs hwf ha hb hab hp hq hpq
  have hone := (hs a ha p hp).1
  rw [Pi.add_apply] at hone
  omega

structure Laid (s s' : Space) (P : Nat → Prop) (data : Nat → Option UInt8) (w : Bool) : Prop where
  bytes : ∀ a < userEnd, P (a / pgSize) → s'.byte a = some ((data a).getD ((s.byte a).getD 0))
  perms : ∀ a < userEnd, P (a / pgSize) → s'.writable a = some ((s.writable a).getD w)
  other : ∀ a < userEnd, ¬ P (a / pgSize) → s'.byte a = s.byte a ∧ s'.writable a = s.writable a

namespace Laid

theorem refl (data : Nat → Option UInt8) (w : Bool) : Laid s s (fun _ => False) data w :=
  ⟨fun _ _ => False.elim,fun _ _ => False.elim,fun _ _ _ => ⟨rfl,rfl⟩⟩

theorem trans (h : Laid s t P data w) (h' : Laid t u Q data w) :
    Laid s u (fun p => P p ∨ Q p) data w := by
  refine ⟨fun a ha hpq => ?_,fun a ha hpq => ?_,fun a ha hpq => ?_⟩
  · by_cases hq : Q (a / pgSize)
    · rw [h'.bytes a ha hq]
      by_cases hp : P (a / pgSize)
      · rw [h.bytes a ha hp]
        cases data a <;> rfl
      · rw [(h.other a ha hp).1]
    · rw [(h'.other a ha hq).1,h.bytes a ha (hpq.resolve_right hq)]
  · by_cases hq : Q (a / pgSize)
    · rw [h'.perms a ha hq]
      by_cases hp : P (a / pgSize)
      · rw [h.perms a ha hp]
        rfl
      · rw [(h.other a ha hp).2]
    · rw [(h'.other a ha hq).2,h.perms a ha (hpq.resolve_right hq)]
  · obtain ⟨hp,hq⟩ := not_or.mp hpq
    rw [(h'.other a ha hq).1,(h'.other a ha hq).2]
    exact h.other a ha hp

theorem congr (h : Laid s t P data w) (hpq : ∀ p, P p ↔ Q p) : Laid s t Q data w :=
  ⟨fun a ha hq => h.bytes a ha ((hpq _).mpr hq),fun a ha hq => h.perms a ha ((hpq _).mpr hq),
    fun a ha hq => h.other a ha fun hp => hq ((hpq _).mp hp)⟩

theorem of_filled (h : s.Ok X Y) (hf : Filled s s' X Y va f w) :
    Laid s s' (· = va / pgSize) (fun _ => none) w := by
  have hnone : ∀ a < userEnd, a / pgSize = va / pgSize → s.pd.lookup a = none := by
    intro a ha hpage
    by_cases hva : va < word
    · rw [Pgdir.lookup_eq_of_page hva (ha.trans userEnd_lt) hpage]
      exact hf.was
    · simp only [pgSize,word,userEnd,kernBase] at *
      omega
  refine ⟨fun a ha hpage => ?_,fun a ha hpage => ?_,fun a ha hpage => ?_⟩
  · rw [byte,hf.lookup a (ha.trans userEnd_lt),if_pos hpage,byte,hnone a ha hpage]
    exact congrArg some (congrFun hf.zeroed _)
  · rw [writable,hf.lookup a (ha.trans userEnd_lt),if_pos hpage,writable,hnone a ha hpage]
    rfl
  rw [byte,writable,hf.lookup a (ha.trans userEnd_lt),if_neg hpage]
  refine ⟨?_,rfl⟩
  rw [byte]
  cases hl : s.pd.lookup a with
  | none => rfl
  | some pte =>
    have hpos := Nat.add_pos_left (Pgdir.userRefs_pos h.wf ha hl) (X pte.frame)
    exact congrArg some (congrFun (hf.keeps.mem pte.frame hpos) _)

theorem of_present {pte : Pte} (hl : s.pd.lookup i = some pte) (hi : i < userEnd) :
    Laid s s (· = i / pgSize) (fun _ => none) w := by
  have hthere : ∀ a < userEnd, a / pgSize = i / pgSize → s.pd.lookup a = some pte := by
    intro a ha hpage
    rw [Pgdir.lookup_eq_of_page (hi.trans userEnd_lt) (ha.trans userEnd_lt) hpage]
    exact hl
  refine ⟨fun a ha hpage => ?_,fun a ha hpage => ?_,fun _ _ _ => ⟨rfl,rfl⟩⟩
  · rw [byte,hthere a ha hpage]
    rfl
  · rw [writable,hthere a ha hpage]
    rfl

theorem write (h : Laid s t (· = i / pgSize) (fun _ => none) w) (hs : t.Sole X) (hwf : t.pd.Wf)
    {pte : Pte} (hl : t.pd.lookup i = some pte) (hi : i < userEnd) {off : Nat} {bs : List UInt8}
    (hdata : ∀ a, a / pgSize = i / pgSize → data a =
      if off ≤ a % pgSize ∧ a % pgSize < off + bs.length then some (bs.getD (a % pgSize - off) 0)
      else none) :
    Laid s { t with phys := t.phys.writeBytes pte.frame off bs } (· = i / pgSize) data w := by
  have hthere : ∀ a < userEnd, a / pgSize = i / pgSize → t.pd.lookup a = some pte := by
    intro a ha hpage
    rw [Pgdir.lookup_eq_of_page (hi.trans userEnd_lt) (ha.trans userEnd_lt) hpage]
    exact hl
  refine ⟨fun a ha hpage => ?_,h.perms,fun a ha hpage => ⟨?_,(h.other a ha hpage).2⟩⟩
  · have hold := h.bytes a ha hpage
    rw [byte,hthere a ha hpage] at hold
    rw [byte,hthere a ha hpage,hdata a hpage]
    simp only [Phys.writeBytes,Function.update_self,map_some]
    split
    · rfl
    · exact hold
  · rw [← (h.other a ha hpage).1,byte,byte]
    cases hla : t.pd.lookup a with
    | none => rfl
    | some q =>
      have hne : q.frame ≠ pte.frame := fun he => hpage (hs.page_eq hwf ha hi hla hl he)
      simp only [Phys.writeBytes,map_some,Function.update_of_ne hne]

end Laid

end Space

open Space

variable {s s' : Space} {X Y : Nat → Nat} {va filesz memsz i : Nat} {src : List UInt8} {w : Bool}

def segData (va filesz : Nat) (src : List UInt8) (a : Nat) : Option UInt8 :=
  if va ≤ a ∧ a < va + filesz then some (src.getD (a - va) 0) else none

theorem segData_none {a : Nat} (h : ¬ (va ≤ a ∧ a < va + filesz)) : segData va filesz src a = none :=
  if_neg h

theorem loaduvmSegPage_laid (h : s.Ok X Y) (hs : s.Sole X) (ha : i % pgSize = 0)
    (hlt : i < userEnd) (hsrc : filesz ≤ src.length)
    (he : loaduvmSegPage va filesz src w i s = (s',true)) :
    Laid s s' (· = i / pgSize) (segData va filesz src) w := by
  have hrange : ∀ a, a / pgSize = i / pgSize ↔ i ≤ a ∧ a < i + pgSize := by
    intro a
    simp only [pgSize] at *
    omega
  have hcopy : ∀ (t : Space) (pte : Pte), Laid s t (· = i / pgSize) (fun _ => none) w →
      t.Sole X → t.pd.Wf → t.pd.lookup i = some pte →
      (if max va i < min (va + filesz) (i + pgSize) then
        (({ t with
            phys := t.phys.writeBytes pte.frame (max va i - i)
              ((src.drop (max va i - va)).take (min (va + filesz) (i + pgSize) - max va i)) } : Space),
          true)
        else (t,true)) = (s',true) → Laid s s' (· = i / pgSize) (segData va filesz src) w := by
    intro t pte ht hts hwf hl hr
    split at hr
    · rename_i hcut
      cases hr
      refine ht.write hts hwf hl hlt fun a hpage => ?_
      have hin := (hrange a).mp hpage
      have hlen : ((src.drop (max va i - va)).take
          (min (va + filesz) (i + pgSize) - max va i)).length =
            min (va + filesz) (i + pgSize) - max va i := by
        rw [length_take,length_drop]
        omega
      have hmod : a % pgSize = a - i := by
        simp only [pgSize] at *
        omega
      rw [segData,hlen,hmod]
      by_cases hd : va ≤ a ∧ a < va + filesz
      · rw [if_pos hd,if_pos (by omega),getD_eq_getElem?_getD,getD_eq_getElem?_getD,
          getElem?_take_of_lt (by omega),getElem?_drop]
        have hidx : max va i - va + (a - i - (max va i - i)) = a - va := by omega
        rw [hidx]
      · rw [if_neg hd,if_neg (by omega)]
    · rename_i hcut
      cases hr
      have hnone : ∀ a, a / pgSize = i / pgSize → segData va filesz src a = none := by
        intro a hpage
        have hin := (hrange a).mp hpage
        exact segData_none (by omega)
      refine ⟨fun a hau hpage => ?_,ht.perms,ht.other⟩
      rw [hnone a hpage]
      exact ht.bytes a hau hpage
  simp only [loaduvmSegPage] at he
  rcases hl : s.pd.walkaddr i with _ | f
  · rw [hl] at he
    rcases hm : s.mapNewPage i w with ⟨t,_ | f⟩
    · rw [hm] at he
      cases he
    rw [hm] at he
    have hf := mapNewPage_some h ha hlt hm
    have hload : Loaded s t X Y (· = i / pgSize) := .of_filled hs hf
    exact hcopy t _ (.of_filled h hf) hload.sole hload.ok.wf (hf.self hlt) he
  · rw [hl] at he
    rw [Pgdir.walkaddr_eq h.wf (hlt.trans userEnd_lt),if_pos hlt] at hl
    obtain ⟨pte,hpte,rfl⟩ := map_eq_some_iff.mp hl
    exact hcopy s pte (.of_present hpte hlt) hs h.wf hpte he

theorem loaduvmSeg_laid (h : s.Ok X Y) (hs : s.Sole X) (hend : va + memsz ≤ userEnd)
    (hpos : memsz ≠ 0) (hsrc : filesz ≤ src.length)
    (he : loaduvmSeg va src filesz memsz w s = (s',true)) :
    Laid s s' (fun p => va / pgSize ≤ p ∧ p * pgSize < va + memsz) (segData va filesz src) w := by
  have hmod : (va + memsz) % word = va + memsz := Nat.mod_eq_of_lt (hend.trans_lt userEnd_lt)
  simp only [loaduvmSeg,hmod,if_neg hpos] at he
  split at he
  · cases he
  split at he
  · cases he
  have hpage : ∀ a ∈ pageRange (pgRoundDown va) (va + memsz), a % pgSize = 0 ∧ a < userEnd := by
    intro a ha
    obtain ⟨j,rfl,hlt⟩ := mem_pageRange.mp ha
    have := pgRoundDown_mod va
    simp only [pgSize] at *
    omega
  have hloop := Loop.forEach_rule (loaduvmSegPage va filesz src w)
    (pageRange (pgRoundDown va) (va + memsz)) (s := s)
    (I := fun done t => Loaded s t X Y (fun _ => True) ∧
      Laid s t (fun p => ∃ a ∈ done, p = a / pgSize) (segData va filesz src) w)
    (E := fun _ => True) ?_ (fun _ _ _ _ _ _ _ _ => trivial) ?_
  · rw [he] at hloop
    refine (hloop.1 rfl).2.congr fun p => ?_
    simp only [mem_pageRange]
    constructor
    · rintro ⟨a,⟨j,rfl,hlt⟩,rfl⟩
      simp only [pgRoundDown,pgSize] at *
      omega
    rintro ⟨hlo,hhi⟩
    refine ⟨p * pgSize,⟨p - va / pgSize,?_,hhi⟩,?_⟩
    · simp only [pgRoundDown,pgSize] at *
      omega
    · exact (Nat.mul_div_cancel p (by decide)).symm
  · rintro done a rest t t' hsplit ⟨hload,hlaid⟩ hbody
    obtain ⟨hal,hlt⟩ := hpage a (by rw [hsplit]; simp)
    have hnext : Loaded t (loaduvmSegPage va filesz src w a t).1 X Y (· = a / pgSize) :=
      loaduvmSegPage_loaded hload.ok hload.sole hal hlt
    rw [hbody] at hnext
    refine ⟨hload.trans (hnext.mono fun _ _ => trivial),?_⟩
    have hone := loaduvmSegPage_laid hload.ok hload.sole hal hlt hsrc hbody
    refine (hlaid.trans hone).congr fun p => ?_
    simp only [mem_append,mem_singleton]
    constructor
    · rintro (⟨b,hb,rfl⟩ | rfl)
      · exact ⟨b,.inl hb,rfl⟩
      · exact ⟨a,.inr rfl,rfl⟩
    · rintro ⟨b,hb | rfl,rfl⟩
      · exact .inl ⟨b,hb,rfl⟩
      · exact .inr rfl
  · exact ⟨.refl h hs,(Laid.refl _ _).congr fun p => by simp⟩

end TinyOs
