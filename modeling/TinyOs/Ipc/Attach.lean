import TinyOs.Ipc.Segment

namespace TinyOs

open Count

namespace Space

variable {s s' : Space} {X Y : Nat → Nat} {va : Nat}

theorem uvmmap_present (frame : Nat) (perm : Perm) (ha : va % pgSize = 0) (hw : va < word)
    (hpde : s.pd (pdx va) ≠ none) (hl : s.pd.lookup va = none) :
    ∃ s', s.uvmmap va frame pgSize perm = (s',true) := by
  obtain ⟨pde,hpde⟩ := Option.ne_none_iff_exists'.mp hpde
  rw [uvmmap_page ha hw]
  simp only [mapPage,walk,hpde,hl]
  exact ⟨_,rfl⟩

theorem walkaddr_isSome (h : s.pd.Wf) (hlt : va < userEnd) :
    (s.pd.walkaddr va).isSome = (s.pd.lookup va).isSome := by
  simp only [Pgdir.walkaddr]
  split
  · rename_i hl
    rw [hl]
    rfl
  · rename_i pte hl
    rw [if_pos (h.lookup_user hlt hl),hl]
    rfl

end Space

structure Remapped (s s' : Space) (X Y : Nat → Nat) (inside F : Nat → Prop) : Prop where
  ok : s'.Ok X Y
  other : ∀ a < word, ¬ inside (a / pgSize) → s'.pd.lookup a = s.pd.lookup a
  refs : ∀ g, s'.pd.userRefs g ≤ s.pd.userRefs g ∨ F g
  shrink : ∀ g, 0 < (s'.pd.userRefs + X) g → 0 < (s.pd.userRefs + X) g
  mem : ∀ g, 0 < (s'.pd.userRefs + X) g → s'.phys.mem g = s.phys.mem g
  failed : s.phys.pmm.failed ≤ s'.phys.pmm.failed

variable {s s' t : Space} {X Y : Nat → Nat} {v : Vma} {seg : ShmSeg} {i f : Nat} {b : Bool}

theorem Remapped.trans {P Q F G : Nat → Prop} (h : Remapped s t X Y P F)
    (h' : Remapped t s' X Y Q G) :
    Remapped s s' X Y (fun p => P p ∨ Q p) (fun g => F g ∨ G g) := by
  refine ⟨h'.ok,fun a ha hn => ?_,fun g => ?_,fun g hg => h.shrink g (h'.shrink g hg),
    fun g hg => ?_,h.failed.trans h'.failed⟩
  · rw [h'.other a ha (fun hq => hn (.inr hq)),h.other a ha (fun hp => hn (.inl hp))]
  · rcases h'.refs g with hle | hg
    · exact (h.refs g).imp hle.trans .inl
    · exact .inr (.inr hg)
  · rw [h'.mem g hg,h.mem g (h'.shrink g hg)]

theorem Remapped.weaken {P Q F G : Nat → Prop} (h : Remapped s s' X Y P F)
    (hpq : ∀ p, P p → Q p) (hfg : ∀ g, F g → G g) : Remapped s s' X Y Q G :=
  ⟨h.ok,fun a ha hn => h.other a ha (fun hp => hn (hpq _ hp)),fun g => (h.refs g).imp_right (hfg g),
    h.shrink,h.mem,h.failed⟩

theorem shmMapPage_clear (h : s.Ok X Y) {va : Nat} (hal : va % pgSize = 0) (hlt : va < userEnd) :
    let t := if (s.pd.walkaddr va).isSome then (s.uvmunmap va 1 true).1 else s
    Space.Unmapped s t X Y (· = va / pgSize) := by
  have hw := hlt.trans userEnd_lt
  intro t
  by_cases hs : (s.pd.walkaddr va).isSome = true
  · obtain ⟨u,hu,hspec⟩ := Space.uvmunmap_one h hal hlt
    have ht : t = u := by
      simp only [t,if_pos hs,hu]
    rw [ht]
    exact hspec
  have ht : t = s := if_neg hs
  rw [ht]
  refine .refl h fun a ha he => ?_
  rw [Pgdir.lookup_eq_of_page hw ha he]
  rw [Space.walkaddr_isSome h.wf hlt] at hs
  simpa using hs

theorem shmMapPage_spec (h : s.Ok X Y) (hX : ∀ g, X g ≤ 2 ^ 31) (hv : v.start % pgSize = 0)
    (hlt : v.start + i * pgSize < userEnd) (hf : seg.pages i = some f) (hpos : 0 < X f)
    (hm : shmMapPage v seg i s = (s',b)) :
    Remapped s s' X Y (· = v.start / pgSize + i) (· = f) ∧
      if b then ∀ a < word, a / pgSize = v.start / pgSize + i →
        s'.pd.lookup a = some ⟨f,⟨v.writable,true,false⟩⟩
      else s'.phys.pmm.failed ≠ 0 ∧ s.pd.lookup (v.start + i * pgSize) = none := by
  have hw : v.start + i * pgSize < word := by simp only [userEnd,kernBase,word] at *; omega
  have hal : (v.start + i * pgSize) % pgSize = 0 := by simp only [pgSize] at *; omega
  have hdiv : (v.start + i * pgSize) / pgSize = v.start / pgSize + i :=
    Nat.add_mul_div_right _ _ (by decide)
  have hclear := shmMapPage_clear h hal hlt
  simp only [shmMapPage,Nat.mod_eq_of_lt hw] at hm
  generalize (if (s.pd.walkaddr (v.start + i * pgSize)).isSome then
    (s.uvmunmap (v.start + i * pgSize) 1 true).1 else s) = t at hm hclear
  rw [hdiv] at hclear
  have htnone : t.pd.lookup (v.start + i * pgSize) = none := by
    rw [hclear.lookup _ hw,if_pos hdiv]
  have hspace : Space.Ok ⟨t.phys.getPage f,t.pd⟩ (unit f + X) Y := by
    refine ⟨?_,hclear.ok.wf⟩
    have e : t.pd.userRefs + (unit f + X) = t.pd.userRefs + X + unit f := by abel
    rw [e]
    refine Phys.getPage_ok hclear.ok.phys (by simp only [Pi.add_apply]; omega) ?_
    have h1 := t.pd.userRefs_le f
    have h2 := hX f
    simp only [Pi.add_apply,word]
    omega
  have hsub : ∀ g, 0 < (t.pd.userRefs + X) g → 0 < (s.pd.userRefs + X) g := by
    intro g hg
    have := hclear.refs g
    simp only [Pi.add_apply] at hg ⊢
    omega
  simp only [hf] at hm
  split at hm
  · rename_i u hu
    cases hm
    have hmap := Space.uvmmap_true hspace hal hlt hu
    have hback : ∀ g, 0 < (s'.pd.userRefs + X) g → 0 < (t.pd.userRefs + X) g := by
      intro g hg
      by_cases hgf : g = f
      · subst hgf
        simp only [Pi.add_apply]
        omega
      · simpa [hmap.refs,unit_of_ne hgf] using hg
    refine ⟨⟨hmap.ok,fun a ha hne => ?_,fun g => ?_,fun g hg => hsub g (hback g hg),fun g hg => ?_,
      ?_⟩,?_⟩
    · rw [hmap.lookup a ha,hdiv,if_neg hne,hclear.lookup a ha,if_neg hne]
    · by_cases hgf : g = f
      · exact .inr hgf
      · rw [hmap.refs,Pi.add_apply,unit_of_ne hgf,add_zero]
        exact .inl (hclear.refs g)
    · have hk := hback g hg
      rw [hmap.keeps.mem g (by simp only [Pi.add_apply] at hk ⊢; omega),Phys.getPage_mem,
        hclear.same.mem]
    · have := hmap.keeps.failed
      rwa [Phys.getPage_failed,hclear.same.failed] at this
    · rw [if_pos rfl]
      intro a ha he
      rw [hmap.lookup a ha,hdiv,if_pos he]
  rename_i u hu
  cases hm
  obtain ⟨hwalk,hfail⟩ := Space.uvmmap_false hspace hal hlt hu
  have hfail' := hfail.resolve_right (fun hne => hne htnone)
  rw [Phys.getPage_failed,hclear.same.failed] at hfail'
  refine ⟨⟨⟨?_,hwalk.ok.wf⟩,fun a ha hne => ?_,fun g => ?_,fun g hg => ?_,fun g hg => ?_,
    ?_⟩,?_⟩
  · have hp := hwalk.ok.phys
    have e : u.pd.userRefs + (unit f + X) = u.pd.userRefs + X + unit f := by abel
    rw [e] at hp
    exact Phys.putPage_user hp
  · rw [hwalk.lookup,hclear.lookup a ha,if_neg hne]
  · rw [hwalk.refs]
    exact .inl (hclear.refs g)
  · rw [hwalk.refs] at hg
    exact hsub g hg
  · rw [hwalk.refs] at hg
    rw [Phys.putPage_mem,hwalk.keeps.mem g (by simp only [Pi.add_apply] at hg ⊢; omega),
      Phys.getPage_mem,hclear.same.mem]
  · rw [Phys.putPage_failed]
    exact hfail'.le
  · rw [if_neg (by simp)]
    refine ⟨by simpa using Nat.ne_zero_of_lt hfail',?_⟩
    by_contra hne
    obtain ⟨pte,hpte⟩ := Option.ne_none_iff_exists'.mp hne
    obtain ⟨pde,hpde,-⟩ := Pgdir.pde_of_lookup hpte
    obtain ⟨u',hu'⟩ := Space.uvmmap_present f ⟨v.writable,false,false⟩
      (s := ⟨t.phys.getPage f,t.pd⟩) hal hw (hclear.pde _ (by simp [hpde])) htnone
    rw [hu'] at hu
    cases hu

theorem shmMapRange_spec (h : s.Ok X Y) (hX : ∀ g, X g ≤ 2 ^ 31) (hv : v.start % pgSize = 0)
    (hfit : v.start + seg.npages * pgSize ≤ userEnd)
    (hpages : ∀ i < seg.npages, ∃ f, seg.pages i = some f ∧ 0 < X f) :
    Remapped s (shmMapRange v seg s).1 X Y
        (fun p => v.start / pgSize ≤ p ∧ p < v.start / pgSize + seg.npages)
        (fun g => ∃ i, seg.pages i = some g) ∧
      ((shmMapRange v seg s).2 = true → ∀ i f, seg.pages i = some f → i < seg.npages →
        ∀ a < word, a / pgSize = v.start / pgSize + i →
          (shmMapRange v seg s).1.pd.lookup a = some ⟨f,⟨v.writable,true,false⟩⟩) ∧
      ((shmMapRange v seg s).2 = false → (shmMapRange v seg s).1.phys.pmm.failed ≠ 0 ∧
        ∃ i < seg.npages, s.pd.lookup (v.start + i * pgSize) = none) := by
  have hlt : ∀ i < seg.npages, v.start + i * pgSize < userEnd := by
    intro i hi
    simp only [pgSize] at *
    omega
  have hrange := Loop.forEach_range_rule (shmMapPage v seg) seg.npages (s := s) (I := fun j t =>
      Remapped s t X Y (fun p => v.start / pgSize ≤ p ∧ p < v.start / pgSize + j)
          (fun g => ∃ i, seg.pages i = some g) ∧
        ∀ i f, seg.pages i = some f → i < j → ∀ a < word, a / pgSize = v.start / pgSize + i →
          t.pd.lookup a = some ⟨f,⟨v.writable,true,false⟩⟩)
    (E := fun t =>
      Remapped s t X Y (fun p => v.start / pgSize ≤ p ∧ p < v.start / pgSize + seg.npages)
          (fun g => ∃ i, seg.pages i = some g) ∧
        t.phys.pmm.failed ≠ 0 ∧ ∃ i < seg.npages, s.pd.lookup (v.start + i * pgSize) = none)
    ?_ ?_ ?_
  · change _ ∧ (_ → ∀ i f, _ → _ → ∀ a < word, _ → (shmMapRange v seg s).1.pd.lookup a = _) ∧ _
    rw [shmMapRange]
    rcases hr : (Loop.forEach (shmMapPage v seg) (List.range seg.npages) s).2 with _ | _
    · obtain ⟨h1,h2⟩ := hrange.2 hr
      exact ⟨h1,fun h => by simp at h,fun _ => h2⟩
    · obtain ⟨h1,h2⟩ := hrange.1 hr
      exact ⟨h1,fun _ => h2,fun h => by simp at h⟩
  · rintro j hj t t' ⟨hre,hmap⟩ hb
    obtain ⟨f,hf,hpos⟩ := hpages j hj
    obtain ⟨hstep,hnew⟩ := shmMapPage_spec hre.ok hX hv (hlt j hj) hf hpos hb
    rw [if_pos rfl] at hnew
    refine ⟨(hre.trans hstep).weaken (by omega) (by
      rintro g (hg | rfl)
      · exact hg
      · exact ⟨j,hf⟩),fun i g hg hi a ha he => ?_⟩
    by_cases hij : i = j
    · subst hij
      rw [hf] at hg
      cases hg
      exact hnew a ha he
    · rw [hstep.other a ha (by omega)]
      exact hmap i g hg (by omega) a ha he
  · rintro j hj t t' ⟨hre,hmap⟩ hb
    obtain ⟨f,hf,hpos⟩ := hpages j hj
    obtain ⟨hstep,hnew⟩ := shmMapPage_spec hre.ok hX hv (hlt j hj) hf hpos hb
    rw [if_neg (by simp)] at hnew
    refine ⟨(hre.trans hstep).weaken (by omega) (by
      rintro g (hg | rfl)
      · exact hg
      · exact ⟨j,hf⟩),hnew.1,j,hj,?_⟩
    have hw : v.start + j * pgSize < word := by
      have := hlt j hj
      simp only [userEnd,kernBase,word] at *
      omega
    have hdiv : (v.start + j * pgSize) / pgSize = v.start / pgSize + j :=
      Nat.add_mul_div_right _ _ (by decide)
    rw [← hre.other _ hw (by omega)]
    exact hnew.2
  · exact ⟨⟨h,fun _ _ _ => rfl,fun _ => .inl le_rfl,fun _ => id,fun _ _ => rfl,le_rfl⟩,
      fun i f _ hi => by omega⟩

end TinyOs
