import TinyOs.Mm.Pmm

namespace TinyOs.Buddy

open Function (update update_of_ne update_self)
open Dyadic Count List

structure Acct (s : Pmm) (U K : Nat → Nat) : Prop where
  wf : s.Wf
  live : ∀ f, 0 < U f + K f → (⟨f,0⟩ : Block) ∈ s.live
  count : ∀ f, (⟨f,0⟩ : Block) ∈ s.live → s.refcount f = U f + K f ∧ 0 < U f + K f
  kind : ∀ f, (⟨f,0⟩ : Block) ∈ s.live → if s.user f then K f = 0 else U f = 0
  history : ∀ f, s.user f = true →
    (⟨f,0⟩ : Block) ∈ s.live ∨ (s.Free f ∧ s.refcount f = 0)

namespace Acct

variable {s s' : Pmm} {U K V L : Nat → Nat} {f g order : Nat}

theorem zero_of_free (h : Acct s U K) (hf : s.Free f) : U f = 0 ∧ K f = 0 := by
  by_contra hne
  have hlive := h.live f (by omega)
  exact h.wf.not_free_of_live hlive (Block.covers_start _) hf

theorem user_eq (h : Acct s U K) (hf : 0 < U f) : s.user f = true ∧ K f = 0 := by
  have hk := h.kind f (h.live f (by omega))
  by_cases hu : s.user f = true
  · rw [if_pos hu] at hk
    exact ⟨hu,hk⟩
  · rw [if_neg hu] at hk
    omega

theorem refcount_eq (h : Acct s U K) (hu : s.user f = true) :
    s.refcount f = U f ∧ (s.Free f ↔ U f = 0) := by
  rcases h.history f hu with hl | ⟨hfree,hr⟩
  · have hk := h.kind f hl
    rw [if_pos hu] at hk
    obtain ⟨hc,hpos⟩ := h.count f hl
    refine ⟨by omega,fun hf => absurd hf ?_,fun h0 => by omega⟩
    exact h.wf.not_free_of_live hl (Block.covers_start _)
  · have h0 := h.zero_of_free hfree
    exact ⟨hr.trans h0.1.symm,fun _ => h0.1,fun _ => hfree⟩

theorem covers_zero {f : Nat} : (Block.mk f 0).Covers g ↔ g = f := by
  simp only [Block.Covers,pow_zero]
  omega

theorem free_of_taken (h : Acct s U K) (ht : Taken s s' f order)
    (hg : s.Free g) (hn : ¬ (Block.mk f order).Covers g) : s'.Free g := by
  have hlt : g < s'.nrPages := ht.nrPages ▸ h.wf.free_lt hg
  rcases ht.wf.free_or_live hlt with hfree | ⟨b,hb,hbg⟩
  · exact hfree
  rw [ht.live,mem_cons] at hb
  rcases hb with rfl | hb
  · exact absurd hbg hn
  · exact absurd hg (h.wf.not_free_of_live hb hbg)

theorem history_taken (h : Acct s U K) (ht : Taken s s' f order) (hg : s'.user g = true) :
    (⟨g,0⟩ : Block) ∈ s'.live ∨ (s'.Free g ∧ s'.refcount g = 0) := by
  rw [ht.user] at hg
  by_cases hc : (Block.mk f order).Covers g
  · simp [hc] at hg
  simp only [if_neg hc] at hg
  have hne : g ≠ f := fun he => hc (he ▸ Block.covers_start ⟨f,order⟩)
  rcases h.history g hg with hl | ⟨hfree,hr⟩
  · exact .inl (ht.live ▸ mem_cons_of_mem _ hl)
  · refine .inr ⟨h.free_of_taken ht hfree hc,?_⟩
    rw [ht.refcount,update_of_ne hne,hr]

theorem alloc (h : Acct s U K) (ht : Taken s s' f 0) :
    Acct s' U (K + unit f) ∧ U f = 0 ∧ K f = 0 := by
  have h0 := h.zero_of_free (ht.wasFree f (covers_zero.mpr rfl))
  have hne : ∀ g, (⟨g,0⟩ : Block) ∈ s.live → g ≠ f := by
    rintro g hg rfl
    exact h.wf.not_free_of_live hg (Block.covers_start _) (ht.wasFree g (covers_zero.mpr rfl))
  have hmem : ∀ g, (⟨g,0⟩ : Block) ∈ s'.live ↔ g = f ∨ (⟨g,0⟩ : Block) ∈ s.live := by
    intro g
    simp [ht.live]
  refine ⟨⟨ht.wf,?_,?_,?_,fun g hg => h.history_taken ht hg⟩,h0⟩
  · intro g hg
    rw [hmem]
    by_cases hgf : g = f
    · exact .inl hgf
    · simp only [Pi.add_apply,unit_of_ne hgf,add_zero] at hg
      exact .inr (h.live g hg)
  · intro g hg
    rcases (hmem g).mp hg with rfl | hl
    · simp only [ht.refcount,update_self,Pi.add_apply,unit_self]
      omega
    · simpa [ht.refcount,update_of_ne (hne g hl),unit_of_ne (hne g hl)] using h.count g hl
  · intro g hg
    rcases (hmem g).mp hg with rfl | hl
    · simp [ht.user,covers_zero,h0]
    · simpa [ht.user,covers_zero,hne g hl,unit_of_ne (hne g hl)] using h.kind g hl

theorem alloc_block (h : Acct s U K) (ht : Taken s s' f order) (ho : 0 < order) : Acct s' U K := by
  have hmem : ∀ g, (⟨g,0⟩ : Block) ∈ s'.live ↔ (⟨g,0⟩ : Block) ∈ s.live := by
    intro g
    simp only [ht.live,mem_cons,Block.mk.injEq,or_iff_right_iff_imp]
    omega
  have hnot : ∀ g, (⟨g,0⟩ : Block) ∈ s.live → ¬ (Block.mk f order).Covers g := fun g hg hc =>
    h.wf.not_free_of_live hg (Block.covers_start _) (ht.wasFree g hc)
  have hne : ∀ g, (⟨g,0⟩ : Block) ∈ s.live → g ≠ f := fun g hg he =>
    hnot g hg (he ▸ Block.covers_start ⟨f,order⟩)
  refine ⟨ht.wf,fun g hg => (hmem g).mpr (h.live g hg),?_,?_,fun g hg => h.history_taken ht hg⟩
  · intro g hg
    have hl := (hmem g).mp hg
    rw [ht.refcount,update_of_ne (hne g hl)]
    exact h.count g hl
  · intro g hg
    have hl := (hmem g).mp hg
    simpa [ht.user,hnot g hl] using h.kind g hl

theorem toUser (h : Acct s U (K + unit f)) (hU : U f = 0) (hK : K f = 0) :
    Acct { s with user := update s.user f true } (U + unit f) K := by
  refine ⟨h.wf.setHistory s.refcount (update s.user f true) s.failed,?_,?_,?_,?_⟩
  · intro g hg
    exact h.live g (by simp only [Pi.add_apply] at hg ⊢; omega)
  · intro g hg
    obtain ⟨hc,hp⟩ := h.count g hg
    simp only [Pi.add_apply] at hc hp ⊢
    omega
  · intro g hg
    by_cases hgf : g = f
    · subst hgf
      simpa using hK
    · have hk := h.kind g hg
      simpa [update_of_ne hgf,unit_of_ne hgf] using hk
  · intro g hg
    by_cases hgf : g = f
    · subst hgf
      exact .inl (h.live g (by simp))
    · simp only [update_of_ne hgf] at hg
      exact h.history g hg

theorem get (h : Acct s U K) (hf : 0 < U f) (hw : U f + 1 < word) :
    getPage s f = some { s with refcount := update s.refcount f (s.refcount f + 1) } ∧
      Acct { s with refcount := update s.refcount f (s.refcount f + 1) } (U + unit f) K := by
  have hl := h.live f (by omega)
  obtain ⟨hu,hk0⟩ := h.user_eq hf
  have hc := (h.count f hl).1
  have hmod : (s.refcount f + 1) % word = s.refcount f + 1 := Nat.mod_eq_of_lt (by omega)
  refine ⟨by rw [getPage_some h.wf hl,hmod],?_⟩
  refine ⟨h.wf.setHistory _ s.user s.failed,?_,?_,?_,?_⟩
  · intro g hg
    by_cases hgf : g = f
    · subst hgf
      exact hl
    · exact h.live g (by simpa [unit_of_ne hgf] using hg)
  · intro g hg
    by_cases hgf : g = f
    · subst hgf
      simp only [update_self,Pi.add_apply,unit_self]
      omega
    · simpa [update_of_ne hgf,unit_of_ne hgf] using h.count g hg
  · intro g hg
    by_cases hgf : g = f
    · subst hgf
      simpa [hu] using hk0
    · simpa [unit_of_ne hgf] using h.kind g hg
  · intro g hg
    by_cases hgf : g = f
    · subst hgf
      exact .inl hl
    · refine (h.history g hg).imp_right fun hx => ⟨hx.1,?_⟩
      simpa only [update_of_ne hgf] using hx.2

theorem free_of_put (h : Acct s U K) (hp : Put s s' f) (hg : s.Free g) : s'.Free g := by
  have hlt : g < s'.nrPages := hp.nrPages ▸ h.wf.free_lt hg
  rcases hp.wf.free_or_live hlt with hfree | ⟨b,hb,hbg⟩
  · exact hfree
  have hb' : b ∈ s.live := by
    rw [hp.live] at hb
    split at hb
    · exact mem_of_mem_erase hb
    · exact hb
  exact absurd hg (h.wf.not_free_of_live hb' hbg)

theorem put (h : Acct s U K) (hU : V ≤ U) (hK : L ≤ K)
    (hsum : U + K = V + L + unit f) : ∃ s', putPage s f = some s' ∧ Put s s' f ∧ Acct s' V L := by
  have hs : ∀ g, U g + K g = V g + L g + unit f g := fun g => congrFun hsum g
  have hf : U f + K f = V f + L f + 1 := by simpa using hs f
  have hl := h.live f (by omega)
  obtain ⟨hc,-⟩ := h.count f hl
  obtain ⟨s',hput,hspec⟩ := putPage_some h.wf hl (by omega)
  have hlt : f < s.nrPages := (h.wf.inRange_live hl).lt (Block.covers_start _)
  have hmem : ∀ g, g ≠ f → ((⟨g,0⟩ : Block) ∈ s'.live ↔ (⟨g,0⟩ : Block) ∈ s.live) := by
    intro g hg
    rw [hspec.live]
    split
    · rw [h.wf.tiling.liveNodup.mem_erase_iff]
      simp [hg]
    · rfl
  have hself : (⟨f,0⟩ : Block) ∈ s'.live ↔ V f + L f ≠ 0 := by
    rw [hspec.live]
    split
    · rw [h.wf.tiling.liveNodup.mem_erase_iff]
      simp
      omega
    · exact ⟨fun _ => by omega,fun _ => hl⟩
  refine ⟨s',hput,hspec,hspec.wf,?_,?_,?_,?_⟩
  · intro g hg
    by_cases hgf : g = f
    · subst hgf
      exact hself.mpr (by omega)
    have := hs g
    rw [unit_of_ne hgf] at this
    exact (hmem g hgf).mpr (h.live g (by omega))
  · intro g hg
    by_cases hgf : g = f
    · subst hgf
      have := hself.mp hg
      simp only [hspec.refcount,update_self]
      omega
    have hg' := h.count g ((hmem g hgf).mp hg)
    have := hs g
    rw [unit_of_ne hgf] at this
    rw [hspec.refcount,update_of_ne hgf]
    omega
  · intro g hg
    have hg' : (⟨g,0⟩ : Block) ∈ s.live := by
      by_cases hgf : g = f
      · exact hgf ▸ hl
      · exact (hmem g hgf).mp hg
    have hk := h.kind g hg'
    have h1 : V g ≤ U g := hU g
    have h2 : L g ≤ K g := hK g
    rw [hspec.user]
    split at hk <;> rename_i hu
    · rw [if_pos hu]; omega
    · rw [if_neg hu]; omega
  · intro g hg
    rw [hspec.user] at hg
    by_cases hgf : g = f
    · subst hgf
      by_cases h0 : V g + L g = 0
      · refine .inr ⟨?_,?_⟩
        · rcases hspec.wf.free_or_live (hspec.nrPages ▸ hlt) with hfree | ⟨b,hb,hbg⟩
          · exact hfree
          have hr1 : s.refcount g = 1 := by omega
          rw [hspec.live,if_pos hr1,h.wf.tiling.liveNodup.mem_erase_iff] at hb
          exact absurd (h.wf.live_unique hb.2 hl hbg (Block.covers_start _)) hb.1
        · simp only [hspec.refcount,update_self]
          omega
      · exact .inl (hself.mpr h0)
    · rcases h.history g hg with hlg | ⟨hfree,hr⟩
      · exact .inl ((hmem g hgf).mpr hlg)
      · refine .inr ⟨h.free_of_put hspec hfree,?_⟩
        rw [hspec.refcount,update_of_ne hgf,hr]

theorem free_block (h : Acct s U K) (hb : (⟨f,order⟩ : Block) ∈ s.live)
    (ho : 0 < order) : Acct (freeOnePage (dropLive s f order) f order) U K := by
  have hkept := mergeLoop_kept maxOrder (dropLive s f order) f order
  have hwf := h.wf.release hb
  have hmem : ∀ g, (⟨g,0⟩ : Block) ∈ (freeOnePage (dropLive s f order) f order).live ↔
      (⟨g,0⟩ : Block) ∈ s.live := by
    intro g
    rw [freeOnePage,hkept.live,dropLive,h.wf.tiling.liveNodup.mem_erase_iff]
    simp only [ne_eq,Block.mk.injEq,not_and,and_iff_right_iff_imp]
    omega
  refine ⟨hwf,fun g hg => (hmem g).mpr (h.live g hg),?_,?_,?_⟩
  · intro g hg
    simp only [freeOnePage,hkept.refcount]
    exact h.count g ((hmem g).mp hg)
  · intro g hg
    simp only [freeOnePage,hkept.user]
    exact h.kind g ((hmem g).mp hg)
  intro g hg
  simp only [freeOnePage,hkept.user] at hg
  rcases h.history g hg with hl | ⟨hfree,hr⟩
  · exact .inl ((hmem g).mpr hl)
  refine .inr ⟨?_,(congrFun hkept.refcount g).trans hr⟩
  have hlt : g < (freeOnePage (dropLive s f order) f order).nrPages := by
    simp only [freeOnePage,hkept.nrPages]
    exact h.wf.free_lt hfree
  rcases hwf.free_or_live hlt with hf | ⟨b,hb',hbg⟩
  · exact hf
  · simp only [freeOnePage,hkept.live] at hb'
    exact absurd hfree (h.wf.not_free_of_live (mem_of_mem_erase hb') hbg)

end Acct

end TinyOs.Buddy
