import TinyOs.Mm.Pagetable

namespace TinyOs

open Function (update update_apply)
open Count Finset

def pteRefs : Option Pte → Nat → Nat
  | none => 0
  | some pte => unit pte.frame

def pdeRefs : Option Pde → Nat → Nat
  | none => 0
  | some pde => if pde.user then ∑ j ∈ Finset.range 1024, pteRefs (pde.entries j) else 0

def pdeTable : Option Pde → Nat → Nat
  | none => 0
  | some pde => if pde.user then unit pde.table else 0

namespace Pgdir

variable {i f : Nat} {pte : Pte}

def userRefs (pd : Pgdir) : Nat → Nat := ∑ i ∈ Finset.range 768, pdeRefs (pd i)

def dirRefs (pd : Pgdir) : Nat → Nat := ∑ i ∈ Finset.range 768, pdeTable (pd i)

structure Wf (pd : Pgdir) : Prop where
  user : ∀ i < 768, ∀ pde, pd i = some pde →
    pde.user = true ∧ ∀ j pte, pde.entries j = some pte → pte.perm.u = true
  kernel : ∀ i, 768 ≤ i → ∀ pde, pd i = some pde →
    pde.user = false ∧ ∀ j pte, pde.entries j = some pte → pte.perm.u = false ∧ pte.perm.cow = false

variable {pd : Pgdir} {va : Nat} {e : Option Pte}

theorem Wf.lookup_user (h : pd.Wf) (hva : va < userEnd)
    (hl : pd.lookup va = some pte) : pte.perm.u = true := by
  obtain ⟨pde,hpde,hpte⟩ := pde_of_lookup hl
  exact (h.user _ (pdx_lt_of_user hva) pde hpde).2 _ _ hpte

theorem Wf.lookup_kernel (h : pd.Wf) (hva : userEnd ≤ va) (hw : va < word)
    (hl : pd.lookup va = some pte) : pte.perm.u = false ∧ pte.perm.cow = false := by
  obtain ⟨pde,hpde,hpte⟩ := pde_of_lookup hl
  exact (h.kernel _ (pdx_ge_of_kernel hva hw) pde hpde).2 _ _ hpte

theorem sum_setPde (g : Option Pde → Nat → Nat) (pd : Pgdir) (hi : i < 768) (e : Option Pde) :
    (∑ x ∈ Finset.range 768, g (pd.setPde i e x)) + g (pd i) =
      (∑ x ∈ Finset.range 768, g (pd x)) + g e :=
  sum_update_add _ (fun _ e => g e) pd (mem_range.mpr hi) e

theorem Wf.setPde (h : pd.Wf) (hi : i < 768) {pde : Pde} (hu : pde.user = true)
    (he : ∀ j pte, pde.entries j = some pte → pte.perm.u = true) : (pd.setPde i (some pde)).Wf := by
  constructor
  · intro j hj q hq
    rw [setPde_apply] at hq
    split at hq
    · cases hq
      exact ⟨hu,he⟩
    · exact h.user j hj q hq
  · intro j hj q hq
    rw [setPde_apply,if_neg (by omega)] at hq
    exact h.kernel j hj q hq

theorem Wf.setPte (h : pd.Wf) (hva : va < userEnd)
    (he : ∀ pte, e = some pte → pte.perm.u = true) : (pd.setPte va e).Wf := by
  simp only [Pgdir.setPte]
  split
  · exact h
  rename_i pde hpde
  obtain ⟨hu,hent⟩ := h.user _ (pdx_lt_of_user hva) pde hpde
  refine h.setPde (pdx_lt_of_user hva) hu fun j pte hj => ?_
  simp only [update_apply] at hj
  split at hj
  · exact he pte hj
  · exact hent j pte hj

theorem userRefs_setPte (h : pd.Wf) (hva : va < userEnd) (hp : pd (pdx va) ≠ none) :
    (pd.setPte va e).userRefs + pteRefs (pd.lookup va) = pd.userRefs + pteRefs e := by
  obtain ⟨pde,hpde⟩ := Option.ne_none_iff_exists'.mp hp
  have hu := (h.user _ (pdx_lt_of_user hva) pde hpde).1
  have hsum := sum_setPde pdeRefs pd (pdx_lt_of_user hva)
    (some { pde with entries := update pde.entries (ptx va) e })
  have hinner : (∑ j ∈ range 1024, pteRefs (update pde.entries (ptx va) e j)) +
      pteRefs (pde.entries (ptx va)) =
        (∑ j ∈ range 1024, pteRefs (pde.entries j)) + pteRefs e :=
    sum_update_add _ (fun _ e => pteRefs e) pde.entries (mem_range.mpr (ptx_lt va)) e
  have hold : pdeRefs (some pde) = ∑ j ∈ range 1024, pteRefs (pde.entries j) := if_pos hu
  have hnew : pdeRefs (some { pde with entries := update pde.entries (ptx va) e }) =
      ∑ j ∈ range 1024, pteRefs (update pde.entries (ptx va) e j) := if_pos hu
  rw [hpde,hold,hnew] at hsum
  simp only [userRefs,Pgdir.setPte,hpde,lookup]
  funext f
  have h1 := congrFun hsum f
  have h2 := congrFun hinner f
  simp only [Pi.add_apply] at h1 h2 ⊢
  omega

theorem dirRefs_setPte (pd : Pgdir) (va : Nat) (e : Option Pte) :
    (pd.setPte va e).dirRefs = pd.dirRefs := by
  simp only [Pgdir.setPte]
  split
  · rfl
  rename_i pde hpde
  refine sum_congr rfl fun i _ => ?_
  rw [setPde_apply]
  split
  · rename_i hi
    rw [hi,hpde]
    rfl
  · rfl

theorem setPde_new_refs (hi : i < 768) (hnone : pd i = none) :
    (pd.setPde i (some ⟨f,true,fun _ => none⟩)).userRefs = pd.userRefs ∧
      (pd.setPde i (some ⟨f,true,fun _ => none⟩)).dirRefs = pd.dirRefs + unit f := by
  have h1 := sum_setPde pdeRefs pd hi (some ⟨f,true,fun _ => none⟩)
  have h2 := sum_setPde pdeTable pd hi (some ⟨f,true,fun _ => none⟩)
  simp only [hnone,pdeRefs,pdeTable,if_true,pteRefs,add_zero,sum_const_zero] at h1 h2
  exact ⟨h1,h2⟩

theorem lookup_setPde_new {u : Bool} (hnone : pd i = none) (va : Nat) :
    (pd.setPde i (some ⟨f,u,fun _ => none⟩)).lookup va = pd.lookup va := by
  simp only [lookup,setPde_apply]
  by_cases hi : pdx va = i
  · simp [hi,hnone]
  · simp [hi]

theorem pteRefs_le_one (e : Option Pte) (f : Nat) : pteRefs e f ≤ 1 := by
  cases e with
  | none => exact Nat.zero_le _
  | some pte => exact unit_le_one _ _

theorem pdeRefs_le (e : Option Pde) (f : Nat) : pdeRefs e f ≤ 1024 := by
  cases e with
  | none => exact Nat.zero_le _
  | some pde =>
    simp only [pdeRefs]
    split
    · rw [Finset.sum_apply]
      have := sum_le_card_nsmul (range 1024) (fun j => pteRefs (pde.entries j) f) 1
        (fun j _ => pteRefs_le_one _ _)
      simpa using this
    · exact Nat.zero_le _

theorem userRefs_le (pd : Pgdir) (f : Nat) : pd.userRefs f ≤ 768 * 1024 := by
  rw [userRefs,Finset.sum_apply]
  have := sum_le_card_nsmul (range 768) (fun i => pdeRefs (pd i) f) 1024
    (fun i _ => pdeRefs_le _ _)
  simpa using this

theorem userRefs_pos (h : pd.Wf) (hva : va < userEnd) (hl : pd.lookup va = some pte) :
    0 < pd.userRefs pte.frame := by
  obtain ⟨pde,hpde,hpte⟩ := pde_of_lookup hl
  have hu := (h.user _ (pdx_lt_of_user hva) pde hpde).1
  have h1 : 0 < pdeRefs (pd (pdx va)) pte.frame := by
    rw [hpde,pdeRefs,if_pos hu,Finset.sum_apply]
    refine sum_pos' (fun _ _ => Nat.zero_le _) ⟨ptx va,mem_range.mpr (ptx_lt va),?_⟩
    simp [hpte,pteRefs]
  rw [userRefs,Finset.sum_apply]
  exact sum_pos' (fun _ _ => Nat.zero_le _)
    ⟨pdx va,mem_range.mpr (pdx_lt_of_user hva),h1⟩

theorem exists_of_userRefs_pos (hf : 0 < pd.userRefs f) :
    ∃ va < userEnd, ∃ pte, pd.lookup va = some pte ∧ pte.frame = f := by
  rw [userRefs,Finset.sum_apply] at hf
  obtain ⟨i,hi,hpos⟩ := exists_ne_zero_of_sum_ne_zero hf.ne'
  rw [mem_range] at hi
  rcases hpde : pd i with _ | pde
  · simp [hpde,pdeRefs] at hpos
  simp only [hpde,pdeRefs] at hpos
  split at hpos
  · rw [Finset.sum_apply] at hpos
    obtain ⟨j,hj,hpte⟩ := exists_ne_zero_of_sum_ne_zero hpos
    rw [mem_range] at hj
    rcases he : pde.entries j with _ | pte
    · simp [he,pteRefs] at hpte
    have hpdx : pdx (i * 2 ^ 22 + j * 2 ^ 12) = i := by
      simp only [pdx]
      omega
    have hptx : ptx (i * 2 ^ 22 + j * 2 ^ 12) = j := by
      simp only [ptx]
      omega
    refine ⟨i * 2 ^ 22 + j * 2 ^ 12,by simp only [userEnd,kernBase]; omega,pte,?_,?_⟩
    · simp only [lookup,hpdx,hptx,hpde,he]
    · by_contra hne
      simp [he,pteRefs,unit_of_ne (Ne.symm hne)] at hpte
  · simp at hpos

end Pgdir

end TinyOs
