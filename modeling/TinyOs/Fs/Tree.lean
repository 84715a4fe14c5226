import Mathlib.Algebra.Order.BigOperators.Group.Finset
import TinyOs.Fs.Ramfs
import TinyOs.Library.Count
import TinyOs.Library.Forest

namespace TinyOs.Fs

open Function (update update_eq_self update_of_ne update_self)
open Forest List Finset Option

@[ext]
structure View where
  kind : Ino → Option FileType
  dents : Ino → List (Path × Ino)
  parent : Ino → Option Ino
  root : Ino
  isCwd : Ino → Prop

namespace View

variable {v v' : View} {i j dir : Ino} {e : Path × Ino} {l₁ l₂ : List (Path × Ino)}

def up (v : View) (i : Ino) : Ino := (v.parent i).getD i

def links (v : View) (j : Ino) : Nat := ∑ i, (v.dents i).countP (·.2 = j)

def Attached (v : View) (i : Ino) : Prop := i = v.root ∨ 0 < v.links i

structure Tree (v : View) : Prop where
  root_dir : v.kind v.root = some .dir
  root_up : v.up v.root = v.root
  holds : ∀ i e, e ∈ v.dents i → v.kind i = some .dir ∧ v.kind e.2 ≠ none ∧ e.2 ≠ v.root
  once : ∀ j, v.kind j = some .dir → v.links j ≤ 1
  under : ∀ i e, e ∈ v.dents i → v.kind e.2 = some .dir → v.parent e.2 = some i
  climbs : ∀ i e, e ∈ v.dents i → v.kind e.2 = some .dir → Climbs v.up v.root e.2
  bare : ∀ j, v.kind j = some .dir → ¬ v.Attached j → v.dents j = []
  cwd : ∀ i, v.isCwd i → v.kind i = some .dir ∧ v.Attached i

theorem countP_le_links (v : View) (i j : Ino) : (v.dents i).countP (·.2 = j) ≤ v.links j :=
  single_le_sum (f := fun i => (v.dents i).countP (·.2 = j))
    (fun _ _ => Nat.zero_le _) (mem_univ i)

theorem links_pos_of_mem (h : e ∈ v.dents i) : 0 < v.links e.2 :=
  lt_of_lt_of_le (countP_pos_iff.mpr ⟨e,h,by simp⟩) (countP_le_links v i e.2)

theorem exists_mem_of_links_pos (h : 0 < v.links j) : ∃ i e, e ∈ v.dents i ∧ e.2 = j := by
  by_contra hno
  have hzero : v.links j = 0 := by
    refine sum_eq_zero fun i _ => countP_eq_zero.mpr fun e he hej => ?_
    exact hno ⟨i,e,he,by simpa using hej⟩
  omega

theorem links_update (v v' : View) (dir : Ino) (l : List (Path × Ino))
    (hd : v'.dents = update v.dents dir l) (j : Ino) :
    v'.links j + (v.dents dir).countP (·.2 = j) = v.links j + l.countP (·.2 = j) := by
  have hsum := Count.sum_add_of_ne (f := fun i => (v'.dents i).countP (·.2 = j))
    (g := fun i => (v.dents i).countP (·.2 = j)) dir fun x hx => by rw [hd,update_of_ne hx]
  rwa [hd,update_self,← hd] at hsum

theorem links_relabel (h : ∀ i, (v'.dents i).map (·.2) = (v.dents i).map (·.2)) (j : Ino) :
    v'.links j = v.links j := by
  refine sum_congr rfl fun x _ => ?_
  have hcount : ∀ l : List (Path × Ino), l.countP (·.2 = j) = (l.map (·.2)).countP (· = j) := by
    intro l
    rw [countP_map]
    rfl
  rw [hcount,hcount,h]

theorem links_move {old new : Ino} {e' : Path × Ino}
    (hne : old ≠ new) (hold : v.dents old = l₁ ++ e :: l₂)
    (hdents : v'.dents = update (update v.dents old (l₁ ++ l₂)) new
      (e' :: v.dents new)) (he : e'.2 = e.2) (j : Ino) : v'.links j = v.links j := by
  have hfirst := links_update v { v with dents := update v.dents old (l₁ ++ l₂) } old
    (l₁ ++ l₂) rfl j
  have hsecond := links_update { v with dents := update v.dents old (l₁ ++ l₂) } v' new
    (e' :: v.dents new) hdents j
  simp only [update_of_ne hne.symm] at hsecond
  rw [hold,countP_append,countP_cons] at hfirst
  rw [countP_append] at hfirst
  rw [countP_cons,he] at hsecond
  omega

namespace Tree

variable {w : Ino}

theorem attached_of_mem (_ : v.Tree) (he : e ∈ v.dents i) : v.Attached e.2 :=
  .inr (links_pos_of_mem he)

theorem attached_of_dents (h : v.Tree) (he : e ∈ v.dents i) : v.Attached i := by
  by_contra hno
  rw [h.bare i (h.holds i e he).1 hno] at he
  cases he

theorem up_attached (h : v.Tree) (hj : v.kind j = some .dir) (ha : v.Attached j) :
    v.kind (v.up j) = some .dir ∧ v.Attached (v.up j) := by
  rcases ha with rfl | ha
  · rw [h.root_up]
    exact ⟨h.root_dir,.inl rfl⟩
  obtain ⟨i,e,he,rfl⟩ := exists_mem_of_links_pos ha
  have hup : v.up e.2 = i := by rw [up,h.under i e he hj,getD_some]
  rw [hup]
  exact ⟨(h.holds i e he).1,h.attached_of_dents he⟩

theorem above_attached (h : v.Tree) {d : Ino} (hj : v.kind j = some .dir) (ha : v.Attached j)
    (hd : Above v.up d j) : v.kind d = some .dir ∧ v.Attached d := by
  obtain ⟨n,hn⟩ := hd
  induction n generalizing j with
  | zero =>
    have hjd : j = d := hn
    exact hjd ▸ ⟨hj,ha⟩
  | succ n ih =>
    obtain ⟨hk,hup⟩ := h.up_attached hj ha
    exact ih hk hup hn

theorem climbs_of_attached (h : v.Tree) (hj : v.kind j = some .dir) (ha : v.Attached j) :
    Climbs v.up v.root j := by
  rcases ha with rfl | ha
  · exact .refl
  · obtain ⟨i,e,he,rfl⟩ := exists_mem_of_links_pos ha
    exact h.climbs i e he hj

theorem dents_eq_nil (h : v.Tree) (hj : ¬ v.Attached j) : v.dents j = [] := by
  refine eq_nil_iff_forall_not_mem.mpr fun e he => hj (h.attached_of_dents he)

theorem climbs_congr (h : v.Tree)
    (hup : ∀ x, v.kind x = some .dir → v.Attached x → v'.up x = v.up x)
    (hj : v.kind j = some .dir) (ha : v.Attached j) : Climbs v'.up v.root j := by
  obtain ⟨n,hn⟩ := h.climbs_of_attached hj ha
  induction n generalizing j with
  | zero => exact ⟨0,hn⟩
  | succ n ih =>
    obtain ⟨hk,hatt⟩ := h.up_attached hj ha
    refine .step ?_
    rw [hup j hj ha]
    exact ih hk hatt hn

theorem shrink (h : v.Tree) (hroot : v'.root = v.root)
    (hkind : ∀ x, v'.kind x = v.kind x ∨ v'.kind x = none ∧ ¬ v.Attached x)
    (hparent : ∀ x, v.Attached x → v'.parent x = v.parent x)
    (hcwd : ∀ x, v'.isCwd x → v.kind x = some .dir ∧ v.Attached x)
    (hsub : ∀ i e, e ∈ v'.dents i → ∃ e' ∈ v.dents i, e'.2 = e.2)
    (hle : ∀ j, v'.links j ≤ v.links j)
    (hgone : ∀ j, v.kind j = some .dir → 0 < v.links j → v'.links j = 0 →
      v.dents j = [] ∧ ¬ v'.isCwd j) : v'.Tree := by
  have hkeep : ∀ x, v.Attached x → v'.kind x = v.kind x := fun x ha =>
    (hkind x).resolve_right fun hno => hno.2 ha
  have hdir : ∀ x, v'.kind x = some .dir → v.kind x = some .dir := by
    intro x hx
    rcases hkind x with heq | ⟨hno,-⟩
    · rw [← heq,hx]
    · rw [hno] at hx
      cases hx
  have hup : ∀ x, v.Attached x → v'.up x = v.up x := fun x ha => by rw [up,up,hparent x ha]
  have hr : v.Attached v.root := .inl rfl
  refine ⟨?_,?_,?_,?_,?_,?_,?_,?_⟩
  · rw [hroot,hkeep _ hr,h.root_dir]
  · rw [hroot,hup _ hr,h.root_up]
  · intro x e he
    obtain ⟨e',he',heq⟩ := hsub x e he
    rw [← heq,hroot,hkeep _ (h.attached_of_dents he'),hkeep _ (h.attached_of_mem he')]
    exact h.holds x e' he'
  · exact fun j hj => (hle j).trans (h.once j (hdir j hj))
  · intro x e he hk
    obtain ⟨e',he',heq⟩ := hsub x e he
    rw [← heq] at hk ⊢
    rw [hparent _ (h.attached_of_mem he')]
    exact h.under x e' he' (hdir _ hk)
  · intro x e he hk
    obtain ⟨e',he',heq⟩ := hsub x e he
    rw [← heq] at hk ⊢
    rw [hroot]
    exact h.climbs_congr (fun y _ hy => hup y hy) (hdir _ hk) (h.attached_of_mem he')
  · intro j hj hno
    have hnil : v.dents j = [] := by
      by_cases hpos : 0 < v.links j
      · exact (hgone j (hdir j hj) hpos (Nat.eq_zero_of_not_pos fun hp => hno (.inr hp))).1
      refine h.bare j (hdir j hj) ?_
      rintro (hr | hp)
      · exact hno (.inl (hr.trans hroot.symm))
      · exact hpos hp
    refine eq_nil_iff_forall_not_mem.mpr fun e he => ?_
    obtain ⟨e',he',-⟩ := hsub j e he
    rw [hnil] at he'
    cases he'
  · intro x hx
    obtain ⟨hk,ha⟩ := hcwd x hx
    refine ⟨by rw [hkeep x ha,hk],?_⟩
    rcases ha with hr | hp
    · exact .inl (hr.trans hroot.symm)
    · refine .inr (pos_of_ne_zero fun hz => ?_)
      exact (hgone x hk hp hz).2 hx

theorem recwd (h : v.Tree) (hkind : v'.kind = v.kind) (hdents : v'.dents = v.dents)
    (hparent : v'.parent = v.parent) (hroot : v'.root = v.root)
    (hcwd : ∀ i, v'.isCwd i → v.kind i = some .dir ∧ v.Attached i) : v'.Tree := by
  have hl : ∀ j, v'.links j = v.links j := fun j => by rw [links,links,hdents]
  refine h.shrink hroot (fun x => .inl (by rw [hkind])) (fun x _ => by rw [hparent]) hcwd ?_
    (fun j => (hl j).le) fun j _ hp hz => absurd hz (by rw [hl]; exact hp.ne')
  intro x e he
  exact ⟨e,hdents ▸ he,rfl⟩

theorem free (h : v.Tree) (hlinks : v.links i = 0) (hi : i ≠ v.root) (hnocwd : ¬ v.isCwd i)
    (hkind : v'.kind = update v.kind i none)
    (hdents : v'.dents = update v.dents i [])
    (hparent : v'.parent = update v.parent i none) (hroot : v'.root = v.root)
    (hcwd : v'.isCwd = v.isCwd) : v'.Tree := by
  have hno : ¬ v.Attached i := by
    rintro (hr | hp)
    · exact hi hr
    · omega
  have hne : ∀ x, v.Attached x → x ≠ i := by
    rintro x hx rfl
    exact hno hx
  have hsame : v'.dents = v.dents := by rw [hdents,← h.dents_eq_nil hno,update_eq_self]
  have hl : ∀ j, v'.links j = v.links j := fun j => by rw [links,links,hsame]
  refine h.shrink hroot (fun x => ?_) (fun x hx => ?_) (fun x hx => h.cwd x (hcwd ▸ hx))
    (fun x e he => ⟨e,hsame ▸ he,rfl⟩) (fun j => (hl j).le)
    fun j _ hp hz => absurd hz (by rw [hl]; exact hp.ne')
  · rw [hkind]
    by_cases hx : x = i
    · exact .inr ⟨by rw [hx,update_self],hx ▸ hno⟩
    · exact .inl (update_of_ne hx _ _)
  · rw [hparent,update_of_ne (hne x hx)]

theorem relabel (h : v.Tree) (hkind : v'.kind = v.kind) (hparent : v'.parent = v.parent)
    (hroot : v'.root = v.root) (hcwd : v'.isCwd = v.isCwd)
    (htargets : ∀ i, (v'.dents i).map (·.2) = (v.dents i).map (·.2)) : v'.Tree := by
  have hl := links_relabel htargets
  refine h.shrink hroot (fun x => .inl (by rw [hkind])) (fun x _ => by rw [hparent])
    (fun x hx => h.cwd x (hcwd ▸ hx)) (fun x e he => ?_) (fun j => (hl j).le)
    fun j _ hp hz => absurd hz (by rw [hl]; exact hp.ne')
  have := mem_map_of_mem (f := (·.2)) he
  rw [htargets] at this
  exact mem_map.mp this

theorem not_above (h : v.Tree) {d : Ino} (hd : v.kind d ≠ some .dir) (hj : v.kind j = some .dir)
    (ha : v.Attached j) : ¬ Above v.up d j :=
  fun habove => hd (h.above_attached hj ha habove).1

theorem put (h : v.Tree) {name : Path} (hroot : v'.root = v.root)
    (hcwd : v'.isCwd = v.isCwd) (hkind : ∀ x, v.kind x ≠ none ∨ x ≠ i → v'.kind x = v.kind x)
    (hparent : v'.parent = update v.parent i (some w)) (hi : v'.kind i ≠ none)
    (hri : i ≠ v.root) (hdir : v.kind dir = some .dir) (ha : v.Attached dir)
    (hmem : ∀ x e, e ∈ v'.dents x → e = (name,i) ∧ x = dir ∨
      e ∈ v.dents x ∧ (v.kind e.2 = some .dir → e.2 ≠ i))
    (hlinks : ∀ j, v'.kind j = some .dir → v'.links j = v.links j ∨ j = i ∧ v'.links j = 1)
    (hok : v'.kind i = some .dir → w = dir ∧ ¬ Above v.up i dir) : v'.Tree := by
  have hkeep : ∀ x, v.kind x = some .dir → v'.kind x = some .dir := fun x hx => by
    rw [hkind x (.inl (by rw [hx]; exact some_ne_none _)),hx]
  have hup : v'.up = update v.up i w := by
    funext x
    by_cases hx : x = i <;> simp [up,hparent,hx]
  have hatt : ∀ x, v.kind x = some .dir → v.Attached x → v'.Attached x := by
    rintro x hx (hr | hp)
    · exact .inl (hr.trans hroot.symm)
    · rcases hlinks x (hkeep x hx) with heq | ⟨-,heq⟩
      · exact .inr (by rw [heq]; exact hp)
      · exact .inr (by rw [heq]; exact Nat.one_pos)
  have hclimb : ∀ x, v.kind x = some .dir → v.Attached x → Climbs v'.up v'.root x := by
    intro x hx hax
    rw [hup,hroot]
    by_cases hk : v'.kind i = some .dir
    · obtain ⟨rfl,hno⟩ := hok hk
      exact (h.climbs_of_attached hdir ha).graft hno (h.climbs_of_attached hx hax)
    · exact (h.climbs_of_attached hx hax).update (h.not_above (fun hd => hk (hkeep i hd)) hx hax)
  have hold : ∀ x e, e ∈ v.dents x → v'.kind e.2 = v.kind e.2 := fun x e he =>
    hkind _ (.inl (h.holds x e he).2.1)
  refine ⟨?_,?_,?_,?_,?_,?_,?_,?_⟩
  · rw [hroot,hkeep _ h.root_dir]
  · rw [hroot,hup,update_of_ne hri.symm,h.root_up]
  · intro x e he
    rw [hroot]
    rcases hmem x e he with ⟨rfl,rfl⟩ | ⟨he,-⟩
    · exact ⟨hkeep _ hdir,hi,hri⟩
    · rw [hold x e he]
      exact ⟨hkeep x (h.holds x e he).1,(h.holds x e he).2⟩
  · intro j hj
    rcases hlinks j hj with heq | ⟨-,heq⟩
    · rw [heq]
      by_cases hk : v.kind j ≠ none ∨ j ≠ i
      · exact h.once j (hkind j hk ▸ hj)
      rw [not_or,not_not] at hk
      by_contra hpos
      obtain ⟨x,e,he,rfl⟩ := exists_mem_of_links_pos (v := v) (j := j) (by omega)
      exact (h.holds x e he).2.1 hk.1
    · exact heq.le
  · intro x e he hk
    rw [hparent]
    rcases hmem x e he with ⟨rfl,rfl⟩ | ⟨he,hne⟩
    · rw [update_self,(hok hk).1]
    rw [hold x e he] at hk
    rw [update_of_ne (hne hk)]
    exact h.under x e he hk
  · intro x e he hk
    rcases hmem x e he with ⟨rfl,rfl⟩ | ⟨he,-⟩
    · have hself : v'.up i = x := by rw [hup,update_self,(hok hk).1]
      refine .step ?_
      rw [hself]
      exact hclimb x hdir ha
    · rw [hold x e he] at hk
      exact hclimb e.2 hk (h.attached_of_mem he)
  · intro j _ hno
    refine eq_nil_iff_forall_not_mem.mpr fun e he => hno ?_
    rcases hmem j e he with ⟨-,rfl⟩ | ⟨he,-⟩
    · exact hatt j hdir ha
    · exact hatt j (h.holds j e he).1 (h.attached_of_dents he)
  · intro x hx
    rw [hcwd] at hx
    obtain ⟨hk,hax⟩ := h.cwd x hx
    exact ⟨hkeep x hk,hatt x hk hax⟩

section

variable {name : Path} (hdents : v'.dents = update v.dents dir ((name,i) :: v.dents dir))

include hdents

theorem mem_cons_dents {x : Ino} (he : e ∈ v'.dents x) :
    e = (name,i) ∧ x = dir ∨ e ∈ v.dents x := by
  rw [hdents] at he
  by_cases hx : x = dir
  · rw [hx,update_self] at he
    rcases mem_cons.mp he with rfl | he
    · exact .inl ⟨rfl,hx⟩
    · exact .inr (hx ▸ he)
  · rw [update_of_ne hx] at he
    exact .inr he

theorem links_cons_ne (hj : j ≠ i) : v'.links j = v.links j := by
  have := links_update v v' dir _ hdents j
  rw [countP_cons_of_neg (by simpa using hj.symm)] at this
  omega

theorem create (h : v.Tree) {t : FileType} (hfree : v.kind i = none)
    (hdir : v.kind dir = some .dir) (ha : v.Attached dir)
    (hkind : v'.kind = update v.kind i (some t))
    (hparent : v'.parent = update v.parent i (some dir)) (hroot : v'.root = v.root)
    (hcwd : v'.isCwd = v.isCwd) : v'.Tree := by
  have hi : ∀ x e, e ∈ v.dents x → e.2 ≠ i := by
    rintro x e he rfl
    exact (h.holds x e he).2.1 hfree
  have hlinki : v'.links i = 1 := by
    have hzero : v.links i = 0 := by
      by_contra hpos
      obtain ⟨x,e,he,hei⟩ := exists_mem_of_links_pos (pos_of_ne_zero hpos)
      exact hi x e he hei
    have hcount : (v.dents dir).countP (·.2 = i) = 0 :=
      countP_eq_zero.mpr fun e he hei => hi dir e he (by simpa using hei)
    have := links_update v v' dir _ hdents i
    rw [countP_cons_of_pos (by simp),hcount,hzero] at this
    omega
  have hnd : v.kind i ≠ some .dir := by
    rw [hfree]
    exact (some_ne_none _).symm
  refine h.put hroot hcwd (fun x hx => ?_) hparent (by simp [hkind]) ?_ hdir ha
    (fun x e he => (mem_cons_dents hdents he).imp_right fun he => ⟨he,fun _ => hi x e he⟩)
    (fun j _ => ?_) fun _ => ⟨rfl,h.not_above hnd hdir ha⟩
  · rw [hkind,update_of_ne]
    rcases hx with hx | hx
    · rintro rfl
      exact hx hfree
    · exact hx
  · rintro rfl
    exact hnd h.root_dir
  · by_cases hj : j = i
    · exact .inr ⟨hj,hj ▸ hlinki⟩
    · exact .inl (links_cons_ne hdents hj)

theorem link (h : v.Tree) (hi : v.kind i ≠ none) (hnd : v.kind i ≠ some .dir)
    (hdir : v.kind dir = some .dir) (ha : v.Attached dir) (hkind : v'.kind = v.kind)
    (hparent : v'.parent = update v.parent i (some w)) (hroot : v'.root = v.root)
    (hcwd : v'.isCwd = v.isCwd) : v'.Tree := by
  have hne : ∀ x, v.kind x = some .dir → x ≠ i := by
    rintro x hx rfl
    exact hnd hx
  refine h.put hroot hcwd (fun x _ => by rw [hkind]) hparent (hkind ▸ hi)
    (hne _ h.root_dir).symm hdir ha
    (fun x e he => (mem_cons_dents hdents he).imp_right fun he => ⟨he,hne e.2⟩)
    (fun j hj => ?_) fun hk => absurd (hkind ▸ hk) hnd
  exact .inl (links_cons_ne hdents (hne j (hkind ▸ hj)))

end

theorem move (h : v.Tree) {old new : Ino} {name : Path} (hne : old ≠ new)
    (hold : v.dents old = l₁ ++ e :: l₂)
    (hdir : v.kind new = some .dir) (ha : v.Attached new)
    (hok : v.kind e.2 = some .dir → w = new ∧ ¬ Above v.up e.2 new) (hkind : v'.kind = v.kind)
    (hdents : v'.dents = update (update v.dents old (l₁ ++ l₂)) new ((name,e.2) :: v.dents new))
    (hparent : v'.parent = update v.parent e.2 (some w)) (hroot : v'.root = v.root)
    (hcwd : v'.isCwd = v.isCwd) : v'.Tree := by
  have heold : e ∈ v.dents old := by rw [hold]; simp
  obtain ⟨-,hlive,hri⟩ := h.holds old e heold
  have honly : v.kind e.2 = some .dir → ∀ x e', e' ∈ v.dents x → e'.2 = e.2 →
      x = old ∧ (e' ∈ l₁ ++ l₂ → False) := by
    intro hk x e' he' hee
    have hx : x = old := by
      have h1 := h.under x e' he' (hee ▸ hk)
      have h2 := h.under old e heold hk
      rw [hee,h2] at h1
      exact (some.inj h1).symm
    refine ⟨hx,fun hin => ?_⟩
    have hle := (countP_le_links v old e.2).trans (h.once _ hk)
    have hpos : 0 < (l₁ ++ l₂).countP (·.2 = e.2) :=
      countP_pos_iff.mpr ⟨e',hin,by simpa using hee⟩
    rw [hold,countP_append,countP_cons_of_pos (by simp)] at hle
    rw [countP_append] at hpos
    omega
  have hmem : ∀ x e', e' ∈ v'.dents x → e' = (name,e.2) ∧ x = new ∨
      e' ∈ v.dents x ∧ (v.kind e'.2 = some .dir → e'.2 ≠ e.2) := by
    intro x e' he'
    by_cases hx : x = new
    · subst hx
      rw [hdents,update_self] at he'
      rcases mem_cons.mp he' with rfl | he'
      · exact .inl ⟨rfl,rfl⟩
      · refine .inr ⟨he',fun hk hee => ?_⟩
        exact hne (honly (hee ▸ hk) x e' he' hee).1.symm
    rw [hdents,update_of_ne hx] at he'
    by_cases hxo : x = old
    · subst hxo
      rw [update_self] at he'
      have hin : e' ∈ v.dents x := by
        rw [hold]
        rcases mem_append.mp he' with he' | he' <;> simp [he']
      exact .inr ⟨hin,fun hk hee => (honly (hee ▸ hk) x e' hin hee).2 he'⟩
    · rw [update_of_ne hxo] at he'
      exact .inr ⟨he',fun hk hee => hxo (honly (hee ▸ hk) x e' he' hee).1⟩
  exact h.put hroot hcwd (fun x _ => by rw [hkind]) hparent (hkind ▸ hlive) hri hdir ha hmem
    (fun j _ => .inl (links_move hne hold hdents rfl j)) fun hk => hok (hkind ▸ hk)

end Tree

inductive Reaches (v : View) : Ino → Prop where
  | root : Reaches v v.root
  | down {i : Ino} {e : Path × Ino} (hi : Reaches v i) (he : e ∈ v.dents i) : Reaches v e.2

theorem Tree.reaches (h : v.Tree) (hj : v.kind j = some .dir) (ha : v.Attached j) :
    Reaches v j := by
  obtain ⟨n,hn⟩ := h.climbs_of_attached hj ha
  induction n generalizing j with
  | zero =>
    have hjr : j = v.root := hn
    exact hjr ▸ .root
  | succ n ih =>
    obtain ⟨hk,hup⟩ := h.up_attached hj ha
    have hparent := ih hk hup hn
    rcases ha with rfl | ha
    · exact .root
    obtain ⟨i,e,he,rfl⟩ := exists_mem_of_links_pos ha
    rw [up,h.under i e he hj,getD_some] at hparent
    exact .down hparent he

end View

end TinyOs.Fs
