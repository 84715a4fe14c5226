import Mathlib.Data.List.TakeWhile
import TinyOs.Fs.RamfsEdit

namespace TinyOs.Fs

open List Option Machine
open Function (update update_of_ne update_self)

variable {path name : Path}

namespace Ram

variable {P : Type} {s s' t : Ram P} {i j dir ip newDir : Ino} {name newName : Path}
  {R : Ino → Node → Prop} {new : Path → Prop}

def Every (R : Ino → Node → Prop) (s : Ram P) : Prop := ∀ i nd, s.node i = some nd → R i nd

structure Carries (R : Ino → Node → Prop) (new : Path → Prop) : Prop where
  parent : ∀ i nd p, R i nd → R i { nd with parent := p }
  dents : ∀ i nd l, R i nd → (∀ e ∈ l, new e.1 ∨ ∃ e' ∈ nd.dents, e'.1 = e.1) →
    R i { nd with dents := l }

namespace Every

variable {data : List UInt8}

theorem set {v : Option Node} (h : Every R s) (hs : s'.node = update s.node j v)
    (hv : ∀ nd, v = some nd → R j nd) : Every R s' := by
  intro i nd hnd
  rw [hs] at hnd
  by_cases hij : i = j
  · subst hij
    rw [update_self] at hnd
    exact hv nd hnd
  · rw [update_of_ne hij] at hnd
    exact h i nd hnd

theorem modify {f : Node → Node} (h : Every R s) (hf : ∀ nd, R j nd → R j (f nd)) :
    Every R (s.modify j f) := by
  refine h.set rfl fun _ hmap => ?_
  obtain ⟨nd,hnd,rfl⟩ := map_eq_some_iff.mp hmap
  exact hf nd (h j nd hnd)

theorem dAdd (hR : Carries R new) (h : Every R s) (hnew : new (name.take (dirSiz - 1)))
    (ha : s.dAdd dir name ip = some s') : Every R s' := by
  obtain ⟨-,ha⟩ := ite_none_right_eq_some.mp ha
  cases ha
  refine modify (modify h fun nd => hR.parent ip nd _) fun nd hnd => hR.dents dir nd _ hnd ?_
  rintro e (_ | ⟨_,he⟩)
  · exact .inl hnew
  · exact .inr ⟨e,he,rfl⟩

theorem ialloc {type : FileType} {x : Ino} (h : Every R s)
    (hfresh : ∀ x, s.node x = none → R x ⟨type,[],none,data⟩)
    (ha : s.ialloc type data = some (s',x)) : Every R s' := by
  obtain ⟨y,hy,heq⟩ := map_eq_some_iff.mp ha
  obtain ⟨rfl,rfl⟩ := Prod.mk.inj heq
  have hfree := find?_some hy
  refine h.set rfl fun nd hnd => ?_
  cases hnd
  exact hfresh y (isNone_iff_eq_none.mp hfree)

theorem ramfsCreate {type : FileType} {x : Ino} (hR : Carries R new)
    (h : Every R s) (hfresh : ∀ x, s.node x = none → R x ⟨type,[],none,data⟩)
    (hnew : new (name.take (dirSiz - 1))) (hc : s.ramfsCreate dir name type data = some (s',x)) :
    Every R s' := by
  obtain ⟨s₁,ha,hadd⟩ := ramfsCreate_eq hc
  exact dAdd hR (h.ialloc hfresh ha) hnew hadd

variable [Fintype P] {busy : List Ino}

theorem iput (h : Every R s) (n : Nat) (j : Ino) : Every R (s.iput busy n j) := by
  induction n generalizing s j with
  | zero => exact h
  | succ n ih =>
    rw [Ram.iput]
    split
    · exact h
    have hfree : Every R { s with node := update s.node j none } :=
      h.set rfl fun nd hnd => by cases hnd
    generalize ({ s with node := update s.node j none } : Ram P) = t at hfree
    induction s.dents j generalizing t with
    | nil => exact hfree
    | cons e l ihl => exact ihl _ (ih hfree e.2)

theorem release (h : Every R s) (busy : List Ino) (j : Ino) : Every R (s.release busy j) :=
  h.iput nInode j

theorem dUnlink (hR : Carries R new) (h : Every R s) (hu : s.dUnlink busy dir name = some s') :
    Every R s' := by
  obtain ⟨x,-,rfl⟩ := map_eq_some_iff.mp hu
  refine (h.modify fun nd hnd => hR.dents dir nd _ hnd fun e he => ?_).release busy x
  exact .inr ⟨e,mem_of_mem_eraseP he,rfl⟩

theorem moveEntry (hR : Carries R new) (h : Every R s) (hnew : new (newName.take (dirSiz - 1)))
    (hm : s.moveEntry dir name newDir newName ip = some s') : Every R s' := by
  rw [Ram.moveEntry] at hm
  split at hm
  · cases hm
    refine h.modify fun nd hnd => hR.dents dir nd _ hnd fun e he => ?_
    rcases exists_or_eq_self_of_replaceF _ nd.dents with hsame | ⟨a,a',l₁,l₂,-,ha,hl,heq⟩
    · rw [hsame] at he
      exact .inr ⟨e,he,rfl⟩
    obtain ⟨-,ha⟩ := ite_none_right_eq_some.mp ha
    cases ha
    rw [heq] at he
    rcases mem_append.mp he with he | he
    · exact .inr ⟨e,hl ▸ mem_append_left _ he,rfl⟩
    rcases mem_cons.mp he with rfl | he
    · exact .inl hnew
    · exact .inr ⟨e,hl ▸ mem_append_right _ (mem_cons_of_mem _ he),rfl⟩
  · obtain ⟨s₁,hu,hm⟩ := bind_eq_some_iff.mp hm
    obtain ⟨s₂,ha,rfl⟩ := map_eq_some_iff.mp hm
    have hadded := dAdd hR (dUnlink hR h hu) hnew ha
    split
    · exact hadded.modify fun nd => hR.parent ip nd _
    · exact hadded

theorem ramfsRename (hR : Carries R new) (h : Every R s) (hnew : new (newName.take (dirSiz - 1)))
    (hr : s.ramfsRename dir name newDir newName = some s') : Every R s' := by
  obtain ⟨-,-,ip,-,rfl | hr | ⟨t,s₁,-,-,-,hu,hm⟩⟩ := ramfsRename_eq hr
  · exact h
  · exact moveEntry hR h hnew hr
  · exact moveEntry hR (dUnlink hR h hu) hnew hm

theorem edit [DecidableEq P] {op : FsOp P} (hR : Carries R new) (h : Every R s)
    (hfresh : ∀ x type data, s.node x = none → R x ⟨type,[],none,data⟩)
    (hnew : ∀ name ∈ op.newName, new (name.take (dirSiz - 1))) (he : s.Edit op s') : Every R s' := by
  induction he with
  | same _ | cwd _ _ _ _ => exact h
  | created _ hname hc _ _ => exact ramfsCreate hR h (hfresh · _ _) (hnew _ hname) hc
  | linked _ _ _ hname hadd _ => exact dAdd hR h (hnew _ hname) hadd
  | unlinked _ _ hu _ => exact dUnlink hR h hu
  | renamed hop _ hplace hr =>
    subst hop
    exact ramfsRename hR h (hnew _ (place_name hplace)) hr
  | files f _ ih => exact ih
  | released busy i _ ih => exact ih.release busy i

end Every

def nameiNofollow (s : Ram P) (p : P) (d : Nat) (path : Path) : Option Ino :=
  ((s.graph p).namex d path false false).bind (·.1)

def sysReadlink (s : Ram P) (p : P) (d : Nat) (path : Path) (bufsiz : Int) : Option (List UInt8) :=
  if bufsiz ≤ 0 then none
  else
    (s.nameiNofollow p d path).bind fun ip =>
      (s.node ip).bind fun nd =>
        if nd.type ≠ .lnk then none else some ((nd.data.take dirSiz).take bufsiz.toNat)

def entry (s : Ram P) (dir : Ino) (component : Path) : Option (Path × Ino) :=
  (s.dents dir).find? (·.1 = component.take (dirSiz - 1))

end Ram

variable {P : Type} [DecidableEq P] [Fintype P] {s s₁ s₂ : Ram P} {ops : List (FsOp P)}
  {out : List Unit} {i : Ino} {target : Path}

def IsLink (i : Ino) (target : Path) (j : Ino) (nd : Node) : Prop :=
  j = i → nd.type = .lnk ∧ nd.data = target

theorem isLink_carries : Ram.Carries (IsLink i target) fun _ => True :=
  ⟨fun _ _ _ h => h,fun _ _ _ h _ => h⟩

theorem isLink_symlink {p : P} {d : Nat} (hnew : s.node i = none)
    (hs : s.step (.symlink p d target path) = some s₁) : s₁.Every (IsLink i target) := by
  obtain ⟨r,-,hs⟩ := bind_eq_some_iff.mp hs
  obtain ⟨⟨t,x⟩,hc,rfl⟩ := map_eq_some_iff.mp hs
  have hbefore : s.Every (IsLink i target) := by
    rintro _ nd hnd rfl
    rw [hnew] at hnd
    cases hnd
  have hmade := hbefore.ramfsCreate isLink_carries (fun _ _ _ => ⟨rfl,rfl⟩) trivial hc
  exact (hmade.release _ _).release _ _

theorem readlink_inverts_symlink_iff {p q : P} {d d' : Nat} {linkpath path : Path} {bufsiz : Int}
    (hlink : s.step (.symlink p d target linkpath) = some s₁) (hnew : s.node i = none)
    (hrun : run Ram.call s₁ ops = some (s₂,out))
    (hstays : Always Ram.call (fun s _ => s.node i ≠ none) s₁ ops)
    (hlive : s₂.node i ≠ none) (hfind : s₂.nameiNofollow q d' path = some i)
    (hsize : (target.length : Int) ≤ bufsiz) :
    s₂.sysReadlink q d' path bufsiz = some target ↔ target.length ≤ dirSiz ∧ 0 < bufsiz := by
  have hevery : s₂.Every (IsLink i target) := by
    refine run_keeps (fun s op s' o h hlive hcall => ?_) (isLink_symlink hnew hlink) hstays hrun
    obtain ⟨_,hs,heq⟩ := map_eq_some_iff.mp hcall
    obtain ⟨rfl,-⟩ := Prod.mk.inj heq
    exact h.edit isLink_carries (fun x _ _ hx he => absurd (he ▸ hx) hlive) (fun _ _ => trivial)
      (Ram.step_edit hs)
  obtain ⟨nd,hnd⟩ := ne_none_iff_exists'.mp hlive
  obtain ⟨htype,hdata⟩ := hevery i nd hnd rfl
  rw [Ram.sysReadlink,hfind,bind_some,hnd,bind_some,if_neg (not_not.mpr htype),hdata,
    ite_none_left_eq_some,Option.some.injEq,take_take,take_eq_self_iff]
  omega

def rootOnly : Ram Unit :=
  ⟨fun i => if i = 0 then some ⟨.dir,[],some 0,[]⟩ else none,0,fun _ => some 0,fun _ => 0⟩

theorem readlink_inverts_symlink_short : ∃ s, rootOnly.step (.symlink () 0 [98,99] [97]) = some s ∧
      s.sysReadlink () 0 [97] 4 = some [98,99] := by
  obtain ⟨s,hs,hok⟩ := (Option.any_eq_true _ _).mp
    (show ((rootOnly.step (.symlink () 0 [98,99] [97])).any fun s =>
      (s.node 1).isSome && decide (s.nameiNofollow () 0 [97] = some 1)) = true by decide +kernel)
  obtain ⟨hlive,hfind⟩ := (Bool.and_eq_true _ _).mp hok
  have hrun : run Ram.call s [] = some (s,[]) := rfl
  exact ⟨s,hs,(readlink_inverts_symlink_iff hs rfl hrun trivial
    (isSome_iff_ne_none.mp hlive) (of_decide_eq_true hfind) (by decide)).mpr (by decide)⟩

theorem readlink_truncates :
    ((rootOnly.step (.symlink () 0 (List.replicate 29 98) [97])).bind fun s =>
      s.sysReadlink () 0 [97] 29) = some (List.replicate 28 98) := by
  decide +kernel

def Good (name : Path) : Prop :=
  name ≠ [] ∧ Ram.special name = false ∧ slash ∉ name ∧ name.length < dirSiz - 1

instance decidableGood (name : Path) : Decidable (Good name) :=
  inferInstanceAs (Decidable (_ ∧ _ ∧ _ ∧ _))

def Named (_ : Ino) (nd : Node) : Prop := ∀ e ∈ nd.dents, Good e.1

theorem named_carries : Ram.Carries Named Good where
  parent _ _ _ h := h
  dents _ _ _ h hl e he := by
    rcases hl e he with hg | ⟨e',he',heq⟩
    · exact hg
    · exact heq ▸ h e' he'

theorem skipelem_name {rest : Path} (h : skipelem path = some (name,rest)) :
    name ≠ [] ∧ slash ∉ name := by
  obtain ⟨hne,heq⟩ := ite_none_left_eq_some.mp h
  cases heq
  refine ⟨?_,fun hm => ?_⟩
  · have hhead := head?_dropWhile_not (· = slash) path
    cases hs : path.dropWhile (· = slash) with
    | nil => exact absurd hs hne
    | cons c l =>
      rw [hs] at hhead
      have hc : c ≠ slash := by simpa using hhead
      simp [hc,dirSiz]
  · simpa using mem_takeWhile_imp (mem_of_mem_take hm)

theorem mem_elems {n : Nat} (h : name ∈ elems n path) : name ≠ [] ∧ slash ∉ name := by
  induction n generalizing path with
  | zero => cases h
  | succ n ih =>
    rw [elems] at h
    cases hs : skipelem path with
    | none =>
      rw [hs] at h
      cases h
    | some r =>
      rw [hs] at h
      rcases mem_cons.mp h with rfl | h
      · exact skipelem_name hs
      · exact ih h

def Plain (op : FsOp P) : Prop :=
  ∀ name ∈ op.newName, name.length < dirSiz - 1 ∧ Ram.special name = false

instance decidablePlain (op : FsOp P) : Decidable (Plain op) :=
  inferInstanceAs (Decidable (∀ name ∈ op.newName, _))

omit [DecidableEq P] [Fintype P] in
theorem Plain.good {op : FsOp P} (h : Plain op) (hn : name ∈ op.newName) :
    Good (name.take (dirSiz - 1)) := by
  obtain ⟨hlen,hsp⟩ := h name hn
  have hmem : ∃ path : Path, name ∈ elems path.length path := by
    cases op <;> first
      | exact ⟨_,mem_of_getLast? (filter_eq_some_iff.mp hn).1⟩
      | exact ⟨_,mem_of_getLast? hn⟩
      | cases hn
  obtain ⟨path,hpath⟩ := hmem
  obtain ⟨hne,hslash⟩ := mem_elems hpath
  rw [take_of_length_le (le_of_lt hlen)]
  exact ⟨hne,hsp,hslash,hlen⟩

omit [DecidableEq P] [Fintype P] in
theorem named_fsInit (h : Ram.fsInit = some s) : s.Every Named := by
  have hfresh : ∀ {s : Ram P} {t : FileType} {data : List UInt8} (x : Ino), s.node x = none →
      Named x ⟨t,[],none,data⟩ := fun _ _ e he => by cases he
  unfold Ram.fsInit at h
  obtain ⟨⟨s₁,root⟩,h₁,h⟩ := bind_eq_some_iff.mp h
  obtain ⟨⟨s₂,dev⟩,h₂,h⟩ := bind_eq_some_iff.mp h
  obtain ⟨s₃,h₃,h⟩ := bind_eq_some_iff.mp h
  obtain ⟨⟨s₄,console⟩,h₄,h⟩ := bind_eq_some_iff.mp h
  obtain ⟨s₅,h₅,h⟩ := bind_eq_some_iff.mp h
  obtain ⟨⟨s₆,x⟩,h₆,rfl⟩ := map_eq_some_iff.mp h
  have hroot : s₁.Every Named := Ram.Every.ialloc (fun i nd hnd => by cases hnd) hfresh h₁
  have hset : ∀ nd : Node, Named root nd → Named root { nd with parent := some root } :=
    fun _ hnd => hnd
  have hdev : s₂.Every Named := by
    refine Ram.Every.ialloc ?_ hfresh h₂
    exact hroot.modify hset
  have hcon := (hdev.dAdd named_carries (by decide +kernel) h₃).ialloc hfresh h₄
  exact (hcon.dAdd named_carries (by decide +kernel) h₅).ramfsCreate named_carries hfresh
    (by decide +kernel) h₆

theorem ramfs_names_distinct {s₀ : Ram P} (hinit : Ram.fsInit = some s₀)
    (hplain : Always Ram.call (fun _ op => Plain op) s₀ ops)
    (hrun : run Ram.call s₀ ops = some (s,out)) :
    (∀ dir a b e, a ≠ b → s.entry dir a = some e → s.entry dir b ≠ some e) ∧
      ∀ dir, ∀ e ∈ s.dents dir, e.1 ≠ [] ∧ Ram.special e.1 = false ∧ slash ∉ e.1 := by
  have hevery : s.Every Named := by
    refine run_keeps (fun s op s' o h hgood hcall => ?_) (named_fsInit hinit) hplain hrun
    obtain ⟨_,hs,heq⟩ := map_eq_some_iff.mp hcall
    obtain ⟨rfl,-⟩ := Prod.mk.inj heq
    exact h.edit named_carries (fun _ _ _ _ e he => by cases he) (fun _ => hgood.good)
      (Ram.step_edit hs)
  have hgood : ∀ dir, ∀ e ∈ s.dents dir, Good e.1 := by
    intro dir e he
    rw [Ram.dents] at he
    cases hnd : s.node dir with
    | none =>
      rw [hnd] at he
      cases he
    | some nd =>
      rw [hnd] at he
      exact hevery dir nd hnd e he
  have hname : ∀ {dir a e}, s.entry dir a = some e → e.1 = a := by
    intro dir a e h
    have hlen := (hgood dir e (mem_of_find?_eq_some h)).2.2.2
    have heq := find?_some h
    rw [decide_eq_true_eq] at heq
    rw [heq,length_take] at hlen
    rw [heq,take_of_length_le (by omega)]
  refine ⟨fun dir a b e hab ha hb => hab ((hname ha).symm.trans (hname hb)),fun dir e he => ?_⟩
  obtain ⟨hne,hsp,hslash,-⟩ := hgood dir e he
  exact ⟨hne,hsp,hslash⟩

theorem ramfs_names_distinct_made : ∃ (s₀ s : Ram Unit) (out : List Unit), Ram.fsInit = some s₀ ∧
    run Ram.call s₀ [.mkdir () 0 [47,97],.mknod () 0 [47,97,47,98]] = some (s,out) ∧
      ∀ dir, ∀ e ∈ s.dents dir, e.1 ≠ [] ∧ Ram.special e.1 = false ∧ slash ∉ e.1 := by
  obtain ⟨s₀,h₀,hr⟩ := bind_eq_some_iff.mp
    (show (Ram.fsInit.bind fun s : Ram Unit => (run Ram.call s
      [.mkdir () 0 [47,97],.mknod () 0 [47,97,47,98]]).map fun _ => ()) = some () by decide +kernel)
  obtain ⟨⟨s,out⟩,hrun,-⟩ := map_eq_some_iff.mp hr
  exact ⟨s₀,s,out,h₀,hrun,(ramfs_names_distinct h₀ (always_of_mem (by decide) s₀) hrun).2⟩

theorem ramfs_names_collide :
    ((Ram.fsInit (P := Unit)).bind fun s => (s.step (.mknod () 0 [47,46])).map fun s =>
        decide ([dot] ∈ (s.dents 0).map (·.1))) = some true ∧
      ((Ram.fsInit (P := Unit)).bind fun s =>
        (s.step (.create () 0 (47 :: List.replicate 27 97) .other)).map fun s =>
          decide ((s.entry 0 (List.replicate 27 97)).isSome ∧
            s.entry 0 (List.replicate 27 97) = s.entry 0 (List.replicate 28 97))) = some true := by
  decide +kernel

end TinyOs.Fs
