import TinyOs.Fs.RamfsEdit

namespace TinyOs.Fs

open List Option Machine
open Function (update update_eq_self update_eq_self_iff update_of_ne update_self)

variable {P : Type} {s s' : Ram P} {i j dir ip : Ino} {name : Path} {nl : Ino → Nat}

namespace Linked

variable [DecidableEq P] [Fintype P]

def call (x : Linked P) (op : FsOp P) : Option (Linked P × Unit) :=
  (x.ram.step op).map fun s => (⟨s,x.nlinkAfter op⟩,())

def Tidy (x : Linked P) (op : FsOp P) : Prop := x.ram.Proper op ∧
    match op with
    | .rename p d oldpath newpath =>
      ∀ old ∈ x.ram.place p d oldpath, ∀ new ∈ x.ram.place p d newpath,
        ∀ t ∈ x.ram.dLookup new.1 new.2, x.ram.dLookup old.1 old.2 ≠ some t →
          x.ram.kind t ≠ some .dir → x.ram.view.links t = 1 ∧ x.ram.files t = 0
    | _ => True

instance decidableTidy (x : Linked P) (op : FsOp P) : Decidable (x.Tidy op) := by
  apply FsOp.casesOn (motive := fun op => Decidable (x.Tidy op)) op <;> intros <;> unfold Tidy <;>
    infer_instance

end Linked

def Counted (s : Ram P) (nl : Ino → Nat) : Prop :=
  ∀ j, s.kind j ≠ none → s.kind j ≠ some .dir → nl j = s.view.links j

namespace Counted

variable {data : List UInt8} {l : List (Path × Ino)}

theorem same (h : Counted s nl) (hsame : ∀ j, s'.kind j ≠ none → s'.kind j ≠ some .dir →
      s'.kind j = s.kind j ∧ s'.view.links j = s.view.links j) : Counted s' nl := by
  intro j hlive hdir
  obtain ⟨hk,hl⟩ := hsame j hlive hdir
  rw [hl]
  exact h j (hk ▸ hlive) (hk ▸ hdir)

theorem release [Fintype P] (htree : s.view.Tree) (h : Counted s nl) (busy : List Ino) (i : Ino) :
    Counted (s.release busy i) nl := by
  rcases htree.release_eq busy i with heq | ⟨href,hroot,-,heq⟩
  · rwa [heq]
  rw [heq]
  have hno : ¬ s.view.Attached i := by
    rintro (hr | hp)
    · exact hroot hr
    · obtain ⟨x,e,he,hei⟩ := View.exists_mem_of_links_pos hp
      exact href (.inr (.inr ⟨x,e,he,hei⟩))
  have hview := Ram.free_view (s := s) (i := i)
  obtain ⟨t,ht⟩ : ∃ t : Ram P, t = { s with node := update s.node i none } := ⟨_,rfl⟩
  rw [← ht] at hview ⊢
  have hdents : t.view.dents = s.view.dents := by
    rw [hview]
    exact update_eq_self_iff.mpr (htree.dents_eq_nil hno).symm
  refine h.same fun j hlive _ => ⟨?_,by rw [View.links,View.links,hdents]⟩
  have hkind : t.kind = update s.kind i none := congrArg View.kind hview
  rw [hkind] at hlive ⊢
  by_cases hj : j = i
  · rw [hj,update_self] at hlive
    exact absurd rfl hlive
  · rw [update_of_ne hj]

theorem added {s₁ : Ram P} {t : FileType} (htree : s.view.Tree)
    (h : Counted s nl) (halloc : s.ialloc t data = some (s₁,i))
    (hadd : s₁.dAdd dir name i = some s') {k : Nat} (hk : t ≠ .dir → k = 1) :
    Counted s' (update nl i k) := by
  have hview := Ram.added_view halloc hadd
  have hkind : s'.kind = update s.kind i (some t) := congrArg View.kind hview
  have hcount := View.links_update s.view s'.view dir _ (congrArg View.dents hview)
  intro j hlive hdir
  have hlinks := hcount j
  rw [hkind] at hlive hdir
  by_cases hj : j = i
  · subst hj
    rw [update_self] at hdir ⊢
    have hzero : s.view.links j = 0 := by
      by_contra hpos
      obtain ⟨x,e,he,rfl⟩ := View.exists_mem_of_links_pos (pos_of_ne_zero hpos)
      exact (htree.holds x e he).2.1 (Ram.ialloc_spec halloc).1
    rw [countP_cons_of_pos (by simp)] at hlinks
    change _ + (s.dents dir).countP _ = _ at hlinks
    rw [hk fun ht => hdir (ht ▸ rfl)]
    omega
  · rw [update_of_ne hj] at hlive hdir ⊢
    rw [countP_cons_of_neg (by simpa using Ne.symm hj)] at hlinks
    rw [h j hlive hdir]
    exact (add_right_cancel hlinks).symm

theorem created {t : FileType} (htree : s.view.Tree) (h : Counted s nl)
    (hc : s.ramfsCreate dir name t data = some (s',i)) {k : Nat} (hk : t ≠ .dir → k = 1) :
    s.newIno = some i ∧ Counted s' (update nl i k) := by
  obtain ⟨s₁,halloc,hadd⟩ := Ram.ramfsCreate_eq hc
  refine ⟨?_,h.added htree halloc hadd hk⟩
  obtain ⟨y,hy,heq⟩ := map_eq_some_iff.mp halloc
  rw [← (Prod.mk.inj heq).2]
  exact hy

theorem linked (h : Counted s nl) (hlive : s.kind ip ≠ none) (hdir : s.kind ip ≠ some .dir)
    (hadd : s.dAdd dir name ip = some s') : Counted s' (update nl ip (nl ip + 1)) := by
  obtain ⟨-,hview⟩ := Ram.dAdd_view hlive hadd
  have hkind : s'.kind = s.kind := congrArg View.kind hview
  have hcount := View.links_update s.view s'.view dir _ (congrArg View.dents hview)
  intro j hlive' hdir'
  have hlinks := hcount j
  change _ + (s.dents dir).countP _ = _ at hlinks
  rw [hkind] at hlive' hdir'
  by_cases hj : j = ip
  · subst hj
    rw [countP_cons_of_pos (by simp)] at hlinks
    rw [update_self,h j hlive hdir]
    omega
  · rw [countP_cons_of_neg (by simpa using Ne.symm hj)] at hlinks
    rw [update_of_ne hj,h j hlive' hdir']
    omega

theorem unlinked (h : Counted s nl) (hu : Unlinked s s' dir ip l)
    (hlive : s.kind ip ≠ none) (hdir : s.kind ip ≠ some .dir) :
    Counted s' (update nl ip (nl ip - 1)) := by
  intro j hlive' hdir'
  by_cases hj : j = ip
  · subst hj
    have := hu.count hlive'
    rw [update_self,h j hlive hdir]
    omega
  · rw [update_of_ne hj,hu.links j hj]
    rw [hu.kind j hj] at hlive' hdir'
    exact h j hlive' hdir'

theorem removed (h : Counted s nl) (hu : Unlinked s s' dir ip l)
    (hgone : s'.kind ip = none ∨ s'.kind ip = some .dir) : Counted s' nl := by
  refine h.same fun j hlive hdir => ?_
  have hj : j ≠ ip := by
    rintro rfl
    exact hgone.elim hlive hdir
  exact ⟨hu.kind j hj,hu.links j hj⟩

end Counted

variable [Fintype P] {busy : List Ino} {oldDir newDir : Ino} {oldName newName : Path}

theorem Ram.dUnlink_frees (h : s.view.Tree) (hl : s.dLookup dir name = some ip)
    (hdir : s.kind ip ≠ some .dir) (hlinks : s.view.links ip = 1) (hfiles : s.files ip = 0)
    (hbusy : ip ∉ busy) (hu : s.dUnlink busy dir name = some s') : s'.kind ip = none := by
  obtain ⟨l₁,l₂,e,t,hd,rfl,-,htf,hview,hu⟩ := dUnlink_eq hl hu
  have hmem : e ∈ s.dents dir := by rw [hd]; simp
  have hcount := View.links_update s.view t.view dir _ (congrArg View.dents hview) e.2
  rw [show s.view.dents dir = l₁ ++ e :: l₂ from hd,countP_append,countP_append,
    countP_cons_of_pos (by simp)] at hcount
  have hnil : t.dents e.2 = [] := by
    refine eq_nil_iff_forall_not_mem.mpr fun e' he' => hdir ?_
    rw [show t.dents = update s.dents dir (l₁ ++ l₂) from congrArg View.dents hview,
      update_of_ne (h.self_entry hmem)] at he'
    exact (h.holds _ e' he').1
  have hno : ¬ (t.referenced e.2 ∨ e.2 = t.root ∨ e.2 ∈ busy) := by
    rintro ((hf | ⟨p,hp⟩ | ⟨x,e',he',heq⟩) | hr | hb)
    · rw [htf] at hf
      exact hf.ne' hfiles
    · have hcwd : s.view.isCwd e.2 := congrArg View.isCwd hview ▸ ⟨p,hp⟩
      exact hdir (h.cwd e.2 hcwd).1
    · have := View.links_pos_of_mem (v := t.view) he'
      rw [heq] at this
      omega
    · exact (h.holds dir e hmem).2.2 (hr.trans (congrArg View.root hview))
    · exact hbusy hb
  rw [hu,release,iput,if_neg hno,hnil,foldl_nil,kind]
  dsimp only
  rw [update_self]
  rfl

theorem Ram.moveEntry_links (h : s.view.Tree) (hold : s.kind oldDir = some .dir)
    (hl : oldDir ≠ newDir → s.dLookup oldDir oldName = some ip)
    (hm : s.moveEntry oldDir oldName newDir newName ip = some s') (j : Ino) :
    s'.kind j = s.kind j ∧ s'.view.links j = s.view.links j := by
  rcases h.moveEntry_view hold hl hm with ⟨htargets,hview⟩ | ⟨hne,l₁,l₂,e,w,hd,rfl,-,hview⟩
  · exact ⟨congrFun (congrArg View.kind hview) j,View.links_relabel htargets j⟩
  refine ⟨congrFun (congrArg View.kind hview) j,?_⟩
  refine View.links_move hne hd (congrArg View.dents hview) ?_ j
  rfl

theorem Counted.replaced {t : Ino} {s₁ : Ram P} (h : s.view.Tree) (hcount : Counted s nl)
    (hold : s.kind oldDir = some .dir) (hnew : s.kind newDir = some .dir)
    (hl : s.dLookup oldDir oldName = some ip) (ht : s.dLookup newDir newName = some t)
    (hgone : s.kind t = some .dir → s.dents t = [] ∧ ¬ s.view.isCwd t)
    (honly : s.kind t ≠ some .dir → s.view.links t = 1 ∧ s.files t = 0)
    (hu : s.dUnlink [oldDir,newDir] newDir newName = some s₁)
    (hm : s₁.moveEntry oldDir oldName newDir newName ip = some s') : Counted s' nl := by
  have hun := Ram.dUnlink_spec h ht hgone hu
  have hgone' : s₁.kind t = none ∨ s₁.kind t = some .dir := by
    by_cases hk : s.kind t = some .dir
    · exact hun.kept.imp id (·.trans hk)
    have hbusy : t ∉ [oldDir,newDir] := by
      simp only [mem_cons,not_mem_nil,or_false]
      rintro (rfl | rfl)
      · exact hk hold
      · exact hk hnew
    exact .inl (Ram.dUnlink_frees h ht hk (honly hk).1 (honly hk).2 hbusy hu)
  have htold := View.Tree.ne_of_lookup hl (h.dents_nil_of_gone hgone)
  refine (hcount.removed hun hgone').same fun j _ _ => Ram.moveEntry_links hun.tree ?_ ?_ hm j
  · rw [hun.kind oldDir htold,hold]
  · intro hdiff
    rw [← hl,Ram.dLookup,Ram.dLookup,hun.kind oldDir htold,hun.dents oldDir hdiff htold]

theorem Counted.renamed (h : s.view.Tree) (hcount : Counted s nl)
    (hok : s.Movable oldDir oldName newDir newName)
    (honly : ∀ t ∈ s.dLookup newDir newName, s.dLookup oldDir oldName ≠ some t →
      s.kind t ≠ some .dir → s.view.links t = 1 ∧ s.files t = 0)
    (hr : s.ramfsRename oldDir oldName newDir newName = some s') : Counted s' nl := by
  obtain ⟨hold,hnew,ip,hl,rfl | hr | ⟨t,s₁,ht,hne,hgone,hu,hm⟩⟩ := Ram.ramfsRename_eq hr
  · exact hcount
  · exact hcount.same fun j _ _ => Ram.moveEntry_links h hold (fun _ => hl) hr j
  · exact hcount.replaced h hold hnew hl ht
      (fun hk => ⟨(hgone hk).2,hok.not_cwd hl ht hne (hgone hk).1⟩)
      (honly t ht (by rw [hl]; exact fun he => hne (Option.some.inj he).symm)) hu hm

variable [DecidableEq P]

theorem Counted.edit (h : s.view.Tree) (hcount : Counted s nl) {op : FsOp P}
    (hok : Linked.Tidy ⟨s,nl⟩ op) (he : s.Edit op s') :
    Counted s' (Linked.nlinkAfter ⟨s,nl⟩ op) := by
  induction he with
  | same hnl | cwd _ _ _ hnl =>
    rw [hnl]
    exact hcount
  | created _ _ hc hk hnl =>
    obtain ⟨hnew,hcount⟩ := hcount.created h hc hk
    rw [hnl,hnew]
    exact hcount
  | linked hx hnd _ _ hadd hnl =>
    rw [hnl]
    exact hcount.linked (h.kind_of_attached (h.namei_attached hx)) hnd hadd
  | unlinked hl hgone hu hnl =>
    have hun := Ram.dUnlink_spec h hl hgone hu
    rw [hnl]
    split
    · exact hcount.removed hun (hun.kept.imp id (·.trans ‹_›))
    · exact hcount.unlinked hun (h.kind_of_attached (h.attached_of_dLookup hl)) ‹_›
  | renamed hop hold hnew hr =>
    subst hop
    exact hcount.renamed h (hok.1 _ hold _ hnew) (hok.2 _ hold _ hnew) hr
  | files f _ ih => exact ih
  | released busy i he ih => exact ih.release (h.edit hok.1 he) busy i

omit [Fintype P] [DecidableEq P] in
theorem Counted.fsInit {s : Ram P} (h : Ram.fsInit = some s) :
    s.view.Tree ∧ Counted s fun _ => 1 := by
  refine View.Tree.fsInit_rec (Q := fun s => Counted s fun _ => 1) h ?_ ?_
  · intro t _ hdir j hlive hnd
    exact ((hdir j).elim hlive hnd).elim
  · intro s s₁ s' i dir t data name htree hcount halloc hadd
    have := hcount.added htree halloc hadd (k := 1) fun _ => rfl
    rwa [update_eq_self] at this

theorem nlink_counts_dentries (s : Ram P) (x : Linked P) (ops : List (FsOp P)) (out : List Unit)
    (hinit : Ram.fsInit = some s) (hok : Always Linked.call Linked.Tidy ⟨s,fun _ => 1⟩ ops)
    (hrun : run Linked.call ⟨s,fun _ => 1⟩ ops = some (x,out)) (i : Ino)
    (hlive : x.ram.kind i ≠ none) (hdir : x.ram.kind i ≠ some .dir) :
    x.nlink i = x.ram.view.links i := by
  refine (run_history (I := fun _ x => x.ram.view.Tree ∧ Counted x.ram x.nlink) ?_
    (Counted.fsInit hinit) hok hrun).2 i hlive hdir
  rintro _ x op x' _ ⟨htree,hcount⟩ hgood hcall
  obtain ⟨t,ht,heq⟩ := map_eq_some_iff.mp hcall
  cases heq
  have he := Ram.step_edit ht
  exact ⟨htree.edit hgood.1 he,hcount.edit htree hgood he⟩

theorem nlink_counts_dentries_linked : ∃ (s : Ram Unit) (x : Linked Unit) (ops : List (FsOp Unit))
    (out : List Unit), Ram.fsInit = some s ∧
      run Linked.call ⟨s,fun _ => 1⟩ ops = some (x,out) ∧
      x.ram.dLookup x.ram.root [101] = some 4 ∧ x.nlink 4 = x.ram.view.links 4 := by
  obtain ⟨ops,hops⟩ : ∃ ops : List (FsOp Unit), ops =
      [.mknod () 0 [47,97],.link () 0 [47,97] [47,98],.mknod () 0 [47,99],
        .rename () 0 [47,99] [47,100],.rename () 0 [47,97] [47,101],.unlink () 0 [47,98]] := ⟨_,rfl⟩
  obtain ⟨s,hs,hr⟩ := bind_eq_some_iff.mp
    (show (Ram.fsInit.bind fun s => (run Linked.call ⟨s,fun _ => 1⟩ ops).map fun r =>
      decide (Always Linked.call Linked.Tidy ⟨s,fun _ => 1⟩ ops ∧
        r.1.ram.dLookup r.1.ram.root [101] = some 4 ∧ r.1.ram.kind 4 ≠ none ∧
        r.1.ram.kind 4 ≠ some .dir)) = some true by
      subst hops; decide +kernel)
  obtain ⟨⟨x,out⟩,hrun,hall⟩ := map_eq_some_iff.mp hr
  obtain ⟨hok,hl,hlive,hdir⟩ := of_decide_eq_true hall
  exact ⟨s,x,ops,out,hs,hrun,hl,nlink_counts_dentries s x ops out hs hok hrun 4 hlive hdir⟩

theorem rename_keeps_nlink : ∃ (s : Ram Unit) (x : Linked Unit) (out : List Unit),
    Ram.fsInit = some s ∧
      run Linked.call ⟨s,fun _ => 1⟩ [.mknod () 0 [47,97],.link () 0 [47,97] [47,98],
        .mknod () 0 [47,99],.rename () 0 [47,99] [47,97]] = some (x,out) ∧
      x.ram.kind 4 = some .other ∧ x.nlink 4 = 2 ∧ x.ram.view.links 4 = 1 := by
  obtain ⟨s,hs,hr⟩ := bind_eq_some_iff.mp
    (show (Ram.fsInit.bind fun s : Ram Unit => (run Linked.call ⟨s,fun _ => 1⟩
      [.mknod () 0 [47,97],.link () 0 [47,97] [47,98],.mknod () 0 [47,99],
        .rename () 0 [47,99] [47,97]]).map fun r =>
      decide (r.1.ram.kind 4 = some .other ∧ r.1.nlink 4 = 2 ∧ r.1.ram.view.links 4 = 1)) =
        some true by decide +kernel)
  obtain ⟨⟨x,out⟩,hrun,hall⟩ := map_eq_some_iff.mp hr
  exact ⟨s,x,out,hs,hrun,of_decide_eq_true hall⟩

end TinyOs.Fs
