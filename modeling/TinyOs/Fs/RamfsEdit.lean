import TinyOs.Fs.RamfsRun

namespace TinyOs.Fs

open Function (update update_of_ne update_self)
open Forest List Option Machine

variable {P : Type} {s s' : Ram P} {i j dir ip : Ino} {name : Path}

structure Linked (P : Type) where
  ram : Ram P
  nlink : Ino → Nat

def Ram.newIno (s : Ram P) : Option Ino := (List.finRange nInode).find? fun i => (s.node i).isNone

def Linked.nlinkAfter [DecidableEq P] [Fintype P] (x : Linked P) : FsOp P → Ino → Nat
  | .mkdir .. => x.ram.newIno.elim x.nlink fun i => update x.nlink i 2
  | .create .. | .mknod .. | .symlink .. =>
    x.ram.newIno.elim x.nlink fun i => update x.nlink i 1
  | .link p d oldpath _ =>
    (x.ram.namei p d oldpath).elim x.nlink fun ip => update x.nlink ip (x.nlink ip + 1)
  | .unlink p d path =>
    ((x.ram.place p d path).bind fun (dp,name) => x.ram.dLookup dp name).elim x.nlink fun ip =>
      update x.nlink ip (x.nlink ip - 1)
  | _ => x.nlink

def FsOp.newName : FsOp P → Option Path
  | .mkdir _ _ path | .symlink _ _ _ path | .link _ _ _ path | .rename _ _ _ path =>
    (elems path.length path).getLast?.filter fun name => !Ram.special name
  | .create _ _ path _ | .mknod _ _ path => (elems path.length path).getLast?
  | _ => none

namespace Ram

theorem nameiParent_name {p : P} {d : Nat} {path : Path} {r : Ino × Path}
    (h : s.nameiParent p d path = some r) : r.2 ∈ (elems path.length path).getLast? := by
  obtain ⟨dp,-,h⟩ := bind_eq_some_iff.mp h
  obtain ⟨name,hname,rfl⟩ := map_eq_some_iff.mp h
  exact hname

theorem place_name {p : P} {d : Nat} {path : Path} {r : Ino × Path}
    (h : s.place p d path = some r) :
    r.2 ∈ (elems path.length path).getLast?.filter fun name => !special name := by
  obtain ⟨hr,hp⟩ := filter_eq_some_iff.mp h
  exact filter_eq_some_iff.mpr ⟨nameiParent_name hr,hp⟩

variable [DecidableEq P] [Fintype P]

instance (s : Ram P) (oldDir : Ino) (oldName : Path) (newDir : Ino) (newName : Path) :
    Decidable (s.Movable oldDir oldName newDir newName) :=
  inferInstanceAs (Decidable (∀ _, _ → _ → _))

def Proper (s : Ram P) : FsOp P → Prop
  | .rename p d oldpath newpath =>
    ∀ old ∈ s.place p d oldpath, ∀ new ∈ s.place p d newpath, s.Movable old.1 old.2 new.1 new.2
  -- A directory that is open may have been removed since.
  | .fchdir _ i => s.view.Attached i
  | _ => True

instance (s : Ram P) : (op : FsOp P) → Decidable (s.Proper op)
  | .rename p d oldpath newpath =>
    inferInstanceAs (Decidable (∀ old ∈ s.place p d oldpath, ∀ new ∈ s.place p d newpath,
      s.Movable old.1 old.2 new.1 new.2))
  | .fchdir _ i => inferInstanceAs (Decidable (i = s.view.root ∨ 0 < s.view.links i))
  | .mkdir .. | .create .. | .mknod .. | .symlink .. | .link .. | .unlink .. | .rmdir ..
  | .open .. | .close .. | .chdir .. | .fork .. | .exit .. => .isTrue trivial

inductive Edit (s : Ram P) (op : FsOp P) : Ram P → Prop
  | same (hnl : ∀ nl, Linked.nlinkAfter ⟨s,nl⟩ op = nl) : Edit s op s
  | cwd (p : P) (v : Option Ino) (hv : ∀ i ∈ v, (∃ q, s.cwd q = some i) ∨
      s.kind i = some .dir ∧ (op = .fchdir p i ∨ ∃ p d path, s.namei p d path = some i))
      (hnl : ∀ nl, Linked.nlinkAfter ⟨s,nl⟩ op = nl) : Edit s op { s with cwd := update s.cwd p v }
  | created {p : P} {d : Nat} {path name : Path} {dir i : Ino} {type : FileType}
      {data : List UInt8} {t : Ram P} {k : Nat} (hplace : s.nameiParent p d path = some (dir,name))
      (hname : name ∈ op.newName) (hc : s.ramfsCreate dir name type data = some (t,i))
      (hk : type ≠ .dir → k = 1)
      (hnl : ∀ nl, Linked.nlinkAfter ⟨s,nl⟩ op = s.newIno.elim nl fun i => update nl i k) :
      Edit s op t
  | linked {p : P} {d : Nat} {oldpath newpath name : Path} {dir ip : Ino} {t : Ram P}
      (hx : s.namei p d oldpath = some ip) (hnd : s.kind ip ≠ some .dir)
      (hplace : s.nameiParent p d newpath = some (dir,name)) (hname : name ∈ op.newName)
      (hadd : s.dAdd dir name ip = some t)
      (hnl : ∀ nl, Linked.nlinkAfter ⟨s,nl⟩ op = update nl ip (nl ip + 1)) : Edit s op t
  | unlinked {dir ip : Ino} {name : Path} {busy : List Ino} {t : Ram P}
      (hl : s.dLookup dir name = some ip)
      (hgone : s.kind ip = some .dir → s.dents ip = [] ∧ ¬ s.isCwd ip)
      (hu : s.dUnlink busy dir name = some t)
      (hnl : ∀ nl, Linked.nlinkAfter ⟨s,nl⟩ op =
        if s.kind ip = some .dir then nl else update nl ip (nl ip - 1)) : Edit s op t
  | renamed {p : P} {d : Nat} {oldpath newpath : Path} {old new : Ino × Path} {t : Ram P}
      (hop : op = .rename p d oldpath newpath) (hold : s.place p d oldpath = some old)
      (hnew : s.place p d newpath = some new)
      (hr : s.ramfsRename old.1 old.2 new.1 new.2 = some t) : Edit s op t
  | files {t : Ram P} (f : Ino → Nat) (he : Edit s op t) : Edit s op { t with files := f }
  | released {t : Ram P} (busy : List Ino) (i : Ino) (he : Edit s op t) :
      Edit s op (t.release busy i)

theorem setCwd_edit {op : FsOp P} {p : P} (hs : s.setCwd p i = some s')
    (hi : op = .fchdir p i ∨ ∃ p d path, s.namei p d path = some i)
    (hnl : ∀ nl, Linked.nlinkAfter ⟨s,nl⟩ op = nl) : s.Edit op s' := by
  obtain ⟨hdir,⟨⟩⟩ := ite_none_right_eq_some.mp hs
  have hcwd : s.Edit op { s with cwd := update s.cwd p (some i) } :=
    .cwd p (some i) (fun j hj => Option.some.inj hj ▸ .inr ⟨hdir,hi⟩) hnl
  cases s.cwd p with
  | none => exact hcwd
  | some old => exact .released _ _ hcwd

theorem step_edit {op : FsOp P} (hs : s.step op = some s') : s.Edit op s' := by
  cases op with
  | mkdir p d path =>
    obtain ⟨⟨dp,nm⟩,hplace,hs⟩ := bind_eq_some_iff.mp hs
    obtain ⟨⟨s₁,x⟩,hc,rfl⟩ := map_eq_some_iff.mp hs
    exact .released _ _ (.released _ _ (.created (filter_eq_some_iff.mp hplace).1
      (place_name hplace) hc (fun hd => absurd rfl hd) fun _ => rfl))
  | symlink p d target path =>
    obtain ⟨⟨dp,nm⟩,hplace,hs⟩ := bind_eq_some_iff.mp hs
    obtain ⟨⟨s₁,x⟩,hc,rfl⟩ := map_eq_some_iff.mp hs
    exact .released _ _ (.released _ _ (.created (filter_eq_some_iff.mp hplace).1
      (place_name hplace) hc (fun _ => rfl) fun _ => rfl))
  | create p d path type =>
    obtain ⟨⟨dp,nm⟩,hplace,hs⟩ := bind_eq_some_iff.mp hs
    obtain ⟨⟨s₁,x⟩,hc,rfl⟩ := map_eq_some_iff.mp hs
    exact .released _ _ (.files _ (.created hplace (nameiParent_name hplace) hc (fun _ => rfl)
      fun _ => rfl))
  | mknod p d path =>
    obtain ⟨⟨dp,nm⟩,hplace,hs⟩ := bind_eq_some_iff.mp hs
    obtain ⟨⟨s₁,x⟩,hc,rfl⟩ := map_eq_some_iff.mp hs
    exact .released _ _ (.released _ _ (.created hplace (nameiParent_name hplace) hc (fun _ => rfl)
      fun _ => rfl))
  | link p d oldpath newpath =>
    obtain ⟨x,hx,hs⟩ := bind_eq_some_iff.mp hs
    obtain ⟨hnd,hs⟩ := ite_none_left_eq_some.mp hs
    obtain ⟨⟨dp,nm⟩,hplace,hs⟩ := bind_eq_some_iff.mp hs
    obtain ⟨s₁,hadd,rfl⟩ := map_eq_some_iff.mp hs
    refine .released _ _ (.released _ _ (.linked hx hnd (filter_eq_some_iff.mp hplace).1
      (place_name hplace) hadd fun nl => ?_))
    rw [Linked.nlinkAfter,hx,elim_some]
  | unlink p d path =>
    obtain ⟨⟨dp,nm⟩,hplace,hs⟩ := bind_eq_some_iff.mp hs
    obtain ⟨x,hl,hs⟩ := bind_eq_some_iff.mp hs
    obtain ⟨hnd,hs⟩ := ite_none_left_eq_some.mp hs
    obtain ⟨s₁,hu,rfl⟩ := map_eq_some_iff.mp hs
    refine .released _ _ (.unlinked hl (fun hk => absurd hk hnd) hu fun nl => ?_)
    rw [Linked.nlinkAfter,hplace,bind_some,if_neg hnd]
    dsimp only
    rw [hl,elim_some]
  | rmdir p d path =>
    obtain ⟨⟨dp,nm⟩,-,hs⟩ := bind_eq_some_iff.mp hs
    obtain ⟨x,hl,hs⟩ := bind_eq_some_iff.mp hs
    obtain ⟨hg,hs⟩ := ite_none_left_eq_some.mp hs
    obtain ⟨hdir,-,hcwd,hnil⟩ : s.kind x = some .dir ∧ x ≠ s.root ∧ ¬ s.isCwd x ∧
        s.dents x = [] := by
      simpa only [not_or,ne_eq,not_not] using hg
    obtain ⟨s₁,hu,rfl⟩ := map_eq_some_iff.mp hs
    exact .released _ _ (.unlinked hl (fun _ => ⟨hnil,hcwd⟩) hu fun nl => (if_pos hdir).symm)
  | rename p d oldpath newpath =>
    obtain ⟨old,hold,hs⟩ := bind_eq_some_iff.mp hs
    obtain ⟨new,hnew,hs⟩ := bind_eq_some_iff.mp hs
    obtain ⟨s₁,hr,rfl⟩ := map_eq_some_iff.mp hs
    exact .released _ _ (.released _ _ (.renamed rfl hold hnew hr))
  | «open» p d path =>
    obtain ⟨x,-,rfl⟩ := map_eq_some_iff.mp hs
    exact .files _ (.same fun _ => rfl)
  | close i =>
    obtain ⟨-,⟨⟩⟩ := ite_none_right_eq_some.mp hs
    exact .released _ _ (.files _ (.same fun _ => rfl))
  | chdir p d path =>
    obtain ⟨x,hx,hs⟩ := bind_eq_some_iff.mp hs
    exact setCwd_edit hs (.inr ⟨p,d,path,hx⟩) fun _ => rfl
  | fchdir p i => exact setCwd_edit (ite_none_right_eq_some.mp hs).2 (.inl rfl) fun _ => rfl
  | fork p q =>
    obtain ⟨-,⟨⟩⟩ := ite_none_right_eq_some.mp hs
    exact .cwd q (s.cwd p) (fun i hi => .inl ⟨p,hi⟩) fun _ => rfl
  | exit p =>
    obtain ⟨x,-,rfl⟩ := map_eq_some_iff.mp hs
    exact .released _ _ (.cwd p none nofun fun _ => rfl)

end Ram

namespace View.Tree

variable [DecidableEq P] [Fintype P]

omit [DecidableEq P] [Fintype P] in
theorem linked (h : s.view.Tree) (hlive : s.kind ip ≠ none) (hnd : s.kind ip ≠ some .dir)
    (hdir : s.kind dir = some .dir) (ha : s.view.Attached dir)
    (hadd : s.dAdd dir name ip = some s') : s'.view.Tree := by
  obtain ⟨-,hview⟩ := Ram.dAdd_view hlive hadd
  rw [hview]
  exact h.link rfl hlive hnd hdir ha rfl rfl rfl rfl

omit [Fintype P] in
theorem update_cwd (h : s.view.Tree) (p : P) {c : Option Ino}
    (hc : ∀ i ∈ c, s.kind i = some .dir ∧ s.view.Attached i) :
    View.Tree (Ram.view { s with cwd := update s.cwd p c }) := by
  refine h.recwd rfl rfl rfl rfl ?_
  rintro i ⟨q,hq⟩
  dsimp only at hq
  by_cases hqp : q = p
  · rw [hqp,update_self] at hq
    exact hc i hq
  · rw [update_of_ne hqp] at hq
    exact h.cwd i ⟨q,hq⟩

theorem edit (h : s.view.Tree) {op : FsOp P} (hok : s.Proper op) (he : s.Edit op s') :
    s'.view.Tree := by
  induction he with
  | same _ => exact h
  | cwd p v hv _ =>
    refine h.update_cwd p fun i hi => ?_
    rcases hv i hi with ⟨q,hq⟩ | ⟨hdir,rfl | ⟨p,d,path,hx⟩⟩
    · exact h.cwd i ⟨q,hq⟩
    · exact ⟨hdir,hok⟩
    · exact ⟨hdir,h.namei_attached hx⟩
  | created hplace _ hc _ _ =>
    obtain ⟨hdir,ha⟩ := h.nameiParent_dir hplace
    exact h.ramfsCreate hdir ha hc
  | linked hx hnd hplace _ hadd _ =>
    obtain ⟨hdir,ha⟩ := h.nameiParent_dir hplace
    exact h.linked (h.kind_of_attached (h.namei_attached hx)) hnd hdir ha hadd
  | unlinked hl hgone hu _ => exact (Ram.dUnlink_spec h hl hgone hu).tree
  | renamed hop hold hnew hr =>
    subst hop
    exact h.ramfsRename (h.place_dir hnew).2 (hok _ hold _ hnew) hr
  | files f _ ih => exact ih
  | released busy i _ ih => exact ih.release busy i

end View.Tree

theorem View.Reaches.attached {v : View} {i : Ino} (h : v.Reaches i) : v.Attached i := by
  cases h with
  | root => exact .inl rfl
  | down _ he => exact .inr (View.links_pos_of_mem he)

section

variable [DecidableEq P] [Fintype P]

theorem ramfs_stays_tree (s s' : Ram P) (ops : List (FsOp P)) (out : List Unit)
    (hinit : Ram.fsInit = some s) (hok : Always Ram.call Ram.Proper s ops)
    (hrun : run Ram.call s ops = some (s',out)) (i : Ino)
    (hdir : s'.kind i = some .dir) (hdent : 0 < s'.view.links i) :
    s'.view.links i = 1 ∧ s'.view.Reaches i ∧ Climbs s'.view.up s'.root i := by
  have htree : s'.view.Tree := by
    refine run_history (I := fun _ s => s.view.Tree) ?_
      (View.Tree.fsInit_rec (Q := fun _ => True) hinit (fun _ _ _ => trivial)
        fun _ _ _ _ _ _ _ _ _ _ _ _ => trivial).1 hok hrun
    intro _ s op s' _ htree hgood hcall
    obtain ⟨t,ht,heq⟩ := map_eq_some_iff.mp hcall
    cases heq
    exact htree.edit hgood (Ram.step_edit ht)
  have honce : s'.view.links i ≤ 1 := htree.once i hdir
  refine ⟨le_antisymm honce hdent,htree.reaches hdir (.inr hdent),?_⟩
  exact htree.climbs_of_attached hdir (.inr hdent)

end

theorem ramfs_stays_tree_moved : ∃ (s s' : Ram Unit) (ops : List (FsOp Unit)) (out : List Unit),
    Ram.fsInit = some s ∧ run Ram.call s ops = some (s',out) ∧
      s'.dLookup 5 [100] = some 6 ∧
      s'.view.links 6 = 1 ∧ s'.view.Reaches 6 ∧ Climbs s'.view.up s'.root 6 := by
  obtain ⟨ops,hops⟩ : ∃ ops : List (FsOp Unit), ops =
      [.mkdir () 0 [47,97],.mkdir () 0 [47,98],.mkdir () 0 [47,97,47,99],
        .rename () 0 [47,97,47,99] [47,98,47,100]] := ⟨_,rfl⟩
  obtain ⟨s,hs,hr⟩ := bind_eq_some_iff.mp
    (show (Ram.fsInit.bind fun s => (run Ram.call s ops).map fun r =>
      decide (Always Ram.call Ram.Proper s ops ∧ r.1.dLookup 5 [100] = some 6 ∧
        r.1.kind 6 = some .dir ∧ 0 < r.1.view.links 6)) = some true by
      subst hops; decide +kernel)
  obtain ⟨⟨s',out⟩,hrun,hall⟩ := map_eq_some_iff.mp hr
  obtain ⟨hok,hl,hdir,hpos⟩ := of_decide_eq_true hall
  exact ⟨s,s',ops,out,hs,hrun,hl,ramfs_stays_tree s s' ops out hs hok hrun 6 hdir hpos⟩

theorem rename_leaves_tree : (∃ (s s' : Ram Unit) (out : List Unit), Ram.fsInit = some s ∧
      run Ram.call s [.mkdir () 0 [47,97],.mkdir () 0 [47,97,47,98],
        .rename () 0 [47,97] [47,97,47,98,47,99]] = some (s',out) ∧
      s'.kind 4 = some .dir ∧ 0 < s'.view.links 4 ∧ ¬ Climbs s'.view.up s'.root 4) ∧
    ∃ (s s' : Ram Unit) (out : List Unit), Ram.fsInit = some s ∧
      run Ram.call s [.mkdir () 0 [47,97],.mkdir () 0 [47,98],.chdir () 0 [47,98],
        .rename () 0 [47,97] [47,98],.mkdir () 0 [99]] = some (s',out) ∧
      s'.kind 6 = some .dir ∧ 0 < s'.view.links 6 ∧ ¬ s'.view.Reaches 6 := by
  constructor
  · obtain ⟨s,hs,hr⟩ := bind_eq_some_iff.mp
      (show (Ram.fsInit.bind fun s : Ram Unit => (run Ram.call s [.mkdir () 0 [47,97],
        .mkdir () 0 [47,97,47,98],.rename () 0 [47,97] [47,97,47,98,47,99]]).map fun r =>
          decide (r.1.kind 4 = some .dir ∧ 0 < r.1.view.links 4 ∧
            ¬ Above r.1.view.up r.1.root 4)) = some true by decide +kernel)
    obtain ⟨⟨s',out⟩,hrun,hall⟩ := map_eq_some_iff.mp hr
    obtain ⟨hdir,hpos,hno⟩ := of_decide_eq_true hall
    exact ⟨s,s',out,hs,hrun,hdir,hpos,hno⟩
  obtain ⟨s,hs,hr⟩ := bind_eq_some_iff.mp
    (show (Ram.fsInit.bind fun s : Ram Unit => (run Ram.call s [.mkdir () 0 [47,97],
      .mkdir () 0 [47,98],.chdir () 0 [47,98],.rename () 0 [47,97] [47,98],
      .mkdir () 0 [99]]).map fun r =>
        decide (r.1.kind 6 = some .dir ∧ 0 < r.1.view.links 6 ∧ r.1.root ≠ 6 ∧
          (∀ i, ∀ e ∈ r.1.dents i, e.2 = 6 → i = 5) ∧ r.1.root ≠ 5 ∧
          r.1.view.links 5 = 0)) = some true by decide +kernel)
  obtain ⟨⟨s',out⟩,hrun,hall⟩ := map_eq_some_iff.mp hr
  obtain ⟨hdir,hpos,hroot,honly,hroot5,hzero⟩ := of_decide_eq_true hall
  refine ⟨s,s',out,hs,hrun,hdir,hpos,fun hreach => ?_⟩
  obtain ⟨j,hj⟩ : ∃ j : Ino, j = 6 := ⟨_,rfl⟩
  rw [← hj] at hreach
  cases hreach with
  | root => exact hroot hj
  | down hi he =>
    rw [honly _ _ he hj] at hi
    rcases hi.attached with hr5 | hp
    · exact hroot5 hr5.symm
    · exact ne_of_gt hp hzero

end TinyOs.Fs
