import TinyOs.Fs.RamfsTree

namespace TinyOs.Fs

open Function (update update_idem update_of_ne update_self)
open Forest List Option

variable {P : Type} {s s' s₁ : Ram P} {i j dir ip : Ino} {name : Path} {t : FileType}
  {data : List UInt8}

namespace Ram

theorem ialloc_spec (h : s.ialloc t data = some (s',i)) :
    s.kind i = none ∧ s'.view = { s.view with
        kind := update s.kind i (some t)
        parent := update s.parent i none } := by
  obtain ⟨x,hx,hr⟩ := map_eq_some_iff.mp h
  cases hr
  have hfree : s.node i = none := by
    have := find?_some hx
    simpa using this
  have hkind : s.kind i = none := by rw [kind,hfree]; rfl
  refine ⟨hkind,?_⟩
  refine View.ext (funext fun x => ?_) (funext fun x => ?_) (funext fun x => ?_) rfl rfl
  · by_cases hx : x = i <;> simp [view,kind,hx]
  · by_cases hx : x = i
    · simp only [view]
      rw [hx,dents_of_free hkind]
      simp [dents]
    · simp [view,dents,hx]
  · by_cases hx : x = i <;> simp [view,parent,hx]

theorem added_view (halloc : s.ialloc t data = some (s₁,i)) (hadd : s₁.dAdd dir name i = some s') :
    s'.view = { s.view with
        kind := update s.kind i (some t)
        dents := update s.dents dir ((name.take (dirSiz - 1),i) :: s.dents dir)
        parent := update s.parent i (some dir) } := by
  obtain ⟨-,hview⟩ := ialloc_spec halloc
  have hkind : s₁.kind = update s.kind i (some t) := congrArg View.kind hview
  have hdents : s₁.dents = s.dents := congrArg View.dents hview
  have hparent : s₁.parent = update s.parent i none := congrArg View.parent hview
  obtain ⟨-,hview'⟩ := dAdd_view (by rw [hkind,update_self]; nofun) hadd
  rw [hdents,hparent,update_self,update_idem,hview] at hview'
  exact hview'

theorem ramfsCreate_eq (h : s.ramfsCreate dir name t data = some (s',i)) :
    ∃ s₁, s.ialloc t data = some (s₁,i) ∧ s₁.dAdd dir name i = some s' := by
  obtain ⟨-,h⟩ := ite_none_right_eq_some.mp h
  obtain ⟨⟨s₁,x⟩,halloc,h⟩ := bind_eq_some_iff.mp h
  obtain ⟨s₂,hadd,heq⟩ := map_eq_some_iff.mp h
  obtain ⟨rfl,rfl⟩ := Prod.mk.inj heq
  exact ⟨s₁,halloc,hadd⟩

end Ram

namespace View.Tree

theorem added (h : s.view.Tree) (hdir : s.kind dir = some .dir) (ha : s.view.Attached dir)
    (halloc : s.ialloc t data = some (s₁,i)) (hadd : s₁.dAdd dir name i = some s') :
    s'.view.Tree := by
  obtain ⟨hfree,-⟩ := Ram.ialloc_spec halloc
  rw [Ram.added_view halloc hadd]
  exact h.create rfl hfree hdir ha rfl rfl rfl rfl

theorem ramfsCreate (h : s.view.Tree) (hdir : s.kind dir = some .dir) (ha : s.view.Attached dir)
    (hc : s.ramfsCreate dir name t data = some (s',i)) : s'.view.Tree := by
  obtain ⟨s₁,halloc,hadd⟩ := Ram.ramfsCreate_eq hc
  exact h.added hdir ha halloc hadd

theorem fsInit_rec {Q : Ram P → Prop} (h : Ram.fsInit = some s)
    (hstart : ∀ t : Ram P, t.view.Tree → (∀ j, t.kind j = none ∨ t.kind j = some .dir) → Q t)
    (hadd : ∀ (s s₁ s' : Ram P) (i dir : Ino) (t : FileType) (data : List UInt8) (name : Path),
      s.view.Tree → Q s → s.ialloc t data = some (s₁,i) → s₁.dAdd dir name i = some s' → Q s') :
    s.view.Tree ∧ Q s := by
  unfold Ram.fsInit at h
  obtain ⟨⟨s₁,root⟩,halloc,h⟩ := bind_eq_some_iff.mp h
  obtain ⟨-,hview⟩ := Ram.ialloc_spec halloc
  obtain ⟨t,ht⟩ : ∃ t : Ram P, t =
      { s₁.modify root fun nd => { nd with parent := some root } with root := root } := ⟨_,rfl⟩
  dsimp only at h
  rw [← ht] at h
  have hkind₁ : s₁.kind = update (fun _ => none) root (some .dir) := congrArg View.kind hview
  have hmod := Ram.modify_parent (s := s₁) (i := root) (fun _ => some root)
    (by rw [hkind₁,update_self]; nofun)
  have hkind : t.kind = update (fun _ => none) root (some .dir) := by
    rw [ht]
    exact (congrArg View.kind hmod).trans hkind₁
  have hdents : t.dents = fun _ => [] := by
    rw [ht]
    exact (congrArg View.dents hmod).trans (congrArg View.dents hview)
  have hparent : t.parent root = some root := by
    have := congrArg View.parent hmod
    rw [ht]
    exact (congrFun this root).trans (update_self ..)
  have hroot : t.root = root := by rw [ht]
  have hno : ∀ i e, e ∉ t.view.dents i := fun i e => show e ∉ t.dents i by simp [hdents]
  have htree : t.view.Tree := by
    refine ⟨?_,?_,fun i e he => absurd he (hno i e),?_,fun i e he => absurd he (hno i e),
      fun i e he => absurd he (hno i e),fun j _ _ => congrFun hdents j,?_⟩
    · change t.kind t.root = _
      rw [hroot,hkind,update_self]
    · change (t.parent t.root).getD t.root = t.root
      rw [hroot,hparent]
      rfl
    · intro j _
      change (∑ i, (t.dents i).countP (·.2 = j)) ≤ 1
      simp [hdents]
    · rintro i ⟨p,hp⟩
      rw [ht] at hp
      cases halloc
      cases hp
  obtain ⟨⟨s₂,dev⟩,hdev,h⟩ := bind_eq_some_iff.mp h
  obtain ⟨s₃,haddDev,h⟩ := bind_eq_some_iff.mp h
  obtain ⟨⟨s₄,console⟩,hconsole,h⟩ := bind_eq_some_iff.mp h
  obtain ⟨s₅,haddConsole,h⟩ := bind_eq_some_iff.mp h
  obtain ⟨⟨s₆,hello⟩,hhello,rfl⟩ := map_eq_some_iff.mp h
  have htree₃ : s₃.view.Tree :=
    htree.added (by rw [hkind,update_self]) (.inl hroot.symm) hdev haddDev
  have hview₃ := Ram.added_view hdev haddDev
  have hview₅ := Ram.added_view hconsole haddConsole
  have hdev₃ : s₃.kind dev = some .dir :=
    (congrFun (congrArg View.kind hview₃) dev).trans (update_self ..)
  have hmem : ("dev".toUTF8.toList.take (dirSiz - 1),dev) ∈ s₃.view.dents root := by
    rw [hview₃]
    simp
  have htree₅ : s₅.view.Tree :=
    htree₃.added hdev₃ (htree₃.attached_of_mem hmem) hconsole haddConsole
  have hQ : Q s₅ := by
    refine hadd _ _ _ _ _ _ _ _ htree₃ (hadd _ _ _ _ _ _ _ _ htree ?_ hdev haddDev) hconsole haddConsole
    refine hstart t htree fun j => ?_
    rw [hkind]
    by_cases hj : j = root <;> simp [hj]
  have hroot' : s₅.root = root :=
    (congrArg View.root hview₅).trans ((congrArg View.root hview₃).trans hroot)
  have hdir : s₅.kind root = some .dir := hroot' ▸ htree₅.root_dir
  refine ⟨htree₅.ramfsCreate hdir (.inl hroot'.symm) hhello,?_⟩
  obtain ⟨s₇,halloc',hadd'⟩ := Ram.ramfsCreate_eq hhello
  exact hadd _ _ _ _ _ _ _ _ htree₅ hQ halloc' hadd'

theorem self_entry (h : s.view.Tree) {e : Path × Ino} (he : e ∈ s.dents dir) : e.2 ≠ dir := by
  intro hed
  obtain ⟨hdir,-,hroot⟩ := h.holds dir e he
  have hk : s.view.kind e.2 = some .dir := by rw [hed]; exact hdir
  obtain ⟨n,hn⟩ := h.climbs dir e he hk
  have hfix : s.view.up e.2 = e.2 := by
    rw [View.up,h.under dir e he hk,getD_some,hed]
  rw [Function.iterate_fixed hfix] at hn
  exact hroot hn

theorem not_above_empty (h : s.view.Tree) {d : Ino} (hd : s.dents d = []) (hroot : d ≠ s.root)
    (hj : s.kind j = some .dir) (ha : s.view.Attached j) (hjd : j ≠ d) :
    ¬ Above s.view.up d j := by
  rintro ⟨n,hn⟩
  induction n generalizing j with
  | zero => exact hjd hn
  | succ n ih =>
    obtain ⟨hk,hup⟩ := h.up_attached hj ha
    refine ih hk hup (fun heq => ?_) hn
    rcases ha with hr | hpos
    · rw [hr,h.root_up] at heq
      exact hroot heq.symm
    obtain ⟨x,e,he,rfl⟩ := View.exists_mem_of_links_pos hpos
    have hpar := h.under x e he hj
    rw [View.up,hpar,getD_some] at heq
    have : e ∈ s.dents d := by rw [← heq]; exact he
    rw [hd] at this
    cases this

end View.Tree

structure Unlinked (s s' : Ram P) (dir ip : Ino) (l : List (Path × Ino)) : Prop where
  tree : s'.view.Tree
  root : s'.root = s.root
  kind : ∀ x, x ≠ ip → s'.kind x = s.kind x
  dents : ∀ x, x ≠ dir → x ≠ ip → s'.dents x = s.dents x
  rest : s'.dents dir = l
  parent : ∀ x, x ≠ ip → s'.parent x = s.parent x
  links : ∀ x, x ≠ ip → s'.view.links x = s.view.links x
  count : s'.kind ip ≠ none → s'.view.links ip + 1 = s.view.links ip
  kept : s'.kind ip = none ∨ s'.kind ip = s.kind ip

namespace Ram

variable [Fintype P] {busy : List Ino}

theorem dUnlink_eq (hl : s.dLookup dir name = some ip) (hu : s.dUnlink busy dir name = some s') :
    ∃ (l₁ l₂ : _) (e : Path × Ino) (t : Ram P), s.dents dir = l₁ ++ e :: l₂ ∧ e.2 = ip ∧
      (s.dents dir).eraseP (·.1 = name) = l₁ ++ l₂ ∧ t.files = s.files ∧
      t.view = { s.view with dents := update s.dents dir (l₁ ++ l₂) } ∧
      s' = t.release busy ip := by
  obtain ⟨hdir,l₁,l₂,e,hd,-,rfl,herase,-⟩ := mem_of_dLookup hl
  rw [dUnlink,hl,map_some,Option.some.injEq] at hu
  refine ⟨l₁,l₂,e,_,hd,rfl,herase,?_,?_,hu.symm⟩
  · rfl
  · rw [modify_dents (fun l => l.eraseP (·.1 = name)) (by rw [hdir]; exact some_ne_none _),herase]

theorem dUnlink_spec (h : s.view.Tree) (hl : s.dLookup dir name = some ip)
    (hgone : s.kind ip = some .dir → s.dents ip = [] ∧ ¬ s.view.isCwd ip)
    (hu : s.dUnlink busy dir name = some s') :
    Unlinked s s' dir ip ((s.dents dir).eraseP (·.1 = name)) := by
  obtain ⟨l₁,l₂,e,t,hd,rfl,herase,-,hview,hu⟩ := dUnlink_eq hl hu
  rw [herase]
  have hmem : e ∈ s.dents dir := by rw [hd]; simp
  have hself := h.self_entry hmem
  have hkind : t.kind = s.kind := congrArg View.kind hview
  have hdents : t.dents = update s.dents dir (l₁ ++ l₂) := congrArg View.dents hview
  have hparent : t.parent = s.parent := congrArg View.parent hview
  have hcount := View.links_update s.view t.view dir (l₁ ++ l₂) hdents
  have hsame : ∀ x, x ≠ e.2 → t.view.links x = s.view.links x := by
    intro x hx
    have := hcount x
    rw [show s.view.dents dir = l₁ ++ e :: l₂ from hd,countP_append,countP_append,
      countP_cons_of_neg (by simpa using hx.symm)] at this
    omega
  have hless : t.view.links e.2 + 1 = s.view.links e.2 := by
    have := hcount e.2
    rw [show s.view.dents dir = l₁ ++ e :: l₂ from hd,countP_append,countP_append,
      countP_cons_of_pos (by simp)] at this
    omega
  have htree : t.view.Tree := by
    have hcwd : t.view.isCwd = s.view.isCwd := by rw [hview]
    refine h.shrink (by rw [hview]) (fun x => .inl (congrFun hkind x)) (fun x _ => congrFun hparent x)
      (fun x hx => h.cwd x (hcwd ▸ hx)) ?_ ?_ ?_
    · intro x e' he'
      change e' ∈ t.dents x at he'
      refine ⟨e',?_,rfl⟩
      change e' ∈ s.dents x
      rw [hdents] at he'
      by_cases hx : x = dir
      · rw [hx,update_self] at he'
        rw [hx,hd]
        rcases mem_append.mp he' with he' | he' <;> simp [he']
      · rwa [update_of_ne hx] at he'
    · intro x
      by_cases hx : x = e.2
      · rw [hx]
        omega
      · rw [hsame x hx]
    · intro x hx hpos hzero
      by_cases hxe : x = e.2
      · rw [hxe] at hx ⊢
        rw [hcwd]
        exact hgone hx
      · rw [hsame x hxe] at hzero
        omega
  have htd : t.dents dir = l₁ ++ l₂ := by rw [hdents,update_self]
  rw [hu]
  rcases htree.release_eq busy e.2 with heq | ⟨-,-,-,heq⟩
  · rw [heq]
    refine ⟨htree,congrArg View.root hview,fun x _ => by rw [hkind],
      fun x hx _ => by rw [hdents,update_of_ne hx],htd,fun x _ => by rw [hparent],hsame,
      fun _ => hless,.inr (by rw [hkind])⟩
  have hfree := htree.release busy e.2
  rw [heq] at hfree ⊢
  have hfv := free_view (s := t) (i := e.2)
  obtain ⟨u,hu⟩ : ∃ u : Ram P, u = { t with node := update t.node e.2 none } := ⟨_,rfl⟩
  rw [← hu] at hfree hfv ⊢
  have hukind : u.kind = update t.kind e.2 none := congrArg View.kind hfv
  have hudents : u.dents = update t.dents e.2 [] := congrArg View.dents hfv
  have huparent : u.parent = update t.parent e.2 none := congrArg View.parent hfv
  have hgone' : u.kind e.2 = none := by rw [hukind,update_self]
  refine ⟨hfree,?_,?_,?_,?_,?_,?_,fun hk => absurd hgone' hk,.inl hgone'⟩
  · rw [hu]
    exact congrArg View.root hview
  · intro x hx
    rw [hukind,update_of_ne hx,hkind]
  · intro x hx hxe
    rw [hudents,update_of_ne hxe,hdents,update_of_ne hx]
  · rw [hudents,update_of_ne hself.symm,htd]
  · intro x hx
    rw [huparent,update_of_ne hx,hparent]
  intro x hx
  rw [← hsame x hx]
  have hcnt := View.links_update t.view u.view e.2 [] hudents x
  have hnil : t.view.dents e.2 = [] := by
    change t.dents e.2 = []
    rw [hdents,update_of_ne hself]
    by_cases hk : s.kind e.2 = some .dir
    · exact (hgone hk).1
    · refine eq_nil_iff_forall_not_mem.mpr fun e' he' => hk (h.holds _ e' he').1
  rw [hnil] at hcnt
  simpa using hcnt

theorem dUnlink_busy (hl : s.dLookup dir name = some ip) (hb : ip ∈ busy)
    (hu : s.dUnlink busy dir name = some s') :
    s'.view = { s.view with
      dents := update s.dents dir ((s.dents dir).eraseP (·.1 = name)) } := by
  obtain ⟨l₁,l₂,e,t,-,rfl,herase,-,hview,rfl⟩ := dUnlink_eq hl hu
  unfold release iput
  rw [if_pos (.inr (.inr hb)),hview,herase]

end Ram

def Ram.Movable (s : Ram P) (oldDir : Ino) (oldName : Path) (newDir : Ino) (newName : Path) :
    Prop :=
  ∀ ip, s.dLookup oldDir oldName = some ip → s.kind ip = some .dir →
    (oldDir ≠ newDir → ¬ Above s.view.up ip newDir) ∧
      ∀ t, s.dLookup newDir newName = some t → t ≠ ip → ¬ s.isCwd t

variable {oldDir newDir : Ino} {oldName newName : Path}

theorem Ram.Movable.not_cwd {t : Ino} (hok : s.Movable oldDir oldName newDir newName)
    (hl : s.dLookup oldDir oldName = some ip) (ht : s.dLookup newDir newName = some t)
    (hne : t ≠ ip) (hk : s.kind ip = some .dir) : ¬ s.isCwd t :=
  (hok ip hl hk).2 t ht hne

theorem Ram.ramfsRename_eq [Fintype P]
    (hr : s.ramfsRename oldDir oldName newDir newName = some s') :
    s.kind oldDir = some .dir ∧ s.kind newDir = some .dir ∧
      ∃ ip, s.dLookup oldDir oldName = some ip ∧
        (s' = s ∨ s.moveEntry oldDir oldName newDir newName ip = some s' ∨
          ∃ t s₁, s.dLookup newDir newName = some t ∧ t ≠ ip ∧
            (s.kind t = some .dir → s.kind ip = some .dir ∧ s.dents t = []) ∧
            s.dUnlink [oldDir,newDir] newDir newName = some s₁ ∧
            s₁.moveEntry oldDir oldName newDir newName ip = some s') := by
  obtain ⟨⟨hold,hnew⟩,hr⟩ := ite_none_right_eq_some.mp hr
  obtain ⟨ip,hl,hr⟩ := bind_eq_some_iff.mp hr
  refine ⟨hold,hnew,ip,hl,?_⟩
  split at hr
  · cases hr
    exact .inl rfl
  split at hr
  · exact .inr (.inl hr)
  rename_i t ht
  split at hr
  · cases hr
    exact .inl rfl
  rename_i hne
  split at hr
  · obtain ⟨hip,hr⟩ := ite_none_right_eq_some.mp hr
    obtain ⟨s₁,hu,hr⟩ := bind_eq_some_iff.mp hr
    exact .inr (.inr ⟨t,s₁,ht,hne,fun _ => hip,hu,hr⟩)
  · rename_i hkt
    obtain ⟨-,hr⟩ := ite_none_left_eq_some.mp hr
    obtain ⟨s₁,hu,hr⟩ := bind_eq_some_iff.mp hr
    exact .inr (.inr ⟨t,s₁,ht,hne,fun hk => absurd hk hkt,hu,hr⟩)

namespace View.Tree

variable [Fintype P]

theorem replaceF_targets (name new : Path) (l : List (Path × Ino)) :
    (l.replaceF fun e => if e.1 = name then some (new,e.2) else none).map (·.2) = l.map (·.2) := by
  induction l with
  | nil => rfl
  | cons e l ih =>
    rw [List.replaceF]
    by_cases he : e.1 = name
    · simp only [if_pos he,map_cons]
    · simp only [if_neg he,map_cons,ih]

theorem moveEntry_view (h : s.view.Tree) (hold : s.kind oldDir = some .dir)
    (hl : oldDir ≠ newDir → s.dLookup oldDir oldName = some ip)
    (hm : s.moveEntry oldDir oldName newDir newName ip = some s') :
    (∀ i, (s'.dents i).map (·.2) = (s.dents i).map (·.2)) ∧
        s'.view = { s.view with dents := s'.dents } ∨
      oldDir ≠ newDir ∧ ∃ (l₁ l₂ : _) (e : Path × Ino) (w : Ino),
        s.dents oldDir = l₁ ++ e :: l₂ ∧ e.2 = ip ∧ (s.kind ip = some .dir → w = newDir) ∧
        s'.view = { s.view with
          dents := update (update s.dents oldDir (l₁ ++ l₂)) newDir
            ((newName.take (dirSiz - 1),ip) :: s.dents newDir)
          parent := update s.parent ip (some w) } := by
  unfold Ram.moveEntry at hm
  split at hm
  · cases hm
    have hview := Ram.modify_dents (s := s) (i := oldDir) (fun l => l.replaceF fun e =>
      if e.1 = oldName then some (newName.take (dirSiz - 1),e.2) else none)
      (by rw [hold]; exact some_ne_none _)
    have hdents := congrArg View.dents hview
    refine .inl ⟨fun x => ?_,hview.trans (by rw [show Ram.dents _ = _ from hdents])⟩
    rw [show Ram.dents _ = _ from hdents]
    dsimp only
    by_cases hx : x = oldDir
    · rw [hx,update_self,replaceF_targets]
    · rw [update_of_ne hx]
  rename_i hne
  obtain ⟨s₁,hunlink,hm⟩ := bind_eq_some_iff.mp hm
  obtain ⟨s₂,hadd,hm⟩ := map_eq_some_iff.mp hm
  obtain ⟨-,l₁,l₂,e,hd,-,rfl,herase,-⟩ := Ram.mem_of_dLookup (hl hne)
  have hmem : e ∈ s.dents oldDir := by rw [hd]; simp
  have hlive : s.kind e.2 ≠ none := (h.holds oldDir e hmem).2.1
  have hview₁ := Ram.dUnlink_busy (hl hne) (by simp) hunlink
  rw [herase] at hview₁
  have hkind₁ : s₁.kind = s.kind := congrArg View.kind hview₁
  have hdents₁ : s₁.dents = update s.dents oldDir (l₁ ++ l₂) := congrArg View.dents hview₁
  have hparent₁ : s₁.parent = s.parent := congrArg View.parent hview₁
  obtain ⟨-,hview₂⟩ := Ram.dAdd_view (by rw [hkind₁]; exact hlive) hadd
  rw [hdents₁,update_of_ne (Ne.symm hne),hparent₁,hview₁] at hview₂
  have hkind₂ : s₂.kind = s.kind := congrArg View.kind hview₂
  have hparent₂ : s₂.parent = update s.parent e.2 _ := congrArg View.parent hview₂
  rw [hkind₂] at hm
  split at hm
  · refine .inr ⟨hne,l₁,l₂,e,newDir,hd,rfl,fun _ => rfl,?_⟩
    rw [← hm,Ram.modify_parent (fun _ => some newDir) (by rw [hkind₂]; exact hlive),hparent₂,
      update_idem,hview₂]
  · rename_i hk
    exact .inr ⟨hne,l₁,l₂,e,_,hd,rfl,fun hk' => absurd hk' hk,hm ▸ hview₂⟩

theorem moveEntry (h : s.view.Tree) (hold : s.kind oldDir = some .dir)
    (hnew : s.kind newDir = some .dir) (ha : s.view.Attached newDir)
    (hl : oldDir ≠ newDir → s.dLookup oldDir oldName = some ip)
    (hok : oldDir ≠ newDir → s.kind ip = some .dir → ¬ Above s.view.up ip newDir)
    (hm : s.moveEntry oldDir oldName newDir newName ip = some s') : s'.view.Tree := by
  rcases h.moveEntry_view hold hl hm with ⟨htargets,hview⟩ | ⟨hne,l₁,l₂,e,w,hd,rfl,hw,hview⟩
  · rw [hview]
    exact h.relabel rfl rfl rfl rfl htargets
  · rw [hview]
    exact h.move hne hd hnew ha (fun hk => ⟨hw hk,hok hne hk⟩) rfl rfl rfl rfl rfl

omit [Fintype P] in
theorem dents_nil_of_gone (h : s.view.Tree)
    (hgone : s.kind i = some .dir → s.dents i = [] ∧ ¬ s.view.isCwd i) : s.dents i = [] := by
  by_cases hk : s.kind i = some .dir
  · exact (hgone hk).1
  · exact eq_nil_iff_forall_not_mem.mpr fun e' he' => hk (h.holds i e' he').1

omit [Fintype P] in
theorem ne_of_lookup (hl : s.dLookup dir name = some ip) (hnil : s.dents i = []) : dir ≠ i := by
  rintro rfl
  obtain ⟨-,l₁,l₂,e',hd',-⟩ := Ram.mem_of_dLookup hl
  rw [hnil] at hd'
  simp at hd'

theorem replaced {busy : List Ino} {t : Ino} (h : s.view.Tree)
    (hold : s.kind oldDir = some .dir) (hnew : s.kind newDir = some .dir)
    (ha : s.view.Attached newDir) (hl : s.dLookup oldDir oldName = some ip)
    (ht : s.dLookup newDir newName = some t) (hne : t ≠ ip)
    (hok : s.kind ip = some .dir → oldDir ≠ newDir → ¬ Above s.view.up ip newDir)
    (hgone : s.kind t = some .dir → s.dents t = [] ∧ ¬ s.view.isCwd t)
    (hu : s.dUnlink busy newDir newName = some s₁)
    (hm : s₁.moveEntry oldDir oldName newDir newName ip = some s') : s'.view.Tree := by
  have hun := Ram.dUnlink_spec h ht hgone hu
  obtain ⟨-,l₁,l₂,e,hd,-,het,-,-⟩ := Ram.mem_of_dLookup ht
  have he : e ∈ s.dents newDir := by rw [hd]; simp
  obtain ⟨-,htlive,htroot⟩ := h.holds newDir e he
  rw [het] at htlive htroot
  have htnew : newDir ≠ t := by
    rw [← het]
    exact (h.self_entry he).symm
  have hnil := h.dents_nil_of_gone hgone
  have htold := ne_of_lookup hl hnil
  have hno : ¬ Above s.view.up t newDir := by
    by_cases hk : s.kind t = some .dir
    · exact h.not_above_empty hnil htroot hnew ha htnew
    · exact h.not_above hk hnew ha
  have hup : ∀ x, x ≠ t → s₁.view.up x = s.view.up x := by
    intro x hx
    simp only [View.up,Ram.view,hun.parent x hx]
  refine hun.tree.moveEntry ?_ ?_ ?_ ?_ ?_ hm
  · rw [hun.kind oldDir htold,hold]
  · rw [hun.kind newDir htnew,hnew]
  · refine ha.imp (fun hr => ?_) fun hp => ?_
    · rw [hr]
      exact hun.root.symm
    · rwa [hun.links newDir htnew]
  · intro hdiff
    rw [← hl,Ram.dLookup,Ram.dLookup,hun.kind oldDir htold,hun.dents oldDir hdiff htold]
  · rintro hdiff hk ⟨n,hn⟩
    rw [hun.kind ip (Ne.symm hne)] at hk
    refine hok hk hdiff ⟨n,?_⟩
    rw [← hn,iterate_eq_of_avoids hup fun k _ hk => hno ⟨k,hk⟩]

theorem ramfsRename (h : s.view.Tree) (ha : s.view.Attached newDir)
    (hok : s.Movable oldDir oldName newDir newName)
    (hr : s.ramfsRename oldDir oldName newDir newName = some s') : s'.view.Tree := by
  obtain ⟨hold,hnew,ip,hl,rfl | hr | ⟨t,s₁,ht,hne,hgone,hu,hm⟩⟩ := Ram.ramfsRename_eq hr
  · exact h
  · exact h.moveEntry hold hnew ha (fun _ => hl) (fun hne hk => (hok ip hl hk).1 hne) hr
  · exact h.replaced hold hnew ha hl ht hne (fun hk => (hok ip hl hk).1)
      (fun hk => ⟨(hgone hk).2,hok.not_cwd hl ht hne (hgone hk).1⟩) hu hm

end View.Tree

end TinyOs.Fs
