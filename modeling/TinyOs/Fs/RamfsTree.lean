import TinyOs.Fs.Tree

namespace TinyOs.Fs

open Option
open Function (update)

variable {P : Type} {s : Ram P} {i j dir ip : Ino} {name : Path}

namespace Ram

def view (s : Ram P) : View := ⟨s.kind,s.dents,s.parent,s.root,fun i => ∃ p, s.cwd p = some i⟩

theorem exists_node (h : s.kind i ≠ none) : ∃ nd, s.node i = some nd := by
  cases hn : s.node i with
  | none => exact absurd (by rw [kind,hn]; rfl) h
  | some nd => exact ⟨nd,rfl⟩

theorem dents_of_free (h : s.kind i = none) : s.dents i = [] := by
  rw [dents,map_eq_none_iff.mp h]
  rfl

theorem mem_of_dLookup (h : s.dLookup dir name = some ip) :
    s.kind dir = some .dir ∧ ∃ l₁ l₂ e, s.dents dir = l₁ ++ e :: l₂ ∧ e.1 = name ∧ e.2 = ip ∧
      (s.dents dir).eraseP (·.1 = name) = l₁ ++ l₂ ∧ ∀ e' ∈ l₁, e'.1 ≠ name := by
  unfold dLookup at h
  split at h
  · rename_i hk
    obtain ⟨e,he,rfl⟩ := map_eq_some_iff.mp h
    obtain ⟨hname,l₁,l₂,hl,hno⟩ := List.find?_eq_some_iff_append.mp he
    have hname' : e.1 = name := by simpa using hname
    have hno' : ∀ e' ∈ l₁, e'.1 ≠ name := by
      intro e' he'
      simpa using hno e' he'
    refine ⟨hk,l₁,l₂,e,hl,hname',rfl,?_,hno'⟩
    rw [hl,List.eraseP_append_right _ (by simpa using hno'),List.eraseP_cons_of_pos
      (by simpa using hname')]
  · cases h

end Ram

namespace View.Tree

variable {p : P} {d : Nat} {path : Path}

theorem attached_of_dLookup (h : s.view.Tree) (hl : s.dLookup dir name = some ip) :
    s.view.Attached ip := by
  obtain ⟨-,l₁,l₂,e,hd,-,rfl,-⟩ := Ram.mem_of_dLookup hl
  exact h.attached_of_mem (i := dir) (by rw [show s.view.dents dir = _ from hd]; simp)

theorem attached_of_child (h : s.view.Tree) (hl : (s.graph p).child dir name = some ip) :
    s.view.Attached ip := by
  obtain ⟨look,hlook,hl⟩ := bind_eq_some_iff.mp hl
  obtain ⟨-,hlook⟩ := ite_none_right_eq_some.mp hlook
  cases hlook
  exact h.attached_of_dLookup hl

theorem kind_of_attached (h : s.view.Tree) (ha : s.view.Attached ip) : s.kind ip ≠ none := by
  rcases ha with rfl | ha
  · rw [show s.kind s.view.root = some .dir from h.root_dir]
    nofun
  · obtain ⟨i,e,he,rfl⟩ := View.exists_mem_of_links_pos ha
    exact (h.holds i e he).2.1

def Found (s : Ram P) (r : Option Ino) : Prop := ∀ i, r = some i → s.view.Attached i

theorem found_none (s : Ram P) : Found s none := fun _ hc => by cases hc

theorem followSymlink_safe (h : s.view.Tree) (p : P) (link : Ino) :
    ((s.graph p).followSymlink link).Safe (Found s) (Found s) := by
  unfold Graph.followSymlink
  split
  · exact nofun
  split
  · exact fun b hb => hb
  · intro i hi
    obtain ⟨-,hi⟩ := ite_none_left_eq_some.mp hi
    obtain ⟨parent,-,hi⟩ := bind_eq_some_iff.mp hi
    exact h.attached_of_child hi

theorem chase_safe (h : s.view.Tree) (p : P) (stay : Bool) (left : Nat) {next : Ino}
    (hn : s.view.Attached next) : ((s.graph p).chase stay left next).Safe (Found s) (Found s) := by
  induction left generalizing next with
  | zero =>
    unfold Graph.chase
    split
    · rintro i ⟨⟩
      exact hn
    · exact found_none s
  | succ left ih =>
    unfold Graph.chase
    split
    · rintro i ⟨⟩
      exact hn
    refine Calls.Safe.bind (h.followSymlink_safe p next) fun r hr => ?_
    cases r with
    | none => exact found_none s
    | some next => exact ih (hr next rfl)

def Resolved (s : Ram P) (nameiparent : Bool) (r : Option Ino) : Prop :=
  ∀ i, r = some i → s.view.Attached i ∧ (nameiparent = true → s.kind i = some .dir)

theorem resolved_none (s : Ram P) (nameiparent : Bool) : Resolved s nameiparent none :=
  fun _ hc => by cases hc

theorem walk_safe (h : s.view.Tree) (p : P) (nameiparent follow : Bool) {ip : Ino}
    (hip : s.view.Attached ip) (names : List Path) :
    ((s.graph p).walk nameiparent follow ip names).Safe (Found s) (Resolved s nameiparent) := by
  induction names generalizing ip with
  | nil =>
    cases nameiparent with
    | true => exact resolved_none s _
    | false =>
      rintro i ⟨⟩
      exact ⟨hip,fun hc => by cases hc⟩
  | cons name rest ih =>
    unfold Graph.walk
    split
    · exact resolved_none s _
    rename_i htype
    have hkind : s.kind ip = some .dir := by
      simp only [Ram.graph,ne_eq,not_not] at htype
      cases hk : s.kind ip with
      | none =>
        rw [hk] at htype
        cases htype
      | some t =>
        rw [hk,getD_some] at htype
        rw [htype]
    split
    · rintro i ⟨⟩
      exact ⟨hip,fun _ => hkind⟩
    split
    · exact ih hip
    split
    · exact ih (h.up_attached hkind hip).2
    split
    · exact resolved_none s _
    rename_i next hnext
    have hfound := h.attached_of_child hnext
    refine Calls.Safe.bind (h.chase_safe p _ maxSymlinks hfound) fun r hr => ?_
    cases r with
    | none => exact resolved_none s _
    | some ip => exact ih (hr ip rfl)

theorem activation_safe (h : s.view.Tree) (p : P) (path : Path) (nameiparent follow : Bool) :
    ((s.graph p).activation path nameiparent follow).Safe (Found s) (Resolved s nameiparent) := by
  unfold Graph.activation
  split
  · exact resolved_none s _
  split
  · exact resolved_none s _
  rename_i ip hip
  refine h.walk_safe p nameiparent follow ?_ _
  simp only [Ram.graph] at hip
  split at hip
  · cases hip
    exact .inl rfl
  · exact (h.cwd ip ⟨p,hip⟩).2

theorem namex_resolved (h : s.view.Tree) {n : Nat} {nameiparent follow : Bool} {r : Option Ino}
    (hr : (s.graph p).namex d path nameiparent follow = some (r,n)) : Resolved s nameiparent r := by
  have hagain : ∀ path, ((s.graph p).again path).Safe (Found s) (Found s) := fun path =>
    (h.activation_safe p path false true).mono fun r hr i hi => (hr i hi).1
  exact (h.activation_safe p path nameiparent follow).runs hagain
    (Calls.eval_runs (fun _ _ _ => Calls.nested_runs) hr)

theorem namei_attached (h : s.view.Tree)
    (hr : s.namei p d path = some ip) : s.view.Attached ip := by
  obtain ⟨⟨r,n⟩,hn,rfl⟩ := bind_eq_some_iff.mp hr
  exact (h.namex_resolved hn ip rfl).1

theorem nameiParent_dir (h : s.view.Tree) (hr : s.nameiParent p d path = some (dir,name)) :
    s.kind dir = some .dir ∧ s.view.Attached dir := by
  obtain ⟨dp,hdp,hr⟩ := bind_eq_some_iff.mp hr
  obtain ⟨⟨r,n⟩,hn,rfl⟩ := bind_eq_some_iff.mp hdp
  obtain ⟨nm,-,hr⟩ := map_eq_some_iff.mp hr
  cases hr
  obtain ⟨ha,hk⟩ := h.namex_resolved hn dir rfl
  exact ⟨hk rfl,ha⟩

theorem place_dir (h : s.view.Tree)
    (hr : s.place p d path = some (dir,name)) : s.kind dir = some .dir ∧ s.view.Attached dir :=
  h.nameiParent_dir (filter_eq_some_iff.mp hr).1

end View.Tree

namespace Ram

theorem modify_dents (g : List (Path × Ino) → List (Path × Ino)) (hk : s.kind i ≠ none) :
    (s.modify i fun nd => { nd with dents := g nd.dents }).view =
      { s.view with dents := update s.dents i (g (s.dents i)) } := by
  obtain ⟨nd,hnd⟩ := exists_node hk
  refine View.ext (funext fun x => ?_) (funext fun x => ?_) (funext fun x => ?_) rfl rfl <;>
    by_cases hx : x = i <;> simp [view,modify,kind,dents,parent,hx,hnd]

theorem modify_parent (g : Option Ino → Option Ino) (hk : s.kind i ≠ none) :
    (s.modify i fun nd => { nd with parent := g nd.parent }).view =
      { s.view with parent := update s.parent i (g (s.parent i)) } := by
  obtain ⟨nd,hnd⟩ := exists_node hk
  refine View.ext (funext fun x => ?_) (funext fun x => ?_) (funext fun x => ?_) rfl rfl <;>
    by_cases hx : x = i <;> simp [view,modify,kind,dents,parent,hx,hnd]

theorem free_view : ({ s with node := update s.node i none } : Ram P).view = { s.view with
      kind := update s.kind i none
      dents := update s.dents i []
      parent := update s.parent i none } := by
  refine View.ext (funext fun x => ?_) (funext fun x => ?_) (funext fun x => ?_) rfl rfl <;>
    by_cases hx : x = i <;> simp [view,hx,kind,dents,parent]

theorem dAdd_view {s' : Ram P} (hk : s.kind ip ≠ none) (h : s.dAdd dir name ip = some s') :
    s.kind dir = some .dir ∧ s'.view = { s.view with
        dents := update s.dents dir ((name.take (dirSiz - 1),ip) :: s.dents dir)
        parent := update s.parent ip (some ((s.parent ip).getD dir)) } := by
  unfold dAdd at h
  split at h
  · rename_i hg
    refine ⟨hg.1,?_⟩
    cases h
    have hparent := modify_parent (s := s) (i := ip) (fun o => some (o.getD dir)) hk
    obtain ⟨t,ht⟩ : ∃ t, t = s.modify ip fun nd => { nd with parent := some (nd.parent.getD dir) } :=
      ⟨_,rfl⟩
    rw [← ht] at hparent ⊢
    have hkind : t.kind = s.kind := congrArg View.kind hparent
    have hdents : t.dents = s.dents := congrArg View.dents hparent
    rw [modify_dents (fun l => (name.take (dirSiz - 1),ip) :: l) (by rw [hkind,hg.1]; nofun),
      hparent,hdents]
  · cases h

end Ram

namespace View.Tree

variable [Fintype P]

theorem release_eq (h : s.view.Tree) (busy : List Ino) (i : Ino) :
    s.release busy i = s ∨ ¬ s.referenced i ∧ i ≠ s.root ∧ i ∉ busy ∧
      s.release busy i = { s with node := update s.node i none } := by
  unfold Ram.release Ram.iput
  split
  · exact .inl rfl
  rename_i hg
  obtain ⟨href,hroot,hbusy⟩ : ¬ s.referenced i ∧ i ≠ s.root ∧ i ∉ busy := by
    simpa only [not_or] using hg
  have hno : ¬ s.view.Attached i := by
    rintro (hr | hp)
    · exact hroot hr
    · obtain ⟨x,e,he,hei⟩ := View.exists_mem_of_links_pos hp
      exact href (.inr (.inr ⟨x,e,he,hei⟩))
  have hnil : s.dents i = [] := h.dents_eq_nil hno
  refine .inr ⟨href,hroot,hbusy,?_⟩
  rw [hnil]
  rfl

theorem release (h : s.view.Tree) (busy : List Ino) (i : Ino) : (s.release busy i).view.Tree := by
  rcases h.release_eq busy i with heq | ⟨href,hroot,-,heq⟩
  · rw [heq]
    exact h
  rw [heq,Ram.free_view]
  refine h.free (i := i) ?_ hroot ?_ rfl rfl rfl rfl rfl
  · by_contra hpos
    obtain ⟨x,e,he,hei⟩ := View.exists_mem_of_links_pos (pos_of_ne_zero hpos)
    exact href (.inr (.inr ⟨x,e,he,hei⟩))
  · exact fun hc => href (.inr (.inl hc))

end View.Tree

end TinyOs.Fs
