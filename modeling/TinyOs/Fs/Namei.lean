import TinyOs.Library.Calls

namespace TinyOs.Fs

abbrev Path := List UInt8

def nName : Nat := 256

def dirSiz : Nat := 28

def maxSymlinks : Nat := 8

def slash : UInt8 := 47

def dot : UInt8 := 46

inductive FileType where
  | dir
  | lnk
  | other
  deriving DecidableEq

structure Graph (I : Type) where
  root : Option I
  cwd : Option I
  type : I → FileType
  parent : I → Option I
  lookup : I → Option (Path → Option I)
  readi : I → Option (List UInt8)

def skipelem (path : Path) : Option (Path × Path) :=
  let s := path.dropWhile (· = slash)
  if s = [] then none
  else
    some ((s.takeWhile (· ≠ slash)).take (dirSiz - 1),
      (s.dropWhile (· ≠ slash)).dropWhile (· = slash))

def elems : Nat → Path → List Path
  | 0, _ => []
  | n + 1, path =>
    match skipelem path with
    | none => []
    | some (name,rest) => name :: elems n rest

variable {I : Type}

namespace Graph

def target (g : Graph I) (link : I) : Option Path :=
  match g.readi link with
  | none => none
  | some bytes =>
    let t := bytes.take (nName - 1)
    if t = [] then none else some (t.takeWhile (· ≠ 0))

def child (g : Graph I) (ip : I) (name : Path) : Option I := (g.lookup ip).bind fun look => look name

def relative (g : Graph I) (link : I) (t : Path) : Option I :=
  if slash ∈ t then none else (g.parent link).bind fun parent => g.child parent t

def followSymlink (g : Graph I) (link : I) : Calls Path (Option I) :=
  match g.target link with
  | none => .ret none
  | some t => if t.head? = some slash then .call t .ret else .ret (g.relative link t)

def chase (g : Graph I) (stay : Bool) : Nat → I → Calls Path (Option I)
  | left, next =>
    if g.type next ≠ .lnk ∨ stay then .ret (some next)
    else
      match left with
      | 0 => .ret none
      | left + 1 =>
        .tick ((g.followSymlink next).bind fun r =>
          match r with
          | none => .ret none
          | some next => g.chase stay left next)

def walk (g : Graph I) (nameiparent follow : Bool) : I → List Path → Calls Path (Option I)
  | ip, [] => .ret (if nameiparent then none else some ip)
  | ip, name :: rest =>
    if g.type ip ≠ .dir then .ret none
    else if nameiparent ∧ rest = [] then .ret (some ip)
    else if name = [dot] then g.walk nameiparent follow ip rest
    else if name = [dot,dot] then g.walk nameiparent follow ((g.parent ip).getD ip) rest
    else
      match g.child ip name with
      | none => .ret none
      | some next =>
        (g.chase (rest.isEmpty && !follow) maxSymlinks next).bind fun r =>
          match r with
          | none => .ret none
          | some ip => g.walk nameiparent follow ip rest

def activation (g : Graph I) (path : Path) (nameiparent follow : Bool) : Calls Path (Option I) :=
  if path = [] then .ret none
  else
    match if path.head? = some slash then g.root else g.cwd with
    | none => .ret none
    | some ip => g.walk nameiparent follow ip (elems path.length path)

def again (g : Graph I) (path : Path) : Calls Path (Option I) := g.activation path false true

def namex (g : Graph I) (d : Nat) (path : Path) (nameiparent follow : Bool) :
    Option (Option I × Nat) :=
  (g.activation path nameiparent follow).eval (Calls.nested g.again d)

end Graph

theorem elems_length (n : Nat) (path : Path) : (elems n path).length ≤ n := by
  induction n generalizing path with
  | zero => exact Nat.le_refl _
  | succ n ih =>
    simp only [elems]
    split
    · exact Nat.zero_le _
    · exact Nat.succ_le_succ (ih _)

def linkBound : Nat → Nat → Nat
  | 0, n => maxSymlinks * n
  | d + 1, n => maxSymlinks * n + maxSymlinks * n * linkBound d (nName - 1)

def ShortPath (path : Path) : Prop := path.length ≤ nName - 1

namespace Graph

open Calls

variable (g : Graph I)

theorem target_short {link : I} {t : Path} (h : g.target link = some t) : ShortPath t := by
  unfold target at h
  split at h
  · cases h
  dsimp only at h
  split at h
  · cases h
  cases h
  exact Nat.le_trans (List.takeWhile_sublist _).length_le
    (by rw [List.length_take]; exact Nat.min_le_left _ _)

theorem followSymlink_within (link : I) : (g.followSymlink link).Within ShortPath 0 1 := by
  unfold followSymlink
  split
  · trivial
  rename_i t ht
  split
  · exact ⟨Nat.one_pos,g.target_short ht,fun _ => trivial⟩
  · trivial

theorem chase_within (stay : Bool) (left : Nat) (next : I) :
    (g.chase stay left next).Within ShortPath left left := by
  induction left generalizing next with
  | zero =>
    unfold chase
    split <;> trivial
  | succ left ih =>
    unfold chase
    split
    · trivial
    refine ⟨Nat.succ_pos left,?_⟩
    have hrest : ∀ r : Option I, (match r with
        | none => Calls.ret none
        | some next => g.chase stay left next).Within ShortPath left left := by
      intro r
      cases r with
      | none => trivial
      | some next => exact ih next
    have hbind := (g.followSymlink_within next).bind hrest
    rw [Nat.zero_add,Nat.add_comm 1 left] at hbind
    exact hbind

theorem walk_within (nameiparent follow : Bool) (ip : I) (names : List Path) :
    (g.walk nameiparent follow ip names).Within ShortPath (maxSymlinks * names.length)
      (maxSymlinks * names.length) := by
  induction names generalizing ip with
  | nil => trivial
  | cons name rest ih =>
    have hmore : maxSymlinks * rest.length ≤ maxSymlinks * (name :: rest).length :=
      Nat.mul_le_mul_left _ (Nat.le_succ _)
    unfold walk
    split
    · trivial
    split
    · trivial
    split
    · exact (ih ip).mono hmore hmore
    split
    · exact (ih _).mono hmore hmore
    split
    · trivial
    rename_i next hnext
    have hrest : ∀ r : Option I, (match r with
        | none => Calls.ret none
        | some ip => g.walk nameiparent follow ip rest).Within ShortPath
          (maxSymlinks * rest.length) (maxSymlinks * rest.length) := by
      intro r
      cases r with
      | none => trivial
      | some ip => exact ih ip
    have hbind := (g.chase_within (rest.isEmpty && !follow) maxSymlinks next).bind hrest
    rw [Nat.add_comm,← Nat.mul_succ] at hbind
    exact hbind

theorem activation_within (path : Path) (nameiparent follow : Bool) :
    (g.activation path nameiparent follow).Within ShortPath (maxSymlinks * path.length)
      (maxSymlinks * path.length) := by
  unfold activation
  split
  · trivial
  split
  · trivial
  · have hle := Nat.mul_le_mul_left maxSymlinks (elems_length path.length path)
    exact (g.walk_within nameiparent follow _ _).mono hle hle

theorem namex_links {d : Nat} {path : Path} {nameiparent follow : Bool} {r : Option I} {n : Nat}
    (h : g.namex d path nameiparent follow = some (r,n)) : n ≤ linkBound d path.length := by
  induction d generalizing path nameiparent follow r n with
  | zero =>
    have hle := eval_le (B := 0) (fun _ _ _ _ ha => by cases ha)
      (g.activation_within path nameiparent follow) h
    rw [Nat.mul_zero,Nat.add_zero] at hle
    exact hle
  | succ d ih =>
    refine eval_le (fun a b m ha hm => ?_) (g.activation_within path nameiparent follow) h
    have hmono : ∀ d, linkBound d a.length ≤ linkBound d (nName - 1) := by
      intro d
      have hlen := Nat.mul_le_mul_left maxSymlinks ha
      cases d with
      | zero => exact hlen
      | succ d => exact Nat.add_le_add hlen (Nat.mul_le_mul_right _ hlen)
    exact Nat.le_trans (ih hm) (hmono d)

end Graph

structure Mode where
  nameiparent : Bool
  follow : Bool

inductive Pos (I : Type) where
  | dir (ip : I) (names : List Path)
  | found (next : I) (left : Nat) (names : List Path)
  | follow (link : I) (left : Nat) (names : List Path)

abbrev Mode.stops (m : Mode) (g : Graph I) (next : I) (rest : List Path) : Prop :=
  g.type next ≠ .lnk ∨ rest.isEmpty && !m.follow

inductive Steps (g : Graph I) (m : Mode) : Pos I → Pos I → Prop where
  | dot {ip rest} (hdir : g.type ip = .dir) (hlast : ¬ (m.nameiparent ∧ rest = [])) :
      Steps g m (.dir ip ([dot] :: rest)) (.dir ip rest)
  | dotdot {ip rest} (hdir : g.type ip = .dir) (hlast : ¬ (m.nameiparent ∧ rest = [])) :
      Steps g m (.dir ip ([dot,dot] :: rest)) (.dir ((g.parent ip).getD ip) rest)
  | name {ip name rest next} (hdir : g.type ip = .dir) (hlast : ¬ (m.nameiparent ∧ rest = []))
      (hdot : name ≠ [dot]) (hdots : name ≠ [dot,dot]) (hnext : g.child ip name = some next) :
      Steps g m (.dir ip (name :: rest)) (.found next maxSymlinks rest)
  | enter {next left rest} (h : m.stops g next rest) :
      Steps g m (.found next left rest) (.dir next rest)
  | link {next left rest} (h : ¬ m.stops g next rest) :
      Steps g m (.found next (left + 1) rest) (.follow next left rest)
  | relative {link left rest t next} (ht : g.target link = some t)
      (hrel : t.head? ≠ some slash) (hnext : g.relative link t = some next) :
      Steps g m (.follow link left rest) (.found next left rest)

inductive Reaches (g : Graph I) : Mode → Pos I → Pos I → Prop where
  | refl {m a} : Reaches g m a a
  | step {m a b c} (h : Steps g m a b) (hb : Reaches g m b c) : Reaches g m a c
  -- An absolute target is walked from the root on its own, with all its links followed.
  | absolute {m link left rest t root next c} (ht : g.target link = some t)
      (habs : t.head? = some slash) (hroot : g.root = some root)
      (hlead : Reaches g ⟨false,true⟩ (.dir root (elems t.length t)) (.dir next []))
      (hnext : Reaches g m (.found next left rest) c) : Reaches g m (.follow link left rest) c

def AbsoluteChain (g : Graph I) : Nat → Path → Mode → Prop
  | 0, _, _ => True
  | n + 1, path, m => path ≠ [] ∧ ∃ ip link left rest t,
      (if path.head? = some slash then g.root else g.cwd) = some ip ∧
        Reaches g m (.dir ip (elems path.length path)) (.follow link left rest) ∧
        g.target link = some t ∧ t.head? = some slash ∧ AbsoluteChain g n t ⟨false,true⟩

def Graph.resume (g : Graph I) (m : Mode) (rest : List Path) :
    Option I → Calls Path (Option I)
  | none => .ret none
  | some ip => g.walk m.nameiparent m.follow ip rest

def Graph.code (g : Graph I) (m : Mode) : Pos I → Calls Path (Option I)
  | .dir ip names => g.walk m.nameiparent m.follow ip names
  | .found next left rest =>
    (g.chase (rest.isEmpty && !m.follow) left next).bind (g.resume m rest)
  | .follow link left rest => ((g.followSymlink link).bind fun r =>
      match r with
      | none => .ret none
      | some next => g.chase (rest.isEmpty && !m.follow) left next).bind (g.resume m rest)

def Pos.size : Pos I → Nat
  | .dir _ names => 20 * names.length
  | .found _ left rest => 20 * rest.length + 2 * left + 2
  | .follow _ left rest => 20 * rest.length + 2 * left + 3

-- What the code at a position does next, with the positions of the graph that it goes through.
inductive Fate (g : Graph I) (m : Mode) (a : Pos I) : Calls Path (Option I) → Prop where
  | ret {r} (h : ∀ ip, m.nameiparent = false → r = some ip → Reaches g m a (.dir ip [])) :
      Fate g m a (.ret r)
  | tick {b} (h : ∀ c, Reaches g m b c → Reaches g m a c) : Fate g m a (.tick (g.code m b))
  | call {link left rest t k} (h : ∀ c, Reaches g m (.follow link left rest) c → Reaches g m a c)
      (ht : g.target link = some t) (habs : t.head? = some slash) (hnone : k none = .ret none)
      (hsome : ∀ next, k (some next) = g.code m (.found next left rest)) : Fate g m a (.call t k)

section

open Calls Fs.Graph

variable {g : Graph I} {m : Mode} {a b c : Pos I} {link : I} {t : Path} {n : Nat}
  {p : Calls Path (Option I)}

theorem Steps.code (h : Steps g m a b) :
    b.size < a.size ∧ (g.code m a = g.code m b ∨ g.code m a = .tick (g.code m b)) := by
  cases h with
  | dot hdir hlast => exact ⟨by simp [Pos.size],.inl (by simp [Graph.code,walk,hdir,hlast])⟩
  | dotdot hdir hlast =>
    exact ⟨by simp [Pos.size],.inl (by simp [Graph.code,walk,hdir,hlast])⟩
  | name hdir hlast hdot hdots hnext =>
    refine ⟨?_,.inl ?_⟩
    · simp only [Pos.size,maxSymlinks,List.length_cons]
      omega
    simp only [Graph.code,walk,hdir,hdot,hdots,hnext,if_neg hlast,ne_eq,not_true_eq_false,if_false]
    rfl
  | enter h =>
    refine ⟨by simp only [Pos.size]; omega,.inl ?_⟩
    simp only [Graph.code]
    unfold chase
    rw [if_pos h]
    rfl
  | link h =>
    refine ⟨by simp only [Pos.size]; omega,.inr ?_⟩
    rw [Graph.code,chase,if_neg h]
    rfl
  | relative ht hrel hnext =>
    refine ⟨by simp only [Pos.size]; omega,.inl ?_⟩
    simp [Graph.code,followSymlink,ht,hrel,hnext,Calls.bind]

theorem code_absolute (m : Mode) (left : Nat) (rest : List Path) (ht : g.target link = some t)
    (habs : t.head? = some slash) : ∃ k, g.code m (.follow link left rest) = .call t k ∧
      k none = .ret none ∧ ∀ next, k (some next) = g.code m (.found next left rest) := by
  simp only [Graph.code,followSymlink,ht,habs,if_true,Calls.bind]
  exact ⟨_,rfl,rfl,fun _ => rfl⟩

theorem again_absolute (habs : t.head? = some slash) : (g.root = none ∧ g.again t = .ret none) ∨
    ∃ root, g.root = some root ∧ g.again t = g.code ⟨false,true⟩ (.dir root (elems t.length t)) := by
  have hne : t ≠ [] := by
    rintro rfl
    cases habs
  rw [again,activation,if_neg hne,if_pos habs]
  cases g.root with
  | none => exact .inl ⟨rfl,rfl⟩
  | some root => exact .inr ⟨root,rfl,rfl⟩

theorem Fate.step (h : Steps g m a b) (hb : Fate g m b (g.code m b)) : Fate g m a (g.code m a) := by
  rcases h.code.2 with hcode | hcode
  · rw [hcode]
    generalize g.code m b = p at hb
    cases hb with
    | ret hr => exact .ret fun ip hp hi => .step h (hr ip hp hi)
    | tick hb => exact .tick fun c hc => .step h (hb c hc)
    | call hb ht habs hnone hsome =>
      exact .call (fun c hc => .step h (hb c hc)) ht habs hnone hsome
  · rw [hcode]
    exact .tick fun c => .step h

theorem Fate.none (h : g.code m a = .ret none) : Fate g m a (g.code m a) := by
  rw [h]
  exact .ret nofun

theorem fate (a : Pos I) : Fate g m a (g.code m a) := by
  induction hn : a.size using Nat.strongRecOn generalizing a with
  | ind n ih =>
    have hstep : ∀ b, Steps g m a b → Fate g m a (g.code m a) :=
      fun b h => .step h (ih b.size (hn ▸ h.code.1) b rfl)
    cases a with
    | dir ip names =>
      cases names with
      | nil =>
        refine .ret fun i hp hi => ?_
        rw [hp] at hi
        cases hi
        exact .refl
      | cons name rest =>
        by_cases hdir : g.type ip = .dir
        swap
        · exact .none (by simp [Graph.code,walk,hdir])
        by_cases hlast : m.nameiparent ∧ rest = []
        · rw [Graph.code,walk,if_neg (not_not.mpr hdir),if_pos hlast]
          exact .ret fun i hp => by simp [hp] at hlast
        by_cases hdot : name = [dot]
        · subst hdot
          exact hstep _ (.dot hdir hlast)
        by_cases hdots : name = [dot,dot]
        · subst hdots
          exact hstep _ (.dotdot hdir hlast)
        cases hnext : g.child ip name with
        | none => exact .none (by simp [Graph.code,walk,hdir,hlast,hdot,hdots,hnext])
        | some next => exact hstep _ (.name hdir hlast hdot hdots hnext)
    | found next left rest =>
      by_cases h : m.stops g next rest
      · exact hstep _ (.enter h)
      cases left with
      | zero =>
        refine .none ?_
        rw [Graph.code,chase,if_neg h]
        rfl
      | succ left => exact hstep _ (.link h)
    | follow link left rest =>
      cases ht : g.target link with
      | none => exact .none (by simp [Graph.code,followSymlink,ht,Calls.bind,resume])
      | some t =>
        by_cases habs : t.head? = some slash
        · obtain ⟨k,hk,hnone,hsome⟩ := code_absolute m left rest ht habs
          rw [hk]
          exact .call (fun c => id) ht habs hnone hsome
        cases hnext : g.relative link t with
        | none => exact .none (by simp [Graph.code,followSymlink,ht,habs,hnext,Calls.bind,resume])
        | some next => exact hstep _ (.relative ht habs hnext)

theorem runs_reaches {r : Option I} {ip : I} (h : Runs g.again p r) (hfate : Fate g m a p)
    (hm : m.nameiparent = false) (hr : r = some ip) : Reaches g m a (.dir ip []) := by
  induction h generalizing m a ip with
  | ret r =>
    cases hfate with
    | ret h => exact h ip hm hr
  | tick h ih =>
    cases hfate with
    | tick hb => exact hb _ (ih (fate _) hm hr)
  | @call t k b c ha hk iha ihk =>
    cases hfate with
    | call hb ht habs hnone hsome =>
      cases b with
      | none =>
        rw [hnone] at hk
        cases hk
        cases hr
      | some next =>
        rcases again_absolute (g := g) habs with ⟨-,hret⟩ | ⟨root,hroot,hcode⟩
        · rw [hret] at ha
          cases ha
        · refine hb _ (.absolute ht habs hroot ?_ (ihk (hsome next ▸ fate _) hm hr))
          exact iha (hcode ▸ fate _) rfl rfl

theorem meets_reaches (h : Meets g.again p t) (hfate : Fate g m a p) : ∃ link left rest,
    g.target link = some t ∧ t.head? = some slash ∧ Reaches g m a (.follow link left rest) := by
  induction h generalizing a with
  | here =>
    cases hfate with
    | call hb ht habs _ _ => exact ⟨_,_,_,ht,habs,hb _ .refl⟩
  | tick h ih =>
    cases hfate with
    | tick hb =>
      obtain ⟨link,left,rest,ht,habs,hr⟩ := ih (fate _)
      exact ⟨link,left,rest,ht,habs,hb _ hr⟩
  | @later t t' k b ha hk ih =>
    cases hfate with
    | call hb ht habs hnone hsome =>
      cases b with
      | none =>
        rw [hnone] at hk
        cases hk
      | some next =>
        rcases again_absolute (g := g) habs with ⟨-,hret⟩ | ⟨root,hroot,hcode⟩
        · rw [hret] at ha
          cases ha
        · obtain ⟨link,left,rest,ht',habs',hr⟩ := ih (hsome next ▸ fate _)
          refine ⟨link,left,rest,ht',habs',hb _ (.absolute ht habs hroot ?_ hr)⟩
          exact runs_reaches ha (hcode ▸ fate _) rfl rfl

theorem Reaches.back (h : Reaches g m a c) :
    (∀ r, Runs g.again (g.code m c) r → Runs g.again (g.code m a) r) ∧
      ∀ t, Meets g.again (g.code m c) t → Meets g.again (g.code m a) t := by
  induction h with
  | refl => exact ⟨fun _ => id,fun _ => id⟩
  | step h _ ih =>
    rcases h.code.2 with hcode | hcode
    · rw [hcode]
      exact ih
    · rw [hcode]
      exact ⟨fun r hr => .tick (ih.1 r hr),fun t ht => .tick (ih.2 t ht)⟩
  | @absolute m link left rest t root next c ht habs hroot _ _ ihl ihn =>
    obtain ⟨k,hk,-,hsome⟩ := code_absolute m left rest ht habs
    have hlead : Runs g.again (g.again t) (some next) := by
      rcases again_absolute (g := g) habs with ⟨hnone,-⟩ | ⟨root',hroot',hcode⟩
      · cases hnone.symm.trans hroot
      · cases hroot.symm.trans hroot'
        rw [hcode]
        exact ihl.1 _ (.ret _)
    rw [hk]
    exact ⟨fun r hr => .call hlead (hsome next ▸ ihn.1 r hr),
      fun t ht => .later hlead (hsome next ▸ ihn.2 t ht)⟩

theorem nests_iff (path : Path) : Nests g.again n (g.activation path m.nameiparent m.follow) ↔
    AbsoluteChain g n path m := by
  induction n generalizing path m with
  | zero => exact ⟨fun _ => trivial,fun _ => .zero⟩
  | succ n ih =>
    rw [activation,AbsoluteChain]
    by_cases hpath : path = []
    · rw [if_pos hpath]
      refine ⟨fun h => ?_,fun h => absurd hpath h.1⟩
      cases h with
      | succ hm _ => cases hm
    rw [if_neg hpath]
    cases hip : if path.head? = some slash then g.root else g.cwd with
    | none =>
      refine ⟨fun h => ?_,fun h => ?_⟩
      · cases h with
        | succ hm _ => cases hm
      · obtain ⟨-,ip,-,-,-,-,h,-⟩ := h
        cases h
    | some ip =>
      constructor
      · intro h
        cases h with
        | @succ _ _ t hm hn =>
          obtain ⟨link,left,rest,ht,habs,hr⟩ :=
            meets_reaches hm (fate (.dir ip (elems path.length path)))
          exact ⟨hpath,ip,link,left,rest,t,rfl,hr,ht,habs,(ih (m := ⟨false,true⟩) t).mp hn⟩
      · rintro ⟨-,ip,link,left,rest,t,⟨⟩,hr,ht,habs,hn⟩
        obtain ⟨k,hk,-⟩ := code_absolute m left rest ht habs
        refine .succ (hr.back.2 t ?_) ((ih (m := ⟨false,true⟩) t).mpr hn)
        rw [hk]
        exact .here

end

theorem path_resolution_bounded_iff (g : Graph I) (path : Path) (nameiparent follow : Bool) :
    (∃ r n, g.namex maxSymlinks path nameiparent follow = some (r,n) ∧
        n ≤ linkBound maxSymlinks path.length) ↔
      ¬ AbsoluteChain g (maxSymlinks + 1) path ⟨nameiparent,follow⟩ := by
  rw [← nests_iff,← Calls.eval_isSome_iff_not_nests,Option.isSome_iff_exists]
  constructor
  · rintro ⟨r,n,h,-⟩
    exact ⟨(r,n),h⟩
  · rintro ⟨⟨r,n⟩,h⟩
    exact ⟨r,n,h,g.namex_links h⟩

def selfLink : Graph Bool where
  root := some false
  cwd := some false
  type := fun i => if i then .lnk else .dir
  parent := fun _ => some false
  lookup := fun i => if i then none else some fun name => if name = [97] then some true else none
  readi := fun i => if i then some [slash,97] else none

theorem selfLink_again : ∃ k, selfLink.again [slash,97] = .tick (.call [slash,97] k) := ⟨_,rfl⟩

theorem selfLink_never_returns : ¬ ∃ d r, selfLink.namex d [slash,97] false true = some r := by
  rintro ⟨d,r,h⟩
  obtain ⟨k,hk⟩ := selfLink_again
  have hnone : ∀ d, Calls.nested selfLink.again d [slash,97] = none := by
    intro d
    induction d with
    | zero => rfl
    | succ d ih => rw [Calls.nested,hk,Calls.eval,Calls.eval,ih,Option.bind_none,Option.map_none]
  have hd := hnone (d + 1)
  rw [Calls.nested] at hd
  rw [Graph.namex,show selfLink.activation [slash,97] false true = selfLink.again [slash,97]
    from rfl,hd] at h
  cases h

end TinyOs.Fs
