import TinyOs.Exec.Stored
import TinyOs.Exec.Elf

namespace TinyOs.InitStack

open Space Ctx List Option

structure Initial where
  argc : Nat
  argv : List (Nat × List UInt8)
  envp : List (Nat × List UInt8)
  aux : Nat × Nat

def readWord (s : Space) (a : Nat) : Option Nat := do
  let b0 ← s.byte a
  let b1 ← s.byte (a + 1)
  let b2 ← s.byte (a + 2)
  let b3 ← s.byte (a + 3)
  some (b0.toNat + b1.toNat * 2 ^ 8 + b2.toNat * 2 ^ 16 + b3.toNat * 2 ^ 24)

def readString (s : Space) : Nat → Nat → Option (List UInt8)
  | 0, _ => none
  | fuel + 1, a =>
    match s.byte a with
    | none => none
    | some b => if b = 0 then some [] else (readString s fuel (a + 1)).map (b :: ·)

def readTable (s : Space) : Nat → Nat → Option (List (Nat × List UInt8))
  | 0, _ => none
  | fuel + 1, a => do
      let p ← readWord s a
      if p = 0 then some []
      else
        let str ← readString s nname p
        let rest ← readTable s fuel (a + 4)
        some ((p,str) :: rest)

def parse (s : Space) (esp : Nat) : Option Initial := do
  let argc ← readWord s esp
  let argv ← readTable s (maxArg + 1) (esp + 4)
  let envpAt := esp + 4 + (argv.length + 1) * 4
  let envp ← readTable s (maxEnv + 1) envpAt
  let auxAt := envpAt + (envp.length + 1) * 4
  let type ← readWord s auxAt
  let val ← readWord s (auxAt + 4)
  some ⟨argc,argv,envp,(type,val)⟩

def Initial.items (esp : Nat) (i : Initial) : List (Nat × Nat) :=
  (i.argv ++ i.envp).map (fun e => (e.1,e.2.length + 1)) ++
    [(esp + 4 + (i.argv.length + 1 + i.envp.length + 1) * 4,8),
      (esp + 4 + (i.argv.length + 1) * 4,(i.envp.length + 1) * 4),(esp + 4,(i.argv.length + 1) * 4),
      (esp,4)]

def Apart (e e' : Nat × Nat) : Prop := e.1 + e.2 ≤ e'.1 ∨ e'.1 + e'.2 ≤ e.1

variable {s : Space} {x : Ctx} {X Y : Nat → Nat} {a sp lo hi fuel : Nat} {bs cs : List UInt8}
  {strs : List (List UInt8)}

theorem holds_append : s.Holds a (bs ++ cs) ↔ s.Holds a bs ∧ s.Holds (a + bs.length) cs := by
  constructor
  · refine fun h => ⟨fun i hi => ?_,fun i hi => ?_⟩
    · rw [h i (by rw [length_append]; omega),getD_append _ _ _ _ hi]
    · rw [add_assoc,h (bs.length + i) (by rw [length_append]; omega),
        getD_append_right _ _ _ _ (by omega),Nat.add_sub_cancel_left]
  rintro ⟨hb,hc⟩ i hi
  rw [length_append] at hi
  by_cases hlt : i < bs.length
  · rw [hb i hlt,getD_append _ _ _ _ hlt]
  have hrest := hc (i - bs.length) (by omega)
  rw [show a + bs.length + (i - bs.length) = a + i by omega] at hrest
  rw [hrest,getD_append_right _ _ _ _ (by omega)]

theorem le32_length (n : Nat) : (le32 n).length = 4 := rfl

theorem flatMap_le32_length (ns : List Nat) : (ns.flatMap le32).length = ns.length * 4 := by
  induction ns with
  | nil => rfl
  | cons n ns ih =>
    rw [flatMap_cons,length_append,ih,le32_length,length_cons]
    omega

theorem readWord_holds {n : Nat} (h : s.Holds a (le32 n)) (hn : n < word) :
    readWord s a = some n := by
  have h0 : s.byte a = _ := h 0 (by rw [le32_length]; decide)
  have h1 := h 1 (by rw [le32_length]; decide)
  have h2 := h 2 (by rw [le32_length]; decide)
  have h3 := h 3 (by rw [le32_length]; decide)
  simp only [le32,getD_cons_zero,getD_cons_succ] at h0 h1 h2 h3
  rw [readWord,h0,h1,h2,h3]
  simp only [bind_eq_bind,bind_some,UInt8.toNat_ofNat',Option.some.injEq]
  rw [word] at hn
  omega

theorem readString_holds {str : List UInt8} (h : s.Holds a (str ++ [0])) (hnul : 0 ∉ str)
    (hfuel : str.length < fuel) : readString s fuel a = some str := by
  induction str generalizing a fuel with
  | nil =>
    obtain ⟨fuel,rfl⟩ := Nat.exists_eq_succ_of_ne_zero (ne_of_gt hfuel)
    have h0 : s.byte a = some 0 := h 0 (by decide)
    rw [readString,h0]
    rfl
  | cons b str ih =>
    obtain ⟨fuel,rfl⟩ := Nat.exists_eq_succ_of_ne_zero (Nat.ne_of_gt ((Nat.zero_le _).trans_lt hfuel))
    obtain ⟨hb,hrest⟩ : s.Holds a [b] ∧ s.Holds (a + 1) (str ++ [0]) := holds_append.mp h
    have h0 : s.byte a = some b := hb 0 (by simp)
    rw [readString,h0]
    have hne : b ≠ 0 := fun he => hnul (he ▸ mem_cons_self)
    simp only [if_neg hne]
    rw [ih hrest (fun hin => hnul (mem_cons_of_mem b hin)) (by simpa using hfuel)]
    rfl

theorem readTable_holds (fuel : Nat) {ps : List (Nat × List UInt8)}
    (h : s.Holds a ((ps.map Prod.fst ++ [0]).flatMap le32))
    (hgood : ∀ e ∈ ps, (e.1 ≠ 0 ∧ e.1 < word) ∧ (0 ∉ e.2 ∧ e.2.length < nname) ∧
      s.Holds e.1 (e.2 ++ [0])) (hfuel : ps.length < fuel) : readTable s fuel a = some ps := by
  induction ps generalizing a fuel with
  | nil =>
    obtain ⟨fuel,rfl⟩ := Nat.exists_eq_succ_of_ne_zero (ne_of_gt hfuel)
    rw [readTable,readWord_holds (n := 0) h (by decide)]
    rfl
  | cons e ps ih =>
    obtain ⟨fuel,rfl⟩ := Nat.exists_eq_succ_of_ne_zero (Nat.ne_of_gt ((Nat.zero_le _).trans_lt hfuel))
    rw [map_cons,cons_append,flatMap_cons] at h
    obtain ⟨hword,hrest⟩ := holds_append.mp h
    rw [le32_length] at hrest
    obtain ⟨⟨⟨hne,hlt⟩,⟨hnul,hlen⟩,hp⟩,hgood⟩ := forall_mem_cons.mp hgood
    rw [readTable,readWord_holds hword hlt]
    simp only [bind_eq_bind,bind_some,if_neg hne]
    rw [readString_holds hp hnul hlen,ih _ hrest hgood (by simpa using hfuel)]
    rfl

def placed (sp : Nat) : List (List UInt8) → List (Nat × List UInt8)
  | [] => []
  | str :: strs => (sp - (str.length + 1),str) :: placed (sp - (str.length + 1)) strs

def stackEnd (sp : Nat) : List (List UInt8) → Nat
  | [] => sp
  | str :: strs => stackEnd (sp - (str.length + 1)) strs

theorem placed_append (sp : Nat) (args envs : List (List UInt8)) :
    placed sp (args ++ envs) = placed sp args ++ placed (stackEnd sp args) envs ∧
      stackEnd sp (args ++ envs) = stackEnd (stackEnd sp args) envs := by
  induction args generalizing sp with
  | nil => exact ⟨rfl,rfl⟩
  | cons str strs ih =>
    obtain ⟨hplaced,hend⟩ := ih (sp - (str.length + 1))
    exact ⟨congrArg (_ :: ·) hplaced,hend⟩

theorem placed_snd (sp : Nat) (strs : List (List UInt8)) : (placed sp strs).map Prod.snd = strs := by
  induction strs generalizing sp with
  | nil => rfl
  | cons str strs ih => rw [placed,map_cons,ih]

theorem placed_length (sp : Nat) (strs : List (List UInt8)) :
    (placed sp strs).length = strs.length := by
  rw [← length_map Prod.snd,placed_snd]

theorem stackEnd_bounds (sp : Nat) (hlen : ∀ str ∈ strs, str.length < nname) :
    stackEnd sp strs ≤ sp ∧ sp ≤ stackEnd sp strs + nname * strs.length := by
  induction strs generalizing sp with
  | nil => exact ⟨le_rfl,by simp [stackEnd]⟩
  | cons str strs ih =>
    obtain ⟨hstr,hrest⟩ := forall_mem_cons.mp hlen
    obtain ⟨hle,hge⟩ := ih (sp - (str.length + 1)) hrest
    rw [stackEnd,length_cons]
    simp only [nname] at *
    omega

theorem placed_descend (sp : Nat) (hroom : nname * strs.length < sp)
    (hlen : ∀ str ∈ strs, str.length < nname) :
    (placed sp strs).Pairwise (fun e e' => e'.1 + (e'.2.length + 1) ≤ e.1) ∧
      ∀ e ∈ placed sp strs, stackEnd sp strs ≤ e.1 ∧ e.1 + (e.2.length + 1) ≤ sp := by
  induction strs generalizing sp with
  | nil => exact ⟨.nil,fun e he => nomatch he⟩
  | cons str strs ih =>
    obtain ⟨hstr,hrest⟩ := forall_mem_cons.mp hlen
    rw [length_cons,Nat.mul_succ] at hroom
    obtain ⟨hpair,hin⟩ := ih (sp - (str.length + 1)) (by omega) hrest
    have hend := (stackEnd_bounds (sp - (str.length + 1)) hrest).1
    rw [placed,stackEnd]
    refine ⟨.cons (fun e he => (hin e he).2) hpair,forall_mem_cons.mpr ⟨⟨hend,?_⟩,?_⟩⟩
    · dsimp only
      omega
    · intro e he
      have := hin e he
      omega

theorem pushString_stored {str : List UInt8} {st : Pushed} (h : st.ctx.space.Ok X Y)
    (hs : st.ctx.space.Sole X) (hmap : st.ctx.Mapped userStackBottom userStack)
    (hlen : str.length < nname) (hroom : userStackBottom + nname ≤ st.sp) (hsp : st.sp ≤ userStack) :
    ∃ y, pushString str st =
        (⟨y,st.sp - (str.length + 1),st.ptrs ++ [st.sp - (str.length + 1)]⟩,true) ∧
      Stored st.ctx y X Y (st.sp - (str.length + 1)) st.sp ∧
      y.space.Holds (st.sp - (str.length + 1)) (str ++ [0]) := by
  have hfit : st.sp - (str.length + 1) + (str ++ [0]).length = st.sp := by
    rw [length_append,length_singleton]
    omega
  have htop : userStack = userEnd := rfl
  obtain ⟨y,hc,hst,hy⟩ := copyout_stored (d := st.sp - (str.length + 1))
    (str ++ [0]) h hs (by omega) (fun a hlo hhi => hmap a (by omega) (by omega))
  rw [hfit] at hst
  refine ⟨y,?_,hst,hy⟩
  have hok : ¬ (nname < str.length + 1 ∨ st.sp < userStackBottom + (str.length + 1)) := by
    omega
  simp only [pushString,if_neg hok,hc]

theorem pushAll_stored (st : Pushed) (h : st.ctx.space.Ok X Y)
    (hs : st.ctx.space.Sole X) (hmap : st.ctx.Mapped userStackBottom userStack)
    (hlen : ∀ str ∈ strs, str.length < nname)
    (hroom : userStackBottom + nname * strs.length ≤ st.sp) (hsp : st.sp ≤ userStack) :
    ∃ y, Loop.forEach pushString strs st =
        (⟨y,stackEnd st.sp strs,st.ptrs ++ (placed st.sp strs).map Prod.fst⟩,true) ∧
      Stored st.ctx y X Y (stackEnd st.sp strs) st.sp ∧
      ∀ e ∈ placed st.sp strs, y.space.Holds e.1 (e.2 ++ [0]) := by
  induction strs generalizing st with
  | nil => exact ⟨st.ctx,by rw [placed,map_nil,append_nil]; rfl,.refl h hs,fun e he => nomatch he⟩
  | cons str strs ih =>
    obtain ⟨hstr,hrest⟩ := forall_mem_cons.mp hlen
    have htop : userStack = userEnd := rfl
    rw [length_cons,Nat.mul_succ] at hroom
    obtain ⟨y,hpush,hst,hy⟩ := pushString_stored h hs hmap hstr (by omega) hsp
    obtain ⟨z,hall,hst',hz⟩ := ih
      ⟨y,st.sp - (str.length + 1),st.ptrs ++ [st.sp - (str.length + 1)]⟩
      hst.ok hst.sole (hst.mapped hmap) hrest (by dsimp only; omega) (by dsimp only; omega)
    dsimp only at hall hst' hz
    refine ⟨z,?_,?_,forall_mem_cons.mpr ⟨hst'.holds hy (.inr le_rfl) ?_,hz⟩⟩
    · rw [Loop.forEach_cons_true hpush,hall,append_assoc]
      rfl
    · rw [stackEnd]
      exact (hst.mono (stackEnd_bounds _ hrest).1 le_rfl).trans (hst'.mono le_rfl (by omega))
    · rw [length_append,length_singleton]
      dsimp only
      omega

theorem pushAll_short {st : Pushed}
    (h : (Loop.forEach pushString strs st).2 = true) : ∀ str ∈ strs, str.length < nname := by
  induction strs generalizing st with
  | nil => exact fun str hstr => nomatch hstr
  | cons str strs ih =>
    rcases hp : pushString str st with ⟨st',_ | _⟩
    · rw [Loop.forEach_cons_false hp] at h
      cases h
    rw [Loop.forEach_cons_true hp] at h
    have hstr : str.length < nname := by
      by_contra hlong
      rw [pushString,if_pos (.inl (by omega))] at hp
      cases hp
    exact forall_mem_cons.mpr ⟨hstr,ih h⟩

theorem copyoutAll_stored (parts : List (Nat × List UInt8)) (h : x.space.Ok X Y)
    (hs : x.space.Sole X) (hmap : x.Mapped lo hi) (hend : hi ≤ userEnd)
    (hin : ∀ part ∈ parts, lo ≤ part.1 ∧ part.1 + part.2.length ≤ hi)
    (hdis : parts.Pairwise fun p q => p.1 + p.2.length ≤ q.1) :
    ∃ y, copyoutAll x parts = (y,true) ∧ Stored x y X Y lo hi ∧
      ∀ part ∈ parts, y.space.Holds part.1 part.2 := by
  induction parts generalizing x lo with
  | nil => exact ⟨x,rfl,.refl h hs,fun part hp => nomatch hp⟩
  | cons part parts ih =>
    obtain ⟨hlo,hhi⟩ := hin part mem_cons_self
    obtain ⟨hfirst,hrest⟩ := pairwise_cons.mp hdis
    obtain ⟨y,hc,hst,hy⟩ := copyout_stored _ h hs (hhi.trans hend)
      (fun a h1 h2 => hmap a (hlo.trans h1) (h2.trans_le hhi))
    obtain ⟨z,hall,hst',hz⟩ := ih hst.ok hst.sole
      (fun a h1 h2 => hst.mapped hmap a (by omega) h2)
      (fun p hp => ⟨hfirst p hp,(hin p (mem_cons_of_mem part hp)).2⟩) hrest
    refine ⟨z,(Loop.forEach_cons_true hc).trans hall,
      (hst.mono hlo hhi).trans (hst'.mono (by omega) le_rfl),?_⟩
    exact forall_mem_cons.mpr ⟨hst'.holds hy (.inl le_rfl) (hhi.trans hend),hz⟩

def arguments (name : List UInt8) (argv : List (List UInt8)) : List (List UInt8) :=
  if argv = [] then [name] else argv

structure Built (s : Space) (args envs : List (List UInt8)) (esp : Nat) : Prop where
  argc : s.Holds esp (le32 args.length)
  argv : s.Holds (esp + 4) (((placed userStack args).map Prod.fst ++ [0]).flatMap le32)
  envp : s.Holds (esp + 4 + (args.length + 1) * 4)
    (((placed (stackEnd userStack args) envs).map Prod.fst ++ [0]).flatMap le32)
  aux : s.Holds (esp + 4 + (args.length + 1 + envs.length + 1) * 4) ([atNull,0].flatMap le32)
  strs : ∀ e ∈ placed userStack (args ++ envs), s.Holds e.1 (e.2 ++ [0])
  aligned : esp % 16 = 0
  low : userStackBottom ≤ esp
  fits : esp + (1 + (args.length + 1) + (envs.length + 1) + 2) * 4 ≤ stackEnd userStack (args ++ envs)

variable {name : List UInt8} {argv args envs : List (List UInt8)} {esp : Nat}

theorem stack_room (hargs : args.length ≤ maxArg) (henvs : envs.length ≤ maxEnv)
    (hshort : ∀ str ∈ args ++ envs, str.length < nname) :
    userStackBottom + nname * args.length ≤ userStack ∧
      userStackBottom + nname * envs.length ≤ stackEnd userStack args ∧
      stackEnd userStack args ≤ userStack ∧
      userStackBottom + (1 + (args.length + 1) + (envs.length + 1) + 2) * 4 + 16 ≤
        stackEnd userStack (args ++ envs) ∧ stackEnd userStack (args ++ envs) ≤ userStack ∧
      nname * (args ++ envs).length < userStack ∧ 0 < userStackBottom ∧ userStack = userEnd := by
  have hsize : userStack = userStackBottom + 65536 := by decide
  obtain ⟨hshortA,hshortE⟩ := forall_mem_append.mp hshort
  obtain ⟨h1,h2⟩ := stackEnd_bounds userStack hshortA
  obtain ⟨h3,h4⟩ := stackEnd_bounds (stackEnd userStack args) hshortE
  have hpos : 0 < userStackBottom := by decide
  have hn : nname = 256 := rfl
  rw [(placed_append ..).2,length_append]
  rw [hn] at h2 h4 ⊢
  have ha : maxArg = 32 := rfl
  have he : maxEnv = 32 := rfl
  refine ⟨?_,?_,h1,?_,?_,?_,hpos,rfl⟩ <;> omega

theorem tables_stored (esp : Nat) {z : Ctx} {aptrs eptrs : List Nat} {argc envc : Nat}
    (h : z.space.Ok X Y) (hs : z.space.Sole X)
    (hmap : z.Mapped esp (esp + (1 + (argc + 1) + (envc + 1) + 2) * 4))
    (hend : esp + (1 + (argc + 1) + (envc + 1) + 2) * 4 ≤ userEnd) (ha : aptrs.length = argc)
    (he : eptrs.length = envc) :
    ∃ w, copyoutAll z [(esp,le32 argc),(esp + 4,(aptrs ++ [0]).flatMap le32),
        (esp + 4 + (argc + 1) * 4,(eptrs ++ [0]).flatMap le32),
        (esp + 4 + (argc + 1 + envc + 1) * 4,[atNull,0].flatMap le32)] = (w,true) ∧
      Stored z w X Y esp (esp + (1 + (argc + 1) + (envc + 1) + 2) * 4) ∧
      w.space.Holds esp (le32 argc) ∧ w.space.Holds (esp + 4) ((aptrs ++ [0]).flatMap le32) ∧
      w.space.Holds (esp + 4 + (argc + 1) * 4) ((eptrs ++ [0]).flatMap le32) ∧
      w.space.Holds (esp + 4 + (argc + 1 + envc + 1) * 4) ([atNull,0].flatMap le32) := by
  have haux : ([atNull,0].flatMap le32).length = 8 := rfl
  have hatab : ((aptrs ++ [0]).flatMap le32).length = (argc + 1) * 4 := by
    rw [flatMap_le32_length,length_append,ha,length_singleton]
  have hetab : ((eptrs ++ [0]).flatMap le32).length = (envc + 1) * 4 := by
    rw [flatMap_le32_length,length_append,he,length_singleton]
  obtain ⟨w,hw,hst,hheld⟩ := copyoutAll_stored [(esp,le32 argc),
      (esp + 4,(aptrs ++ [0]).flatMap le32),(esp + 4 + (argc + 1) * 4,(eptrs ++ [0]).flatMap le32),
      (esp + 4 + (argc + 1 + envc + 1) * 4,[atNull,0].flatMap le32)] h hs hmap hend
    (by
      simp only [forall_mem_cons,le32_length,hatab,hetab,haux,not_mem_nil,IsEmpty.forall_iff,
        implies_true,and_true]
      omega)
    (by
      simp only [pairwise_cons,forall_mem_cons,le32_length,hatab,hetab,not_mem_nil,
        IsEmpty.forall_iff,implies_true,and_true,List.Pairwise.nil]
      omega)
  simp only [forall_mem_cons,not_mem_nil,IsEmpty.forall_iff,implies_true,and_true] at hheld
  exact ⟨w,hw,hst,hheld⟩

theorem arguments_length (name : List UInt8) (hargv : argv.length ≤ maxArg) :
    (arguments name argv).length ≤ maxArg := by
  rw [arguments]
  split
  · exact Nat.le_of_ble_eq_true rfl
  · exact hargv

theorem execStackArgv_built (h : x.space.Ok X Y) (hs : x.space.Sole X)
    (hmap : x.Mapped userStackBottom userStack) (hargv : argv.length ≤ maxArg)
    (henvs : envs.length ≤ maxEnv) (hshort : ∀ str ∈ arguments name argv ++ envs, str.length < nname) :
    ∃ y esp, execStackArgv x name argv envs = (y,some esp) ∧
      Built y.space (arguments name argv) envs esp := by
  obtain ⟨hr1,hr2,hr3,hr4,hend,hr5,hpos,htop⟩ := stack_room (arguments_length name hargv) henvs hshort
  have hin := (placed_descend userStack hr5 hshort).2
  obtain ⟨hshortA,hshortE⟩ := forall_mem_append.mp hshort
  have hdef : (if argv = [] then [name] else argv) = arguments name argv := rfl
  have hcount : ¬ (maxArg < argv.length ∨ maxEnv < envs.length) := by omega
  generalize arguments name argv = args at *
  obtain ⟨y,ha,hsty,hkeptA⟩ := pushAll_stored ⟨x,userStack,[]⟩ h hs hmap hshortA hr1 le_rfl
  obtain ⟨z,he,hstz,hkeptE⟩ := pushAll_stored ⟨y,stackEnd userStack args,[]⟩ hsty.ok
    hsty.sole (hsty.mapped hmap) hshortE hr2 hr3
  dsimp only at ha he hsty hstz hkeptA hkeptE
  rw [nil_append] at ha he
  rw [← (placed_append ..).2] at he hstz
  have hkept : ∀ e ∈ placed userStack (args ++ envs), z.space.Holds e.1 (e.2 ++ [0]) := by
    rw [(placed_append ..).1]
    refine forall_mem_append.mpr ⟨fun e hmem => ?_,hkeptE⟩
    have hinA := (placed_descend userStack (by omega) hshortA).2 e hmem
    refine hstz.holds (hkeptA e hmem) (.inr hinA.1) ?_
    rw [length_append,length_singleton]
    omega
  obtain ⟨sp,hsp⟩ : ∃ sp, sp = (stackEnd userStack (args ++ envs) -
      (1 + (args.length + 1) + (envs.length + 1) + 2) * 4) / 16 * 16 := ⟨_,rfl⟩
  obtain ⟨w,hw,hstw,hargc,hatab,hetab,haux⟩ := tables_stored sp hstz.ok hstz.sole
    (fun a h1 h2 => hstz.mapped (hsty.mapped hmap) a (by omega) (by omega)) (by omega)
    ((length_map _).trans (placed_length userStack args))
    ((length_map _).trans (placed_length (stackEnd userStack args) envs))
  refine ⟨w,sp,?_,hargc,hatab,hetab,haux,fun e hmem => ?_,by omega,by omega,by omega⟩
  · simp only [execStackArgv,if_neg hcount,hdef,ha,he,← hsp]
    rw [if_neg (by omega),if_neg (by omega),hw]
  · have hine := hin e hmem
    refine hstw.holds (hkept e hmem) (.inr (by omega)) ?_
    rw [length_append,length_singleton]
    omega

def initial (args envs : List (List UInt8)) : Initial where
  argc := args.length
  argv := placed userStack args
  envp := placed (stackEnd userStack args) envs
  aux := (atNull,0)

theorem Built.parse_eq (h : Built s args envs esp) (hargs : args.length ≤ maxArg)
    (henvs : envs.length ≤ maxEnv)
    (hgood : ∀ str ∈ args ++ envs, 0 ∉ str ∧ str.length < nname) :
    parse s esp = some (initial args envs) := by
  obtain ⟨hr1,hr2,hr3,hr4,hend,hr5,hpos,htop⟩ := stack_room hargs henvs fun str hstr =>
    (hgood str hstr).2
  have hin := (placed_descend userStack hr5 fun str hstr => (hgood str hstr).2).2
  have hword := userEnd_lt
  have hall : ∀ e ∈ placed userStack (args ++ envs), (e.1 ≠ 0 ∧ e.1 < word) ∧
      (0 ∉ e.2 ∧ e.2.length < nname) ∧ s.Holds e.1 (e.2 ++ [0]) := by
    intro e he
    have hine := hin e he
    have hmem := mem_map_of_mem (f := Prod.snd) he
    rw [placed_snd] at hmem
    exact ⟨by omega,hgood e.2 hmem,h.strs e he⟩
  rw [(placed_append ..).1] at hall
  obtain ⟨hgoodA,hgoodE⟩ := forall_mem_append.mp hall
  have hargc := readWord_holds h.argc
    (by have : maxArg = 32 := rfl; have : word = 2 ^ 32 := rfl; omega)
  have hargv := readTable_holds (maxArg + 1) h.argv hgoodA (by rw [placed_length]; omega)
  have henvp := readTable_holds (maxEnv + 1) h.envp hgoodE (by rw [placed_length]; omega)
  obtain ⟨haux,hval⟩ : s.Holds _ (le32 atNull) ∧ s.Holds _ (le32 0) := holds_append.mp h.aux
  have htype := readWord_holds haux (by decide)
  have hzero := readWord_holds hval (by decide)
  rw [le32_length] at hzero
  rw [parse,hargc,hargv]
  simp only [bind_eq_bind,bind_some,placed_length]
  rw [henvp]
  simp only [bind_some,placed_length]
  rw [show esp + 4 + (args.length + 1) * 4 + (envs.length + 1) * 4 =
    esp + 4 + (args.length + 1 + envs.length + 1) * 4 by omega,htype,hzero]
  rfl

theorem Built.items_apart (h : Built s args envs esp) (hargs : args.length ≤ maxArg)
    (henvs : envs.length ≤ maxEnv) (hshort : ∀ str ∈ args ++ envs, str.length < nname) :
    ((initial args envs).items esp).Pairwise Apart ∧
      ∀ e ∈ (initial args envs).items esp, userStackBottom ≤ e.1 ∧ e.1 + e.2 ≤ userStack := by
  obtain ⟨hr1,hr2,hr3,hr4,hend,hr5,hpos,htop⟩ := stack_room hargs henvs hshort
  obtain ⟨hpair,hin⟩ := placed_descend userStack hr5 hshort
  have hlow := h.low
  have hfits := h.fits
  simp only [Initial.items,initial,placed_length]
  rw [← (placed_append ..).1]
  refine ⟨List.Pairwise.imp (R := fun e e' => e'.1 + e'.2 ≤ e.1) .inr ?_,?_⟩
  · refine pairwise_append.mpr ⟨pairwise_map.mpr hpair,?_,?_⟩
    · simp only [pairwise_cons,forall_mem_cons,not_mem_nil,IsEmpty.forall_iff,implies_true,and_true,
        List.Pairwise.nil]
      omega
    intro e he
    obtain ⟨e,hmem,rfl⟩ := mem_map.mp he
    have hine := hin e hmem
    simp only [forall_mem_cons,not_mem_nil,IsEmpty.forall_iff,implies_true,and_true]
    omega
  · refine forall_mem_append.mpr ⟨forall_mem_map.mpr fun e he => ?_,?_⟩
    · have hine := hin e he
      dsimp only
      omega
    · simp only [forall_mem_cons,not_mem_nil,IsEmpty.forall_iff,implies_true,and_true]
      omega

theorem execStackArgv_limits {y : Ctx} (he : execStackArgv x name argv envs = (y,some esp)) :
    argv.length ≤ maxArg ∧ envs.length ≤ maxEnv ∧
      ∀ str ∈ arguments name argv ++ envs, str.length < nname := by
  rw [execStackArgv] at he
  split at he
  · cases he
  rename_i hcount
  rw [show (if argv = [] then [name] else argv) = arguments name argv from rfl] at he
  rcases ha : Loop.forEach pushString (arguments name argv) ⟨x,userStack,[]⟩ with ⟨a,_ | _⟩
  · simp only [ha] at he
    cases he
  rcases hb : Loop.forEach pushString envs ⟨a.ctx,a.sp,[]⟩ with ⟨b,_ | _⟩
  · simp only [ha,hb] at he
    cases he
  refine ⟨by omega,by omega,forall_mem_append.mpr ⟨?_,?_⟩⟩
  · exact pushAll_short (congrArg Prod.snd ha)
  · exact pushAll_short (congrArg Prod.snd hb)

theorem initial_stack_parses (x : Ctx) (X Y : Nat → Nat) (name : List UInt8)
    (argv envp : List (List UInt8)) (h : x.space.Ok X Y) (hs : x.space.Sole X)
    (hmap : x.Mapped userStackBottom userStack) (hnul : ∀ str ∈ name :: argv ++ envp, 0 ∉ str) :
    ((execStackArgv x name argv envp).2 = none ↔ maxArg < argv.length ∨ maxEnv < envp.length ∨
        ∃ str ∈ arguments name argv ++ envp, nname ≤ str.length) ∧
      ∀ y esp, execStackArgv x name argv envp = (y,some esp) → ∃ i, parse y.space esp = some i ∧
        i.argc = (arguments name argv).length ∧ i.argv.map Prod.snd = arguments name argv ∧
        i.envp.map Prod.snd = envp ∧ i.aux = (atNull,0) ∧ esp % 16 = 0 ∧
        (i.items esp).Pairwise Apart ∧
        ∀ e ∈ i.items esp, userStackBottom ≤ e.1 ∧ e.1 + e.2 ≤ userStack := by
  refine ⟨⟨fun hnone => ?_,fun hover => ?_⟩,fun y esp he => ?_⟩
  · by_contra hin
    simp only [not_or,not_exists,not_and,not_lt,not_le] at hin
    obtain ⟨y,esp,he,-⟩ := execStackArgv_built h hs hmap hin.1 hin.2.1 hin.2.2
    rw [he] at hnone
    cases hnone
  · rcases he : execStackArgv x name argv envp with ⟨y,_ | esp⟩
    · rfl
    obtain ⟨hargv,henvp,hshort⟩ := execStackArgv_limits he
    rcases hover with hover | hover | ⟨str,hstr,hlong⟩
    · omega
    · omega
    · have := hshort str hstr
      omega
  obtain ⟨hargv,henvp,hshort⟩ := execStackArgv_limits he
  obtain ⟨y',esp',he',hbuilt⟩ := execStackArgv_built h hs hmap hargv henvp hshort
  obtain ⟨rfl,hesp⟩ := Prod.mk.inj (he.symm.trans he')
  obtain rfl := Option.some.inj hesp
  have hargs := arguments_length name hargv
  have hgood : ∀ str ∈ arguments name argv ++ envp, 0 ∉ str ∧ str.length < nname := by
    refine fun str hstr => ⟨hnul str ?_,hshort str hstr⟩
    rcases mem_append.mp hstr with hin | hin
    · rw [arguments] at hin
      split at hin
      · rw [mem_singleton.mp hin]
        exact mem_cons_self
      · exact mem_cons_of_mem _ (mem_append_left _ hin)
    · exact mem_cons_of_mem _ (mem_append_right _ hin)
  obtain ⟨hapart,hinside⟩ := hbuilt.items_apart hargs henvp hshort
  exact ⟨initial (arguments name argv) envp,hbuilt.parse_eq hargs henvp hgood,rfl,placed_snd _ _,
    placed_snd _ _,rfl,hbuilt.aligned,hapart,hinside⟩

theorem execMapStack_maps {s' : Space} (h : s.Ok X Y) (hs : s.Sole X)
    (he : execMapStack s = (s',true)) :
    ∀ a, userStackBottom ≤ a → a < userStack → s'.pd.lookup a ≠ none := by
  have hpage : ∀ va ∈ pageRange userStackBottom userStack, va % pgSize = 0 ∧ va < userEnd := by
    intro va hva
    obtain ⟨i,rfl,hlt⟩ := mem_pageRange.mp hva
    refine ⟨?_,hlt⟩
    rw [Nat.add_mul_mod_self_right]
    decide
  have hloop := Loop.forEach_rule execMapStackPage (pageRange userStackBottom userStack) (s := s)
    (I := fun done t => Loaded s t X Y (fun _ => True) ∧
      ∀ a < userEnd, (∃ va ∈ done, a / pgSize = va / pgSize) → t.pd.lookup a ≠ none)
    (E := fun _ => True) ?_ (fun _ _ _ _ _ _ _ _ => trivial)
    ⟨.refl h hs,fun a _ ⟨va,hva,_⟩ => nomatch hva⟩
  · rw [show Loop.forEach execMapStackPage _ s = (s',true) from he] at hloop
    intro a hlo hhi
    refine (hloop.1 rfl).2 a hhi ⟨userStackBottom + (a - userStackBottom) / pgSize * pgSize,
      mem_pageRange.mpr ⟨_,rfl,?_⟩,?_⟩
    · have := Nat.div_mul_le_self (a - userStackBottom) pgSize
      omega
    · have hal : userStackBottom % pgSize = 0 := by decide
      simp only [pgSize] at *
      omega
  rintro done va rest t t' hsplit ⟨hload,hthere⟩ hbody
  obtain ⟨hal,hlt⟩ := hpage va (by rw [hsplit]; simp)
  rw [execMapStackPage] at hbody
  rcases hm : t.mapNewPage va true with ⟨u,_ | f⟩
  · rw [hm] at hbody
    cases hbody
  rw [hm] at hbody
  cases hbody
  have hf := mapNewPage_some hload.ok hal hlt hm
  refine ⟨hload.trans ((Loaded.of_filled hload.sole hf).mono fun _ _ => trivial),?_⟩
  rintro a ha ⟨vb,hvb,hpg⟩
  rw [hf.lookup a (ha.trans userEnd_lt)]
  split
  · exact some_ne_none _
  rename_i hne
  rcases mem_append.mp hvb with hvb | hvb
  · exact hthere a ha ⟨vb,hvb,hpg⟩
  · rw [mem_singleton.mp hvb] at hpg
    exact absurd hpg hne

theorem initial_stack_parses_env : ∃ (x y : Ctx) (esp : Nat) (i : Initial),
    execStackArgv x [0x73,0x68] [] [[0x41,0x3d,0x31]] = (y,some esp) ∧
      parse y.space esp = some i ∧ i.argv.map Prod.snd = [[0x73,0x68]] ∧
      i.envp.map Prod.snd = [[0x41,0x3d,0x31]] := by
  obtain ⟨k,hk,ht⟩ := Elf.exists_booted
    (fun k => (execMapStack ⟨k.phys,fun _ => none⟩).2) (by decide +kernel)
  have hok := Elf.newSpace_ok hk
  rcases hm : execMapStack ⟨k.phys,fun _ => none⟩ with ⟨s,b⟩
  rw [hm] at ht
  obtain rfl : b = true := ht
  have hsole : Space.Sole ⟨k.phys,fun _ => none⟩ k.users := fun _ _ _ hl => nomatch hl
  have hload := execMapStack_loaded hok hsole
  rw [hm] at hload
  obtain ⟨x,hx⟩ : ∃ x : Ctx, x.space = s :=
    ⟨⟨s.phys,fun _ => ShmSeg.empty,⟨0,s.pd,0,0,0,0,0,fun _ => Vma.empty⟩⟩,rfl⟩
  obtain ⟨hnone,hparse⟩ := initial_stack_parses x k.users _ [0x73,0x68] []
    [[0x41,0x3d,0x31]] (hx ▸ hload.ok) (hx ▸ hload.sole)
    (fun a hlo hhi => by
      have hmaps := execMapStack_maps hok hsole hm a hlo hhi
      rw [← hx] at hmaps
      exact hmaps)
    (by decide)
  rcases he : execStackArgv x [0x73,0x68] [] [[0x41,0x3d,0x31]] with ⟨y,_ | esp⟩
  · rw [he] at hnone
    exact absurd (hnone.mp rfl) (by decide)
  · obtain ⟨i,hi,-,hargv,henvp,-⟩ := hparse y esp he
    exact ⟨x,y,esp,i,he,hi,hargv,henvp⟩

end TinyOs.InitStack
