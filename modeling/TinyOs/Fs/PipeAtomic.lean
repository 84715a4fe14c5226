import TinyOs.Fs.Pipe

namespace TinyOs.Fs

open List State Machine
open Function (update update_of_ne update_self)

variable {P : Type} {s s' : State P} {p : P} {op : Op P} {es tr A B X C : List (Event P)}
  {buf src : List Byte}

namespace Event

variable {es' : List (Event P)}

def Quiet (p : P) (es : List (Event P)) : Prop := ∀ b, put p b ∉ es

def Contiguous (p : P) (buf : List Byte) (es : List (Event P)) : Prop :=
  ∃ before after, es = before ++ buf.map (put p) ++ after ∧ Quiet p before ∧ Quiet p after

theorem Quiet.append (h : Quiet p es) (h' : Quiet p es') : Quiet p (es ++ es') := by
  intro b hb
  exact (mem_append.mp hb).elim (h b) (h' b)

theorem Quiet.nil : Quiet p ([] : List (Event P)) := nofun

theorem Contiguous.append (h : Contiguous p buf es) (h' : Quiet p es') :
    Contiguous p buf (es ++ es') := by
  obtain ⟨before,after,rfl,hb,ha⟩ := h
  exact ⟨before,after ++ es',by rw [append_assoc],hb,ha.append h'⟩

end Event

open Event

inductive Phase (p : P) (buf : List Byte) (es : List (Event P)) : Task → Prop where
  | ready {f : Fin nFile} {i : Option Nat} (h : Quiet p es) :
      Phase p buf es (.ready (.write f buf i 0 []))
  | parking {chan : Chan} {f : Fin nFile} {i : Option Nat} (h : Quiet p es) :
      Phase p buf es (.parking chan (.write f buf i 0 []))
  | asleep {chan : Chan} {f : Fin nFile} {i : Option Nat} (h : Quiet p es) :
      Phase p buf es (.asleep chan (.write f buf i 0 []))
  | going {c : Call} {ws : List Chan} {chan : Chan} {f : Fin nFile} {i : Option Nat}
      (h : Quiet p es) : Phase p buf es (.inside c ws (.sleep chan (.write f buf i 0 [])))
  | done {f : Fin nFile} {i : Option Nat} {ws : List Chan} {r : Int}
      (h : 0 ≤ r → Contiguous p buf es) :
      Phase p buf es (.inside (.write f buf i 0 []) ws (.ret r))

namespace Phase

theorem append {t : Task} (h : Phase p buf B t) (hes : Quiet p es) : Phase p buf (B ++ es) t := by
  cases h with
  | ready h => exact .ready (h.append hes)
  | parking h => exact .parking (h.append hes)
  | asleep h => exact .asleep (h.append hes)
  | going h => exact .going (h.append hes)
  | done h => exact .done fun hr => (h hr).append hes

theorem not_resting (h : Phase p buf B (s.tasks p)) : ¬ s.resting p := by
  intro hp
  rw [resting] at hp
  generalize s.tasks p = t at h hp
  cases h <;> cases hp

end Phase

theorem pipeWriteLoop_whole (pi : Pipe) (killed : Bool) (i : Nat) (hlen : src.length ≤ pipeSize) :
    (pipeWriteLoop pi killed src i).got = [] ∧ ((pipeWriteLoop pi killed src i).stored = [] ∧
          (∃ chan j, (pipeWriteLoop pi killed src i).flow = .sleep chan j) ∨
        ∃ r, (pipeWriteLoop pi killed src i).flow = .ret r ∧
          (0 ≤ r → (pipeWriteLoop pi killed src i).stored = src)) := by
  unfold pipeWriteLoop
  dsimp only
  split
  · split
    · split
      · exact ⟨rfl,.inr ⟨-1,rfl,fun h => absurd h (by decide)⟩⟩
      · exact ⟨rfl,.inl ⟨rfl,_,_,rfl⟩⟩
    · exact ⟨rfl,.inr ⟨_,rfl,fun _ => rfl⟩⟩
  · rename_i hn
    have hnil : src = [] := length_eq_zero_iff.mp (by omega)
    subst hnil
    simp [Pipe.fill]

theorem stretch_whole (s : State P) (q : P) (f : Fin nFile) (i : Option Nat)
    (hlen : src.length ≤ pipeSize) : (s.stretch q (.write f src i 0 [])).got = [] ∧
      ((s.stretch q (.write f src i 0 [])).stored = [] ∧
          (∃ chan j, (s.stretch q (.write f src i 0 [])).flow =
            .sleep chan (.write f src (some j) 0 [])) ∨
        ∃ r, (s.stretch q (.write f src i 0 [])).flow = .ret r ∧
          (0 ≤ r → (s.stretch q (.write f src i 0 [])).stored = src)) := by
  have hmap : ∀ x : Stretch Nat, (x.got = [] ∧ (x.stored = [] ∧ (∃ chan j, x.flow = .sleep chan j) ∨
      ∃ r, x.flow = .ret r ∧ (0 ≤ r → x.stored = src))) →
      ∀ y, y = x.map (fun j => Call.write f src (some j) 0 []) →
        y.got = [] ∧ (y.stored = [] ∧ (∃ chan j, y.flow = .sleep chan (.write f src (some j) 0 [])) ∨
          ∃ r, y.flow = .ret r ∧ (0 ≤ r → y.stored = src)) := by
    rintro x ⟨hgot,⟨hsto,chan,j,hflow⟩ | ⟨r,hflow,hsto⟩⟩ y rfl
    · exact ⟨hgot,.inl ⟨hsto,chan,j,by simp only [Stretch.map,hflow]⟩⟩
    · exact ⟨hgot,.inr ⟨r,by simp only [Stretch.map,hflow],hsto⟩⟩
  cases i with
  | none =>
    refine hmap (pipeWrite s.pipe (s.killed q) src) ?_ _ rfl
    unfold pipeWrite
    split
    · exact ⟨rfl,.inr ⟨-1,rfl,fun h => absurd h (by decide)⟩⟩
    · exact pipeWriteLoop_whole s.pipe (s.killed q) 0 hlen
  | some i => exact hmap _ (pipeWriteLoop_whole s.pipe (s.killed q) i hlen) _ rfl

theorem append_eq_cons {e : Event P} (h : tr ++ es = X ++ e :: C) :
    (∃ C', tr = X ++ e :: C' ∧ C = C' ++ es) ∨ ∃ X', X = tr ++ X' ∧ es = X' ++ e :: C := by
  rcases append_eq_append_iff.mp h with ⟨X',hX,hes⟩ | ⟨cs,htr,hcs⟩
  · exact .inr ⟨X',hX,hes⟩
  cases cs with
  | nil => exact .inr ⟨[],by rw [htr,append_nil,append_nil],hcs.symm⟩
  | cons d C' =>
    obtain ⟨rfl,rfl⟩ := cons.inj hcs
    exact .inl ⟨C',htr,rfl⟩

theorem quiet_put {q : P} (hq : q ≠ p) (bs bs' : List Byte) :
    Quiet p (bs.map (put q) ++ bs'.map got) := by
  intro b hb
  simp only [mem_append,mem_map,reduceCtorEq,and_false,exists_false,or_false,put.injEq] at hb
  obtain ⟨_,_,hqp,_⟩ := hb
  exact hq hqp

theorem quiet_afterReturn (q : P) (r : Int) (c : Call) : Quiet p (State.afterReturn q r c).2 := by
  intro b hb
  cases c with
  | write =>
    simp only [afterReturn] at hb
    split at hb
    · simp at hb
    · split at hb <;> simp at hb
  | read | release | openFifo => simp [afterReturn] at hb

namespace Step

variable [DecidableEq P]

theorem phase_other {q : P} (hq : p ≠ q) {t : Task} (h : Phase p buf B (s.tasks p))
    (hes : Quiet p es) (ht : s'.tasks = update s.tasks q t) :
    Phase p buf (B ++ es) (s'.tasks p) := by
  rw [ht,update_of_ne hq]
  exact h.append hes

theorem phase (hs : Step s op s' es) (hlen : buf.length ≤ sizeofBuf)
    (h : Phase p buf B (s.tasks p)) (hret : ∀ r, ret p r ∉ es) :
    Phase p buf (B ++ es) (s'.tasks p) := by
  have hrest := h.not_resting
  cases hs with
  | refuse hp => exact h.append (by simp [Quiet])
  | @write _ q f src rest hp =>
    have hq : p ≠ q := fun e => hrest (e ▸ hp)
    exact phase_other hq h (by simp [Quiet]) rfl
  | @read q f n hp | @close q f hp | @openFifo q f file hp =>
    have hq : p ≠ q := fun e => hrest (e ▸ hp)
    exact phase_other hq h .nil rfl
  | @enter q c hl hp =>
    by_cases hq : p = q
    · subst hq
      rw [hp] at h
      cases h with
      | @ready f i hquiet =>
        obtain ⟨hgot,hcase⟩ :=
          stretch_whole s p f i (hlen.trans (by decide : sizeofBuf ≤ pipeSize))
        simp only [update_self]
        rw [hgot]
        rcases hcase with ⟨hsto,chan,j,hflow⟩ | ⟨r,hflow,hsto⟩
        · rw [hsto,hflow]
          exact .going (hquiet.append .nil)
        rw [hflow]
        refine .done fun hr => ⟨B,[],?_,hquiet,.nil⟩
        rw [hsto hr,map_nil,append_assoc]
    · exact phase_other hq h (quiet_put (Ne.symm hq) _ _) rfl
  | @wake q c chan ws flow hl hp =>
    rw [append_nil]
    by_cases hq : p = q
    · subst hq
      simp only [setTask,update_self]
      rw [hp] at h
      cases h with
      | going hquiet => exact .going hquiet
      | done hdone => exact .done hdone
    simp only [setTask,update_of_ne hq,wakeup]
    generalize s.tasks p = t at h
    cases h with
    | asleep hquiet =>
      dsimp only
      split
      · exact .ready hquiet
      · exact .asleep hquiet
    | ready hquiet => exact .ready hquiet
    | parking hquiet => exact .parking hquiet
    | going hquiet => exact .going hquiet
    | done hdone => exact .done hdone
  | @leave q c r hp =>
    by_cases hq : p = q
    · subst hq
      rw [hp] at h
      cases h with
      | @done f i _ _ hdone =>
        exfalso
        simp only [afterReturn] at hret
        split at hret
        · exact hret (-1) (by simp)
        · simp at hret
    · exact phase_other hq h (quiet_afterReturn q r c) rfl
  | @park q c k chan hl hp =>
    by_cases hq : p = q
    · subst hq
      rw [hp] at h
      simp only [setTask,update_self,append_nil]
      cases h with
      | going hquiet => exact .parking hquiet
    · exact phase_other hq h .nil rfl
  | @settle q chan k hp =>
    by_cases hq : p = q
    · subst hq
      rw [hp] at h
      simp only [setTask,update_self,append_nil]
      cases h with
      | parking hquiet => exact .asleep hquiet
    · exact phase_other hq h .nil rfl
  | @signal q chan k hl hp =>
    by_cases hq : p = q
    · subst hq
      rw [hp] at h
      simp only [setTask,update_self,append_nil]
      cases h with
      | asleep hquiet => exact .ready hquiet
    · exact phase_other hq h .nil rfl
  | @efault q f src rest total hp =>
    by_cases hq : p = q
    · subst hq
      exact absurd (by simp) (hret (-1))
    · exact phase_other hq h (by simp [Quiet]) rfl

theorem starts (hs : Step s op s' es) (hes : es = X ++ start p buf :: B)
    (hret : ∀ r, ret p r ∉ B) (hlen : buf.length ≤ sizeofBuf) : Phase p buf B (s'.tasks p) := by
  have hmem : start p buf ∈ es := by simp [hes]
  cases hs with
  | @refuse _ q buf' r hp =>
    cases X with
    | nil =>
      simp only [nil_append,cons.injEq,start.injEq] at hes
      obtain ⟨⟨rfl,-⟩,rfl⟩ := hes
      exact absurd (by simp) (hret r)
    | cons e X =>
      have hX := (cons.inj hes).2
      cases X with
      | nil => cases (cons.inj hX).1
      | cons e' X => simp at hX
  | @write _ q f src rest hp hf hrest =>
    cases X with
    | nil =>
      simp only [nil_append,cons.injEq,start.injEq] at hes
      obtain ⟨⟨rfl,rfl⟩,rfl⟩ := hes
      have hnil : rest = [] := by
        rcases hrest with hrest | hrest
        · exact hrest
        · rw [length_append] at hlen
          exact length_eq_zero_iff.mp (by omega)
      subst hnil
      simp only [setTask,update_self,append_nil]
      exact .ready .nil
    | cons e X => simp at hes
  | enter | efault => simp at hmem
  | @leave q c r hp =>
    cases c with
    | write =>
      simp only [afterReturn] at hmem
      split at hmem
      · simp at hmem
      · split at hmem <;> simp at hmem
    | read | release | openFifo => simp [afterReturn] at hmem
  | read | close | openFifo | wake | park | settle | signal => cases hmem

theorem returns (hs : Step s op s' es) {r : Int}
    (htr : A ++ start p buf :: B = tr ++ X) (hes : es = X ++ ret p r :: C) (hr : 0 ≤ r)
    (hret : ∀ r, ret p r ∉ B) (hphase : ∀ B', tr = A ++ start p buf :: B' → (∀ r, ret p r ∉ B') →
      Phase p buf B' (s.tasks p)) : Contiguous p buf B := by
  have hmem : ret p r ∈ es := by simp [hes]
  cases hs with
  | @refuse _ q buf' r' hp hr' =>
    cases X with
    | nil => cases (cons.inj hes).1
    | cons e X =>
      obtain ⟨rfl,hX⟩ := cons.inj hes
      cases X with
      | cons e X => simp at hX
      | nil =>
        obtain ⟨hre,-⟩ := cons.inj hX
        cases hre
        rcases append_eq_cons htr.symm with ⟨B',htr',rfl⟩ | ⟨X',-,hX'⟩
        · have hph := hphase B' htr' fun r hr => hret r (mem_append_left _ hr)
          exact absurd hp hph.not_resting
        cases X' with
        | cons e X' => simp at hX'
        | nil =>
          obtain ⟨hst,rfl⟩ := cons.inj hX'
          cases hst
          have hnil := hr'.resolve_left (Int.not_lt.mpr hr)
          exact ⟨[],[],by simp [hnil],.nil,.nil⟩
  | @leave q c r' hp =>
    have hone : ∃ r'', (afterReturn q r' c).2 = [ret q r''] ∨
        (afterReturn q r' c).2 = [] := by
      cases c with
      | write =>
        simp only [afterReturn]
        split
        · exact ⟨_,.inl rfl⟩
        split
        · exact ⟨0,.inr rfl⟩
        · exact ⟨_,.inl rfl⟩
      | read | release | openFifo => exact ⟨_,.inl rfl⟩
    obtain ⟨r'',hone | hone⟩ := hone
    · rw [hone] at hes hmem
      cases X with
      | cons e X => simp at hes
      | nil =>
        obtain ⟨hre,rfl⟩ := cons.inj hes
        cases hre
        rw [append_nil] at htr
        have hph := hphase B htr.symm hret
        rw [hp] at hph
        cases hph with
        | @done f i _ _ hdone =>
          refine hdone ?_
          by_contra hneg
          simp only [afterReturn,if_pos (Int.not_le.mp hneg),cons.injEq,ret.injEq,
            true_and,and_true] at hone
          omega
    · rw [hone] at hmem
      cases hmem
  | enter | write => simp at hmem
  | read | close | openFifo | wake | park | settle | signal => cases hmem
  | efault =>
    simp only [mem_singleton,ret.injEq] at hmem
    omega

end Step

structure Atomic (tr : List (Event P)) (s : State P) : Prop where
  ongoing : ∀ p A buf B, tr = A ++ start p buf :: B → (∀ r, ret p r ∉ B) →
    buf.length ≤ sizeofBuf → Phase p buf B (s.tasks p)
  finished : ∀ p A buf B r C, tr = A ++ start p buf :: (B ++ ret p r :: C) → (∀ r, ret p r ∉ B) →
    buf.length ≤ sizeofBuf → 0 ≤ r → Contiguous p buf B

theorem Atomic.step [DecidableEq P] (h : Atomic tr s) (hs : Step s op s' es) :
    Atomic (tr ++ es) s' := by
  refine ⟨?_,?_⟩
  · intro p A buf B htr hret hlen
    rcases append_eq_cons htr with ⟨B',htr',rfl⟩ | ⟨X,-,hes⟩
    · have hph := h.ongoing p A buf B' htr' (fun r hr => hret r (mem_append_left _ hr)) hlen
      exact hs.phase hlen hph fun r hr => hret r (mem_append_right _ hr)
    · exact hs.starts hes hret hlen
  intro p A buf B r C htr hret hlen hr
  rw [← cons_append,← append_assoc] at htr
  rcases append_eq_cons htr with ⟨C',htr',-⟩ | ⟨X,hX,hes⟩
  · rw [append_assoc,cons_append] at htr'
    exact h.finished p A buf B r C' htr' hret hlen hr
  · exact hs.returns hX hes hr hret fun B' htr' hret' => h.ongoing p A buf B' htr' hret' hlen

theorem small_write_atomic [DecidableEq P] [Fintype P] (s s' : State P) (ops : List (Op P))
    (out : List (List (Event P)))
    (hrun : run State.step s ops = some (s',out)) (p : P) (buf : List Byte) (r : Int)
    (A B C : List (Event P)) (htr : out.flatten = A ++ start p buf :: (B ++ ret p r :: C))
    (hret : ∀ r, ret p r ∉ B) (hr : 0 ≤ r) (hlen : buf.length ≤ sizeofBuf) :
    Contiguous p buf B := by
  have hinv := run_traces (I := fun os s => Atomic os.flatten s) ?_ ?_ hrun
  · exact hinv.finished p A buf B r C htr hret hlen hr
  · intro os s op s' es hatomic hs
    rw [flatten_append,flatten_singleton]
    exact hatomic.step (step_cases hs)
  · refine ⟨fun p A buf B htr => ?_,fun p A buf B r C htr => ?_⟩ <;> simp at htr

theorem small_write_atomic_two_writers : ∃ s' out A B C,
    run State.step (pipealloc (fun _ => 0) 0 1)
        [.sysWrite 0 1 [1,2],.sysWrite 1 1 [3,4],.enter 1,.wake 1,.leave 1,.enter 0,.wake 0,
          .leave 0] = some (s',out) ∧
      out.flatten = A ++ start 0 [1,2] :: (B ++ ret (0 : Fin 2) 2 :: C) ∧
      Contiguous 0 [1,2] B := by
  obtain ⟨⟨s',out⟩,hrun,htr⟩ := Option.map_eq_some_iff.mp (show
    (run step (pipealloc (fun _ => 0) 0 1)
        [.sysWrite 0 1 [1,2],.sysWrite 1 1 [3,4],.enter 1,.wake 1,.leave 1,.enter 0,.wake 0,
          .leave 0]).map (fun r => r.2.flatten) =
      some ([] ++ start (0 : Fin 2) [1,2] ::
        ([start 1 [3,4],put 1 3,put 1 4,ret 1 2,put 0 1,put 0 2] ++ ret 0 2 :: []))
    by decide +kernel)
  refine ⟨s',out,_,_,_,hrun,htr,?_⟩
  exact small_write_atomic _ s' _ out hrun 0 [1,2] 2 _ _ _ htr (by simp) (by decide) (by decide)

def isPut [DecidableEq P] (p : P) : Event P → Bool
  | put q _ => q = p
  | _ => false

theorem Event.Contiguous.dropWhile [DecidableEq P] {b : Byte} {bs : List Byte}
    (h : Contiguous p (b :: bs) B) :
    (b :: bs).map (put p) <+: B.dropWhile fun e => !isPut p e := by
  obtain ⟨before,after,rfl,hb,-⟩ := h
  have hnone : ∀ e ∈ before, (!isPut p e) = true := by
    intro e he
    cases e with
    | put q c =>
      by_cases hq : q = p
      · subst hq
        exact absurd he (hb c)
      · simp [isPut,hq]
    | start | got | ret => rfl
  rw [append_assoc,dropWhile_append_of_pos hnone,map_cons,cons_append,
    dropWhile_cons_of_neg (by simp [isPut])]
  exact prefix_append _ _

def chunkedWrites : List (Op (Fin 2)) :=
  [.sysWrite 0 1 (List.replicate 129 7),.sysWrite 1 1 [9],.enter 0,.wake 0,.leave 0,.enter 1,
    .wake 1,.leave 1,.enter 0,.wake 0,.leave 0]

theorem chunked_write_interleaved : ∃ s' out B,
    run State.step (pipealloc (fun _ => 0) 0 1) chunkedWrites = some (s',out) ∧
      out.flatten = [] ++ start 0 (List.replicate 129 7) :: (B ++ ret (0 : Fin 2) 129 :: []) ∧
      (∀ r, ret 0 r ∉ B) ∧ (List.replicate 129 (7 : Byte)).length ≤ pipeSize ∧
      ¬ Contiguous 0 (List.replicate 129 7) B := by
  obtain ⟨⟨s',out⟩,hrun,htr⟩ := Option.map_eq_some_iff.mp (show
    (run step (pipealloc (fun _ => 0) 0 1) chunkedWrites).map (fun r => r.2.flatten) =
      some ([] ++ start (0 : Fin 2) (replicate 129 7) ::
        ((start 1 [9] :: (replicate 128 (put 0 7) ++ [put 1 9,ret 1 1,put 0 7])) ++
          ret 0 129 :: []))
    by decide +kernel)
  refine ⟨s',out,_,hrun,htr,?_,by decide +kernel,?_⟩
  · intro r hr
    simp at hr
  · intro hcont
    exact absurd (Contiguous.dropWhile hcont) (by decide +kernel)

end TinyOs.Fs
