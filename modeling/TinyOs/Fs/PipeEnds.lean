import Mathlib.Data.Fintype.Card
import TinyOs.Fs.PipeFifo

namespace TinyOs.Fs

open Finset State

open Function (update update_of_ne update_self)

variable {P : Type} {s s' : State P} {p : P} {op : Op P} {es : List (Event P)} {c : Call}

namespace Call

def Fits : Call → Option File → Prop
  | write _ _ _ _ _, o => o.any (·.writable) = true
  | read _ _, o => o.any (·.readable) = true
  | release _, o => o.isSome = true
  | openFifo _ _, o => o.isNone = true

structure Resumes (k c : Call) : Prop where
  file : k.file = c.file
  begun : c.usesEnd = true
  usesEnd : k.usesEnd = true
  fits : ∀ o, c.Fits o → k.Fits o

end Call

namespace Task

def Fits (files : Fin nFile → Option File) : Task → Prop
  | idle => True
  | ready c | parking _ c | asleep _ c => c.Fits (files c.file)
  | inside c _ flow => (c.usesEnd = true → c.Fits (files c.file)) ∧
      ∀ chan k, flow = .sleep chan k → k.Resumes c

structure Continues (files : Fin nFile → Option File) (t t' : Task) : Prop where
  fits : t'.Fits files
  call : ∀ c', t'.call = some c' →
    ∃ c, t.call = some c ∧ c'.file = c.file ∧ (c.usesEnd = true → c'.usesEnd = true)

theorem Fits.congr {files files' : Fin nFile → Option File} {t : Task} (h : t.Fits files)
    (hfiles : ∀ c ∈ t.call, files' c.file = files c.file) : t.Fits files' := by
  cases t with
  | idle => trivial
  | ready c | parking chan c | asleep chan c => exact (hfiles c rfl ▸ h : c.Fits (files' c.file))
  | inside c ws flow => exact ⟨fun hc => hfiles c rfl ▸ h.1 hc,h.2⟩

end Task

def State.openEnds (s : State P) (test : File → Bool) : Finset (Fin nFile) :=
  Finset.univ.filter fun f => (s.files f).any test = true

theorem State.mem_openEnds {test : File → Bool} {f : Fin nFile} :
    f ∈ s.openEnds test ↔ (s.files f).any test = true := by
  simp [openEnds]

structure Ends (s : State P) : Prop where
  alive : ∀ p, s.killed p = false
  readers : s.pipe.readers = (s.openEnds (·.readable)).card
  writers : s.pipe.writers = (s.openEnds (·.writable)).card
  fits : ∀ p, (s.tasks p).Fits s.files
  apart : ∀ p q c d, p ≠ q → (s.tasks p).call = some c → (s.tasks q).call = some d →
    c.file = d.file → c.usesEnd = true

namespace Pipe

theorem putAll_ends (pi : Pipe) (src : List Byte) :
    (pi.putAll src).nread = pi.nread ∧ (pi.putAll src).readers = pi.readers ∧
      (pi.putAll src).writers = pi.writers := by
  induction src generalizing pi with
  | nil => exact ⟨rfl,rfl,rfl⟩
  | cons b src ih => exact ih (pi.put b)

theorem fill_ends (pi : Pipe) (src : List Byte) :
    (pi.fill src).1.nread = pi.nread ∧ (pi.fill src).1.readers = pi.readers ∧
      (pi.fill src).1.writers = pi.writers := by
  induction src generalizing pi with
  | nil => exact ⟨rfl,rfl,rfl⟩
  | cons b src ih =>
    simp only [fill]
    split
    · exact ⟨rfl,rfl,rfl⟩
    · exact ih (pi.put b)

theorem take_ends (pi : Pipe) (n : Nat) :
    (pi.take n).1.readers = pi.readers ∧ (pi.take n).1.writers = pi.writers := by
  induction n generalizing pi with
  | zero => exact ⟨rfl,rfl⟩
  | succ n ih =>
    simp only [take]
    split
    · exact ⟨rfl,rfl⟩
    · exact ih { pi with nread := (pi.nread + 1) % word }

end Pipe

structure Wrote (pi : Pipe) (src : List Byte) (x : Stretch Nat) : Prop where
  nread : x.pipe.nread = pi.nread
  readers : x.pipe.readers = pi.readers
  writers : x.pipe.writers = pi.writers
  wakes : .nread ∈ x.wakes ∨ x.pipe = pi ∨ pi.readers = 0
  sleep : ∀ chan j, x.flow = .sleep chan j → chan = .nwrite ∧ pi.readers ≠ 0 ∧
    (src.length ≤ pipeSize →
      x.pipe = pi ∧ (pi.nread + pipeSize) % word < (pi.nwrite + src.length) % word)

theorem pipeWriteLoop_wrote (pi : Pipe) (src : List Byte) (i : Nat) :
    Wrote pi src (pipeWriteLoop pi false src i) := by
  unfold pipeWriteLoop
  dsimp only
  split
  · split
    · rename_i htest
      split
      · exact ⟨rfl,rfl,rfl,.inr (.inl rfl),nofun⟩
      rename_i hr
      refine ⟨rfl,rfl,rfl,.inl (by simp),?_⟩
      rintro chan j ⟨⟩
      exact ⟨rfl,fun h => hr (.inl h),fun _ => ⟨rfl,htest⟩⟩
    · obtain ⟨hn,hr,hw⟩ := pi.putAll_ends src
      exact ⟨hn,hr,hw,.inl (by simp),nofun⟩
  rename_i hn
  obtain ⟨hnr,hr,hw⟩ := pi.fill_ends (src.drop i)
  split
  · exact ⟨hnr,hr,hw,.inl (by simp),nofun⟩
  rename_i hj
  split
  · rename_i hr0
    refine ⟨hnr,hr,hw,.inr (.inr ?_),nofun⟩
    simpa using hr0
  rename_i hr0
  refine ⟨hnr,hr,hw,.inl (by simp),?_⟩
  rintro chan j ⟨⟩
  refine ⟨rfl,fun h => hr0 (.inl h),fun hle => ?_⟩
  omega

theorem pipeWrite_wrote (pi : Pipe) (src : List Byte) : Wrote pi src (pipeWrite pi false src) := by
  unfold pipeWrite
  split
  · exact ⟨rfl,rfl,rfl,.inr (.inl rfl),nofun⟩
  · exact pipeWriteLoop_wrote pi src 0

structure Took (pi : Pipe) (x : Stretch Unit) : Prop where
  readers : x.pipe.readers = pi.readers
  writers : x.pipe.writers = pi.writers
  waits : x.pipe = pi ∧ (∃ k, x.flow = .sleep .nread k) ∧ pi.nread = pi.nwrite ∧ pi.writers ≠ 0 ∨
    .nwrite ∈ x.wakes ∧ ¬ (pi.nread = pi.nwrite ∧ pi.writers ≠ 0) ∧ ∃ r, x.flow = .ret r

theorem pipeRead_took (pi : Pipe) (n : Nat) : Took pi (pipeRead pi false n) := by
  unfold pipeRead
  split
  · rename_i h
    exact ⟨rfl,rfl,.inl ⟨rfl,⟨(),rfl⟩,h⟩⟩
  rename_i h
  obtain ⟨hr,hw⟩ := pi.take_ends n
  exact ⟨hr,hw,.inr ⟨by simp,h,_,rfl⟩⟩

section Files

variable {files : Fin nFile → Option File} {f : Fin nFile} {file : File} {test : File → Bool}

theorem closeFile_card (hf : files f = some file) :
    (if test file = true then dropEnd (Finset.univ.filter fun g => (files g).any test = true).card
      else (Finset.univ.filter fun g => (files g).any test = true).card) =
      (Finset.univ.filter fun g => (update files f none g).any test = true).card := by
  have herase : (univ.filter fun g => (update files f none g).any test = true) =
      (univ.filter fun g => (files g).any test = true).erase f := by
    ext g
    by_cases hg : g = f
    · simp [hg]
    · simp [hg]
  rw [herase]
  split
  · rename_i htest
    have hmem : f ∈ univ.filter fun g => (files g).any test = true := by simp [hf,htest]
    rw [card_erase_of_mem hmem,dropEnd,if_pos (card_pos.mpr ⟨f,hmem⟩)]
  · rename_i htest
    rw [erase_eq_of_notMem (by simp [hf,htest])]

theorem openFile_card (hf : files f = none) : (if test file = true then
        ((Finset.univ.filter fun g => (files g).any test = true).card + 1) % word
      else (Finset.univ.filter fun g => (files g).any test = true).card) =
      (Finset.univ.filter fun g => (update files f (some file) g).any test = true).card := by
  have hnot : f ∉ univ.filter fun g => (files g).any test = true := by simp [hf]
  split
  · rename_i htest
    have hinsert : (univ.filter fun g => (update files f (some file) g).any test = true) =
          insert f (univ.filter fun g => (files g).any test = true) := by
      ext g
      by_cases hg : g = f
      · simp [hg,htest]
      · simp [hg]
    have hle := card_le_univ (univ.filter fun g => (files g).any test = true)
    rw [Fintype.card_fin] at hle
    rw [hinsert,card_insert_of_notMem hnot,Nat.mod_eq_of_lt]
    exact lt_of_le_of_lt (Nat.succ_le_succ hle) (by decide)
  · rename_i htest
    congr 1
    ext g
    by_cases hg : g = f
    · simp [hg,hf,htest]
    · simp [hg]

end Files

namespace Ends

section

variable [DecidableEq P] {t : Task} (h : Ends s) (htasks : s'.tasks = update s.tasks p t)
  (hkilled : s'.killed = s.killed)

include h htasks hkilled

theorem put (hreaders : s'.pipe.readers = (s'.openEnds (·.readable)).card)
    (hwriters : s'.pipe.writers = (s'.openEnds (·.writable)).card) (hfits : t.Fits s'.files)
    (hfiles : ∀ q, q ≠ p → ∀ d ∈ (s.tasks q).call, s'.files d.file = s.files d.file)
    (hapart : ∀ c ∈ t.call, ∀ q, q ≠ p → ∀ d ∈ (s.tasks q).call, d.file = c.file →
      d.usesEnd = true ∧ c.usesEnd = true) : Ends s' := by
  refine ⟨fun q => hkilled ▸ h.alive q,hreaders,hwriters,fun q => ?_,fun q r d e hqr hd he hfile => ?_⟩
  · rw [htasks]
    by_cases hq : q = p
    · rw [hq,update_self]
      exact hfits
    · rw [update_of_ne hq]
      exact (h.fits q).congr (hfiles q hq)
  rw [htasks] at hd he
  by_cases hq : q = p
  · have hr : r ≠ p := fun hr => hqr (hq.trans hr.symm)
    rw [hq,update_self] at hd
    rw [update_of_ne hr] at he
    exact (hapart d hd r hr e he hfile.symm).2
  rw [update_of_ne hq] at hd
  by_cases hr : r = p
  · rw [hr,update_self] at he
    exact (hapart e he q hq d hd hfile).1
  · rw [update_of_ne hr] at he
    exact h.apart q r d e hqr hd he hfile

theorem move (hpipe : s'.pipe = s.pipe) (hfiles : s'.files = s.files)
    (ht : (s.tasks p).Continues s.files t) : Ends s' := by
  have hopen : ∀ test, s'.openEnds test = s.openEnds test := by
    intro test
    rw [openEnds,openEnds,hfiles]
  refine h.put htasks hkilled (by rw [hpipe,hopen,h.readers]) (by rw [hpipe,hopen,h.writers])
    (hfiles ▸ ht.fits) (fun _ _ _ _ => by rw [hfiles]) fun c' hc' q hq d hd hfile => ?_
  obtain ⟨c,hc,hcf,hcu⟩ := ht.call c' hc'
  exact ⟨h.apart q p d c hq hd hc (hfile.trans hcf),
    hcu (h.apart p q c d hq.symm hc hd (hfile.trans hcf).symm)⟩

end

theorem begin [DecidableEq P] (h : Ends s) (hfits : c.Fits (s.files c.file))
    (hapart : ∀ q, ∀ d ∈ (s.tasks q).call, d.file = c.file → d.usesEnd = true ∧ c.usesEnd = true) :
    Ends (s.setTask p (.ready c)) := by
  refine h.put rfl rfl h.readers h.writers hfits (fun _ _ _ _ => rfl) ?_
  rintro _ ⟨⟩ q - d hd
  exact hapart q d hd

theorem enter_files (h : Ends s) (hp : s.tasks p = .ready c) {q : P} {d : Call}
    (hq : q ≠ p) (hd : (s.tasks q).call = some d) : s.filesAfter c d.file = s.files d.file := by
  have hne : c.usesEnd = false → d.file ≠ c.file := by
    intro hc hfile
    have := h.apart p q c d hq.symm (by rw [hp]; rfl) hd hfile.symm
    rw [hc] at this
    cases this
  cases c with
  | write | read => rfl
  | release f | openFifo f file => exact update_of_ne (hne rfl) _ _

theorem wrote (h : Ends s) (p : P) (f : Fin nFile) (src : List Byte) (i : Option Nat) (total : Nat)
    (rest : List Byte) :
    ∃ x, Wrote s.pipe src x ∧ s.stretch p (.write f src i total rest) =
      x.map fun j => .write f src (some j) total rest := by
  cases i with
  | none =>
    refine ⟨_,pipeWrite_wrote s.pipe src,?_⟩
    simp only [stretch,h.alive]
  | some i =>
    refine ⟨_,pipeWriteLoop_wrote s.pipe src i,?_⟩
    simp only [stretch,h.alive]

theorem took (h : Ends s) (p : P) (f : Fin nFile) (n : Nat) :
    ∃ x, Took s.pipe x ∧ s.stretch p (.read f n) = x.map fun _ => .read f n := by
  refine ⟨_,pipeRead_took s.pipe n,?_⟩
  simp only [stretch,h.alive]

theorem enter_counts (h : Ends s) (hp : s.tasks p = .ready c) : (s.stretch p c).pipe.readers =
        (Finset.univ.filter fun f => (s.filesAfter c f).any (·.readable) = true).card ∧
      (s.stretch p c).pipe.writers =
        (Finset.univ.filter fun f => (s.filesAfter c f).any (·.writable) = true).card := by
  have hfits := h.fits p
  rw [hp] at hfits
  cases c with
  | write f src i total rest =>
    obtain ⟨x,hx,hs⟩ := h.wrote p f src i total rest
    rw [hs]
    exact ⟨hx.readers.trans h.readers,hx.writers.trans h.writers⟩
  | read f n =>
    obtain ⟨x,hx,hs⟩ := h.took p f n
    rw [hs]
    exact ⟨hx.readers.trans h.readers,hx.writers.trans h.writers⟩
  | release f =>
    obtain ⟨file,hf⟩ := Option.isSome_iff_exists.mp hfits
    change s.files f = some file at hf
    simp only [stretch,Stretch.map,pipeRelease,filesAfter,hf,Option.getD_some,h.readers,
      h.writers]
    exact ⟨closeFile_card hf,closeFile_card hf⟩
  | openFifo f file =>
    have hf : s.files f = none := Option.isNone_iff_eq_none.mp hfits
    simp only [stretch,Stretch.map,fifoOnOpen,filesAfter,h.readers,h.writers]
    exact ⟨openFile_card hf,openFile_card hf⟩

theorem stretch_resumes (h : Ends s) {k : Call} {chan : Chan}
    (hk : (s.stretch p c).flow = .sleep chan k) : k.Resumes c := by
  cases c with
  | write f src i total rest =>
    obtain ⟨x,-,hs⟩ := h.wrote p f src i total rest
    rw [hs] at hk
    simp only [Stretch.map] at hk
    split at hk
    · cases hk
    · cases hk
      exact ⟨rfl,rfl,rfl,fun _ => id⟩
  | read f n =>
    obtain ⟨x,-,hs⟩ := h.took p f n
    rw [hs] at hk
    simp only [Stretch.map] at hk
    split at hk
    · cases hk
    · cases hk
      exact ⟨rfl,rfl,rfl,fun _ => id⟩
  | release f | openFifo f file => cases hk

theorem enter [DecidableEq P] (h : Ends s) (hp : s.tasks p = .ready c) : Ends { s with
      pipe := (s.stretch p c).pipe
      files := s.filesAfter c
      lock := some p
      tasks := update s.tasks p (.inside c (s.stretch p c).wakes (s.stretch p c).flow) } := by
  obtain ⟨hreaders,hwriters⟩ := h.enter_counts hp
  have hcall : (s.tasks p).call = some c := by
    rw [hp]
    rfl
  refine h.put rfl rfl hreaders hwriters ⟨fun hc => ?_,fun chan k => h.stretch_resumes⟩
    (fun q hq d hd => h.enter_files hp hq hd) ?_
  · have hfits := h.fits p
    rw [hp] at hfits
    cases c with
    | write | read => exact hfits
    | release | openFifo => cases hc
  · rintro _ ⟨⟩ q hq d hd hfile
    exact ⟨h.apart q p d c hq hd hcall hfile,h.apart p q c d hq.symm hcall hd hfile.symm⟩

end Ends

namespace Task.Continues

variable {files : Fin nFile → Option File} {ws : List Chan}

theorem idle (t : Task) : t.Continues files .idle := ⟨trivial,nofun⟩

theorem same {t t' : Task} (hfits : t'.Fits files) (hcall : t'.call = t.call) :
    t.Continues files t' :=
  ⟨hfits,fun c h => ⟨c,hcall ▸ h,rfl,id⟩⟩

theorem park {k : Call} {chan : Chan} (h : (Task.inside c ws (.sleep chan k)).Fits files) :
    (Task.inside c ws (.sleep chan k)).Continues files (.parking chan k) := by
  have hk := h.2 chan k rfl
  refine ⟨?_,?_⟩
  · change k.Fits (files k.file)
    rw [hk.file]
    exact hk.fits _ (h.1 hk.begun)
  · rintro d ⟨⟩
    exact ⟨c,rfl,hk.file,fun _ => hk.usesEnd⟩

theorem afterReturn {P : Type} (p : P) (r : Int) {flow : Flow Call}
    (h : (Task.inside c ws flow).Fits files) :
    (Task.inside c ws flow).Continues files (State.afterReturn p r c).1 := by
  cases c with
  | write f src i total rest =>
    simp only [afterReturn]
    split
    · exact .idle _
    split
    · refine ⟨h.1 rfl,?_⟩
      rintro d ⟨⟩
      exact ⟨_,rfl,rfl,fun _ => rfl⟩
    · exact .idle _
  | read | release | openFifo => exact .idle _

end Task.Continues

theorem State.wakeup_task (s : State P) (chan : Chan) (q : P) :
    (∃ k, s.tasks q = .asleep chan k ∧ (s.wakeup chan).tasks q = .ready k) ∨
      (s.wakeup chan).tasks q = s.tasks q ∧ ∀ k, s.tasks q ≠ .asleep chan k := by
  cases hq : s.tasks q with
  | asleep c k =>
    by_cases hc : c = chan
    · subst hc
      exact .inl ⟨k,rfl,by simp only [wakeup,hq,if_true]⟩
    refine .inr ⟨by simp only [wakeup,hq,if_neg hc],?_⟩
    rintro k' ⟨⟩
    exact hc rfl
  | idle | ready | inside | parking => exact .inr ⟨by simp only [wakeup,hq],nofun⟩

theorem Ends.wakeup (h : Ends s) (chan : Chan) : Ends (s.wakeup chan) := by
  have hcall : ∀ q, ((s.wakeup chan).tasks q).call = (s.tasks q).call := by
    intro q
    rcases s.wakeup_task chan q with ⟨k,hk,hw⟩ | ⟨hw,-⟩
    · rw [hk,hw]
      rfl
    · rw [hw]
  refine ⟨h.alive,h.readers,h.writers,fun q => ?_,fun q r d e => ?_⟩
  · have hfits := h.fits q
    rcases s.wakeup_task chan q with ⟨k,hk,hw⟩ | ⟨hw,-⟩
    · rw [hk] at hfits
      rw [hw]
      exact hfits
    · rw [hw]
      exact hfits
  · rw [hcall,hcall]
    exact h.apart q r d e

theorem Step.ends [DecidableEq P] (hs : Step s op s' es) (h : Ends s) : Ends s' := by
  cases hs with
  | refuse => exact h
  | @write _ _ f src rest hp hf hrest =>
    refine h.begin hf.1 fun q d hd hfile => ⟨hf.2 q d hd hfile,rfl⟩
  | @read _ f n hp hf => exact h.begin hf.1 fun q d hd hfile => ⟨hf.2 q d hd hfile,rfl⟩
  | close hp hf hopen => exact h.begin hopen fun q d hd hfile => absurd hfile (hf q d hd)
  | openFifo hp hf hfree => exact h.begin hfree fun q d hd hfile => absurd hfile (hf q d hd)
  | enter hl hp => exact h.enter hp
  | @wake p c chan ws flow hl hp =>
    have hw := h.wakeup chan
    have hsame : (s.wakeup chan).tasks p = .inside c (chan :: ws) flow := by
      simp only [wakeup,hp]
    have hfits := hw.fits p
    refine hw.move rfl rfl rfl rfl ?_
    rw [hsame] at hfits ⊢
    exact .same hfits rfl
  | @leave p c r hp =>
    have hfits := h.fits p
    rw [hp] at hfits
    refine h.move rfl rfl rfl rfl ?_
    rw [hp]
    exact .afterReturn _ _ hfits
  | @park p c k chan hl hp =>
    have hfits := h.fits p
    rw [hp] at hfits
    refine h.move rfl rfl rfl rfl ?_
    rw [hp]
    exact .park hfits
  | @settle p chan k hp | @signal p chan k hl hp =>
    have hfits := h.fits p
    rw [hp] at hfits
    refine h.move rfl rfl rfl rfl ?_
    rw [hp]
    exact .same hfits rfl
  | efault hp => exact h.move rfl rfl rfl rfl (.idle _)

theorem Created.ends (h : Created s) : Ends s := by
  cases h with
  | @pipe data f0 f1 hne =>
    have hreaders : (pipealloc data f0 f1 : State P).openEnds (·.readable) = {f0} := by
      ext g
      rw [mem_openEnds,mem_singleton]
      by_cases h1 : g = f1
      · subst h1
        simp [pipealloc,hne.symm]
      · by_cases h0 : g = f0 <;> simp [pipealloc,h0,h1,hne]
    have hwriters : (pipealloc data f0 f1 : State P).openEnds (·.writable) = {f1} := by
      ext g
      rw [mem_openEnds,mem_singleton]
      by_cases h1 : g = f1
      · simp [pipealloc,h1]
      · by_cases h0 : g = f0 <;> simp [pipealloc,h0,h1,hne]
    exact ⟨fun _ => rfl,by rw [hreaders]; rfl,by rw [hwriters]; rfl,fun _ => trivial,
      fun _ _ _ _ _ => nofun⟩
  | fifo data =>
    refine ⟨fun _ => rfl,?_,?_,fun _ => trivial,fun _ _ _ _ _ => nofun⟩
    · simp [openEnds,fifoInitInode]
    · simp [openEnds,fifoInitInode]

end TinyOs.Fs
