import TinyOs.Library.Machine
import TinyOs.Library.Ring

namespace TinyOs.Console

open List Option Machine

abbrev Byte := UInt8

def consBuf : Nat := 256

def period : Nat := 2 ^ 32

def etx : Byte := 0x03

def eot : Byte := 0x04

def bs : Byte := 0x08

def newline : Byte := 0x0a

def cr : Byte := 0x0d

def nak : Byte := 0x15

def del : Byte := 0x7f

inductive Pc where
  | idle
  | erasing
  | stored (c : Byte)
  deriving DecidableEq

structure State where
  buf : Nat → Byte
  r : Nat
  w : Nat
  e : Nat
  isig : Bool
  icanon : Bool
  pc : Pc

inductive Answer where
  | byte (c : Byte)
  | eof
  deriving DecidableEq

inductive Op where
  | intr (c : Byte)
  | resume
  | getc (canSleep : Bool)
  deriving DecidableEq

def consoleInit : State where
  buf _ := 0
  r := 0
  w := 0
  e := 0
  isig := true
  icanon := true
  pc := .idle

def cooked (c : Byte) : Byte := if c = cr then newline else c

namespace State

variable (s : State)

def consEmpty : Bool := s.r = s.w

def used : Nat := (s.e + period - s.r) % period

def consInputFull : Bool := consBuf ≤ s.used

def back : Nat := (s.e + period - 1) % period

def next : Nat := (s.e + 1) % period

def stored (c : Byte) : Nat → Byte := Function.update s.buf (s.e % consBuf) c

def eraseLine : State :=
  if s.e = s.w then { s with pc := .idle } else { s with e := s.back, pc := .erasing }

def consoleIntr (c : Byte) : State :=
  if s.isig ∧ c = etx then { s with r := 0, w := 0, e := 0 }
  else if s.icanon then
    if c = bs ∨ c = del then if s.e = s.w then s else { s with e := s.back }
    else if c = nak then s.eraseLine
    else if c = 0 ∨ s.consInputFull then s
    else { s with buf := s.stored (cooked c), e := s.next, pc := .stored (cooked c) }
  else if c = 0 ∨ s.consInputFull then s
  else { s with buf := s.stored (cooked c), e := s.next, w := s.next }

def commit (c : Byte) : State :=
  if c = newline ∨ c = eot ∨ s.used = consBuf then { s with w := s.e, pc := .idle }
  else { s with pc := .idle }

def consoleGetc (canSleep : Bool) : State × Option Answer :=
  if s.consEmpty then (s,none)
  else
    let c := s.buf (s.r % consBuf)
    ({ s with r := (s.r + 1) % period },
      some (if canSleep ∧ s.icanon ∧ c = eot then .eof else .byte c))

def step : Op → Option (State × Option Answer)
  | .intr c => if s.pc = .idle then some (s.consoleIntr c,none) else none
  | .resume =>
    match s.pc with
    | .idle => none
    | .erasing => some (s.eraseLine,none)
    | .stored c => some (s.commit c,none)
  | .getc canSleep => some (s.consoleGetc canSleep)

end State

structure Terminal where
  committed : List Byte
  taken : Nat
  line : List Byte
  pending : Option Byte

namespace Terminal

def fresh : Terminal := ⟨[],0,[],none⟩

variable (t : Terminal)

def held : Nat := t.committed.length - t.taken + t.line.length

def key (c : Byte) : Terminal :=
  if c = bs ∨ c = del then { t with line := t.line.dropLast }
  else if c = nak then { t with line := [] }
  else if c = 0 ∨ consBuf ≤ t.held then t
  else { t with line := t.line ++ [cooked c], pending := some (cooked c) }

def settle : Terminal :=
  match t.pending with
  | none => t
  | some c =>
    if c = newline ∨ c = eot ∨ t.held = consBuf then
      { t with committed := t.committed ++ t.line, line := [], pending := none }
    else { t with pending := none }

def take : Terminal :=
  if t.taken < t.committed.length then { t with taken := t.taken + 1 } else t

def after : Op → Terminal
  | .intr c => t.key c
  | .resume => t.settle
  | .getc _ => t.take

def afterAll (ops : List Op) : Terminal := ops.foldl after fresh

end Terminal

namespace Terminal

variable (t : Terminal)

theorem key_kept (c : Byte) : (t.key c).committed = t.committed ∧ (t.key c).taken = t.taken := by
  unfold key
  split_ifs <;> exact ⟨rfl,rfl⟩

theorem settle_take (h : t.taken ≤ t.committed.length) :
    t.settle.committed.take t.settle.taken = t.committed.take t.taken := by
  unfold settle
  split
  · rfl
  split
  · exact take_append_of_le_length h
  · rfl

theorem after_committed (op : Op) : t.committed <+: (t.after op).committed := by
  cases op with
  | intr c => exact (t.key_kept c).1 ▸ prefix_rfl
  | resume =>
    rw [after,settle]
    split
    · exact prefix_rfl
    split
    · exact prefix_append _ _
    · exact prefix_rfl
  | getc canSleep =>
    rw [after,take]
    split <;> exact prefix_rfl

end Terminal

def Answer.code : Answer → Byte
  | .byte c => c
  | .eof => eot

def returned (outs : List (Option Answer)) : List Byte := (outs.filterMap id).map Answer.code

theorem returned_cons (out : Option Answer) (outs : List (Option Answer)) :
    returned (out :: outs) = returned [out] ++ returned outs := by
  rw [returned,← singleton_append,filterMap_append,map_append]
  rfl

def State.Ordered (s : State) : Prop := (s.w + period - s.r) % period ≤ s.used ∧ s.used ≤ consBuf

def Pc.byte? : Pc → Option Byte
  | .stored c => some c
  | _ => none

structure Shows (s : State) (t : Terminal) (left : List Byte) : Prop where
  canon : s.icanon = true
  taken : t.taken ≤ t.committed.length
  ring : Ring.Holds consBuf period s.buf s.r s.e (t.committed.take t.taken) (t.committed ++ left)
  write : s.w = t.committed.length % period
  line : if s.pc = .erasing then t.line = [] else left = t.line
  pending : t.pending = s.pc.byte?

variable {s s' : State} {t : Terminal} {left : List Byte} {c : Byte}

namespace Shows

theorem read_eq (h : Shows s t left) : s.r = t.taken % period := by
  rw [h.ring.read,length_take,min_eq_left h.taken]

theorem edit_eq (h : Shows s t left) : s.e = (t.committed.length + left.length) % period := by
  rw [h.ring.write,length_append]

theorem room (h : Shows s t left) : t.committed.length + left.length ≤ t.taken + consBuf := by
  have hroom := h.ring.room
  rwa [length_append,length_take,min_eq_left h.taken] at hroom

theorem used_eq (h : Shows s t left) : s.used = t.committed.length - t.taken + left.length := by
  have hread := h.read_eq
  have hedit := h.edit_eq
  have hroom := h.room
  have htaken := h.taken
  simp only [State.used,consBuf,period] at *
  omega

theorem edited_iff (h : Shows s t left) : s.e = s.w ↔ left = [] := by
  have hwrite := h.write
  have hedit := h.edit_eq
  have hroom := h.room
  have htaken := h.taken
  rw [← length_eq_zero_iff]
  simp only [consBuf,period] at *
  omega

theorem empty_iff (h : Shows s t left) : s.consEmpty = true ↔ t.taken = t.committed.length := by
  have hread := h.read_eq
  have hwrite := h.write
  have hroom := h.room
  have htaken := h.taken
  simp only [State.consEmpty,decide_eq_true_eq,consBuf,period] at *
  omega

theorem ordered (h : Shows s t left) : s.Ordered := by
  have hused := h.used_eq
  have hread := h.read_eq
  have hwrite := h.write
  have hroom := h.room
  have htaken := h.taken
  simp only [State.Ordered,consBuf,period] at *
  omega

theorem erase (h : Shows s t left) (hne : s.e ≠ s.w) (line : List Byte) (pc : Pc)
    (hline : if pc = .erasing then line = [] else left.dropLast = line) :
    Shows { s with e := s.back, pc := pc } { t with line := line, pending := pc.byte? }
      left.dropLast := by
  have hleft : left ≠ [] := fun hnil => hne (h.edited_iff.mpr hnil)
  have hlength : 1 ≤ left.length := length_pos_of_ne_nil hleft
  have hring := h.ring
  rw [← dropLast_append_getLast hleft,← append_assoc] at hring
  have hshort := hring.shorten (by
    rw [length_take,length_append]
    omega)
  have hback : s.back = (t.committed ++ left.dropLast).length % period := by
    have hedit := h.edit_eq
    simp only [State.back,length_append,length_dropLast,period] at *
    omega
  rw [← hback] at hshort
  exact ⟨h.canon,h.taken,hshort,h.write,hline,rfl⟩

theorem eraseLine (h : Shows s t left) (hpc : s.pc = .erasing) :
    ∃ left, Shows s.eraseLine t left := by
  have hline : t.line = [] := by
    have := h.line
    rwa [if_pos hpc] at this
  have hpending : t.pending = none := h.pending.trans (by rw [hpc]; rfl)
  unfold State.eraseLine
  split
  · rename_i he
    refine ⟨left,h.canon,h.taken,h.ring,h.write,?_,hpending⟩
    rw [hline]
    exact h.edited_iff.mp he
  · rename_i he
    have herase := h.erase he [] .erasing rfl
    rw [← hline,show Pc.erasing.byte? = t.pending from hpending.symm] at herase
    exact ⟨_,herase⟩

theorem store (h : Shows s t left) (hline : left = t.line) (hfull : s.used < consBuf) (c : Byte) :
    Shows { s with buf := s.stored c, e := s.next, pc := .stored c }
      { t with line := t.line ++ [c], pending := some c } (left ++ [c]) := by
  have hused := h.used_eq
  have htaken := h.taken
  have hring := h.ring.push (by decide) (by
    rw [length_append,length_take]
    omega) c
  rw [append_assoc] at hring
  have hpc : Pc.stored c ≠ .erasing := fun hpc => by cases hpc
  refine ⟨h.canon,h.taken,hring,h.write,?_,rfl⟩
  rw [if_neg hpc,hline]

theorem commit (h : Shows s t left) (hline : left = t.line) : Shows { s with w := s.e, pc := .idle }
      { t with committed := t.committed ++ t.line, line := [], pending := none } [] := by
  subst hline
  have htaken := h.taken
  refine ⟨h.canon,?_,?_,h.ring.write,rfl,rfl⟩
  · exact htaken.trans (prefix_append _ _).length_le
  · rw [take_append_of_le_length htaken,append_nil]
    exact h.ring

theorem settle (h : Shows s t left) (hline : left = t.line) :
    Shows { s with pc := .idle } { t with pending := none } left :=
  ⟨h.canon,h.taken,h.ring,h.write,hline,rfl⟩

theorem getc (h : Shows s t left) (canSleep : Bool) : Shows (s.consoleGetc canSleep).1 t.take left ∧
      t.take.committed.take t.take.taken =
        t.committed.take t.taken ++ returned [(s.consoleGetc canSleep).2] := by
  have htaken := h.taken
  have hlength : (t.committed.take t.taken).length = t.taken := by
    rw [length_take,min_eq_left htaken]
  unfold State.consoleGetc Terminal.take
  by_cases hempty : s.consEmpty
  · have heq := h.empty_iff.mp hempty
    rw [if_pos hempty,if_neg (by omega)]
    exact ⟨h,(append_nil _).symm⟩
  have hlt : t.taken < t.committed.length :=
    lt_of_le_of_ne htaken fun heq => hempty (h.empty_iff.mpr heq)
  rw [if_neg hempty,if_pos hlt]
  have hring := h.ring.pop (by decide) (by
    rw [length_append]
    omega)
  have hslot := h.ring.slot t.taken _ (by omega)
    ((getElem?_append_left hlt).trans (getElem?_eq_getElem hlt))
  have hr : s.r % consBuf = t.taken % consBuf := by
    rw [h.read_eq,Nat.mod_mod_of_dvd _ (by decide)]
  rw [← hr] at hslot
  have htake : t.committed.take (t.taken + 1) =
      t.committed.take t.taken ++ [s.buf (s.r % consBuf)] := by
    rw [take_succ_eq_append_getElem hlt,hslot]
  refine ⟨⟨h.canon,hlt,?_,h.write,h.line,h.pending⟩,?_⟩
  · rw [← htake] at hring
    exact hring
  rw [htake]
  congr 1
  simp only [returned,filterMap_cons,id,filterMap_nil,map_cons,map_nil]
  split
  · rename_i heof
    rw [heof.2.2]
    rfl
  · rfl

theorem intr (h : Shows s t left) (hpc : s.pc = .idle) (hc : c ≠ etx) :
    ∃ left, Shows (s.consoleIntr c) (t.key c) left := by
  have hline : left = t.line := by
    have := h.line
    rwa [hpc,if_neg (by decide)] at this
  have hpending : t.pending = Pc.idle.byte? := by rw [h.pending,hpc]
  unfold State.consoleIntr Terminal.key
  rw [if_neg fun hetx => hc hetx.2,if_pos h.canon]
  split
  · by_cases he : s.e = s.w
    · have hnil : t.line.dropLast = t.line := by rw [← hline,h.edited_iff.mp he]; rfl
      rw [if_pos he,hnil]
      exact ⟨left,h⟩
    rw [if_neg he]
    have herase := h.erase he t.line.dropLast .idle (by rw [hline]; rfl)
    rw [← hpc,← h.pending] at herase
    exact ⟨_,herase⟩
  split
  · rw [← hpc] at hpending
    have hkilled : Shows { s with pc := .erasing } { t with line := [] } left :=
      ⟨h.canon,h.taken,h.ring,h.write,rfl,hpending.trans (by rw [hpc]; rfl)⟩
    exact hkilled.eraseLine rfl
  have hfull : s.consInputFull ↔ consBuf ≤ t.held := by
    rw [State.consInputFull,decide_eq_true_iff,h.used_eq,hline,Terminal.held]
  simp only [hfull]
  split
  · exact ⟨left,h⟩
  rename_i hnot
  refine ⟨_,h.store hline ?_ _⟩
  rw [h.used_eq,hline]
  exact not_le.mp fun hge => hnot (.inr hge)

theorem resume (h : Shows s t left) {out : Option Answer} (hs : s.step .resume = some (s',out)) :
    out = none ∧ ∃ left, Shows s' t.settle left := by
  have hpending := h.pending
  have hline := h.line
  simp only [State.step] at hs
  cases hpc : s.pc with
  | idle => simp [hpc] at hs
  | erasing =>
    simp only [hpc,some.injEq,Prod.mk.injEq] at hs hpending
    obtain ⟨rfl,rfl⟩ := hs
    rw [Terminal.settle,hpending]
    exact ⟨rfl,h.eraseLine hpc⟩
  | stored c =>
    simp only [hpc,some.injEq,Prod.mk.injEq] at hs hpending
    obtain ⟨rfl,rfl⟩ := hs
    rw [hpc,if_neg fun hpc => by cases hpc] at hline
    have hheld : s.used = t.held := by rw [h.used_eq,hline,Terminal.held]
    rw [Terminal.settle,hpending,State.commit,hheld]
    dsimp only [Pc.byte?]
    split
    · exact ⟨rfl,_,h.commit hline⟩
    · exact ⟨rfl,_,h.settle hline⟩

end Shows

theorem Shows.step (h : Shows s t left) {op : Op} {out : Option Answer} (hop : op ≠ .intr etx)
    (hs : s.step op = some (s',out)) :
    (∃ left, Shows s' (t.after op) left) ∧ (t.after op).committed.take (t.after op).taken =
        t.committed.take t.taken ++ returned [out] := by
  cases op with
  | intr c =>
    obtain ⟨hpc,hs⟩ := ite_none_right_eq_some.mp hs
    obtain ⟨rfl,rfl⟩ := Prod.mk.inj (some.inj hs)
    refine ⟨h.intr hpc fun hc => hop (congrArg Op.intr hc),?_⟩
    rw [Terminal.after,(t.key_kept c).1,(t.key_kept c).2]
    exact (append_nil _).symm
  | resume =>
    obtain ⟨rfl,hshows⟩ := h.resume hs
    exact ⟨hshows,(t.settle_take h.taken).trans (append_nil _).symm⟩
  | getc canSleep =>
    have hgetc : s.consoleGetc canSleep = (s',out) := some.inj hs
    have hshows := h.getc canSleep
    rw [hgetc] at hshows
    exact ⟨⟨left,hshows.1⟩,hshows.2⟩

theorem shows_run {ops : List Op} (hops : ∀ op ∈ ops, op ≠ .intr etx) (h : Shows s t left)
    {outs : List (Option Answer)} (hrun : run State.step s ops = some (s',outs)) :
    (∃ left, Shows s' (ops.foldl Terminal.after t) left) ∧
      (ops.foldl Terminal.after t).committed.take (ops.foldl Terminal.after t).taken =
        t.committed.take t.taken ++ returned outs := by
  induction ops generalizing s t left outs with
  | nil =>
    obtain ⟨rfl,rfl⟩ := Prod.mk.inj (some.inj hrun)
    exact ⟨⟨left,h⟩,(append_nil _).symm⟩
  | cons op ops ih =>
    obtain ⟨s₁,out,outs',hstep,hrest,rfl⟩ := run_cons hrun
    obtain ⟨⟨left',hshows⟩,hout⟩ := h.step (hops op (mem_cons_self ..)) hstep
    obtain ⟨hlast,houts⟩ := ih (fun o ho => hops o (mem_cons_of_mem _ ho)) hshows hrest
    refine ⟨hlast,houts.trans ?_⟩
    rw [hout,append_assoc,← returned_cons]

theorem foldl_committed (ops : List Op) (t : Terminal) :
    t.committed <+: (ops.foldl Terminal.after t).committed := by
  induction ops generalizing t with
  | nil => exact prefix_rfl
  | cons op ops ih => exact (t.after_committed op).trans (ih _)

theorem shows_init : Shows consoleInit Terminal.fresh [] :=
  ⟨rfl,le_rfl,⟨prefix_rfl,Nat.zero_le _,rfl,rfl,fun _ _ _ hb => by cases hb⟩,rfl,rfl,rfl⟩

theorem console_returns_committed_lines (ops : List Op) (s : State) (outs : List (Option Answer))
    (hops : ∀ op ∈ ops, op ≠ .intr etx)
    (hrun : run State.step consoleInit ops = some (s,outs)) :
    s.Ordered ∧ returned outs <+: (Terminal.afterAll ops).committed ∧
      ∀ earlier later, ops = earlier ++ later →
        (Terminal.afterAll earlier).committed <+: (Terminal.afterAll ops).committed := by
  obtain ⟨⟨left,hshows⟩,houts⟩ := shows_run hops shows_init hrun
  refine ⟨hshows.ordered,?_,?_⟩
  · rw [show returned outs = _ from (nil_append _).symm.trans houts.symm]
    exact take_prefix _ _
  · rintro earlier later rfl
    rw [Terminal.afterAll,Terminal.afterAll,foldl_append]
    exact foldl_committed later _

def editedLine : List Op :=
  [.intr 0x61,.resume,.intr 0x62,.resume,.intr bs,.intr cr,.getc true,.resume,.getc true,.getc true]

theorem console_returns_committed_lines_edited :
    ∃ s outs, run State.step consoleInit editedLine = some (s,outs) ∧
      s.Ordered ∧ returned outs <+: (Terminal.afterAll editedLine).committed ∧
        (Terminal.afterAll editedLine).committed = [0x61,newline] := by
  obtain ⟨⟨s,outs⟩,hrun⟩ := isSome_iff_exists.mp
    (show (run State.step consoleInit editedLine).isSome by decide +kernel)
  have h := console_returns_committed_lines editedLine s outs (by decide) hrun
  exact ⟨s,outs,hrun,h.1,h.2.1,by decide⟩

end TinyOs.Console
