import TinyOs.Sched.Steps

namespace TinyOs.Sched

open Machine

variable {C : Type} [DecidableEq C] {s : State C}

theorem headFree_of_subsingleton [Subsingleton C] {op : Op C} {r : State C × List Event}
    (hs : s.step op = some r) : HeadFree s op := by
  cases step_move hs with
  | @dispatch c hc =>
    intro p _ d hd
    rw [Subsingleton.elim d c,hc] at hd
    cases hd
  | _ => trivial

theorem run_queue_single_cpu (ops : List (Op Unit)) (s : State Unit) (out : List (List Event))
    (h : run State.step State.boot ops = some (s,out)) :
    s.panicked = false ∧ (∀ p, p ∈ s.queue ↔ (s.proc p).state = .runnable) ∧
      (∀ p, (s.proc p).state = .runnable → s.queue.count p = 1) ∧
      s.readied = s.dispatched ++ s.queue := by
  have hinv : Inv s := run_traces (I := fun _ s => Inv s)
    (fun _ _ _ _ _ hI hs => hI.step (headFree_of_subsingleton hs) hs) boot_inv h
  refine ⟨hinv.alive,fun p => (hinv.fits p).queued,fun p hp => ?_,hinv.fifo⟩
  exact List.count_eq_one_of_mem hinv.nodup ((hinv.fits p).queued.mpr hp)

def forkedRun : List (Op Unit) :=
  [.dispatch (),.switchIn (),.alloc (),.publish (),.wait () (-1),.waitScan (),.waitSleep (),
    .switchOut (),.reap (),.dispatch (),.switchIn (),.tick () 1,.preempt (),.switchOut (),.reap (),
    .dispatch (),.switchIn (),.exitCall () false,.exitPublish (),.exitWake (),.switchOut (),
    .reap (),.dispatch (),.switchIn ()]

theorem run_queue_single_cpu_forked : ∃ s out,
    run State.step State.boot forkedRun = some (s,out) ∧ s.queue = [1] ∧
      s.dispatched = [1,2,3,2] ∧ s.panicked = false ∧
      (∀ p, p ∈ s.queue ↔ (s.proc p).state = .runnable) ∧
      (∀ p, (s.proc p).state = .runnable → s.queue.count p = 1) ∧
      s.readied = s.dispatched ++ s.queue := by
  exact run_shows (fun s => s.queue = [1] ∧ s.dispatched = [1,2,3,2]) (by decide +kernel)
    fun s out hs h => ⟨h.1,h.2,run_queue_single_cpu forkedRun s out hs⟩

theorem one_cpu_per_process (ops : List (Op C)) (s : State C) (out : List (List Event))
    (hfree : Always State.step HeadFree State.boot ops)
    (h : run State.step State.boot ops = some (s,out)) :
    (∀ c d p, (s.cpu c).holder = some p → (s.cpu d).holder = some p → c = d) ∧
      ∀ c p, s.cpu c = .dispatching p → (s.proc p).saved = true := by
  have hinv := run_inv hfree h
  exact ⟨fun c c' p => (hinv.fits p).one c c',fun c p hc => ((hinv.fits p).dispatching c hc).2⟩

def handedOver : List (Op Bool) :=
  [.dispatch false,.switchIn false,.yield false,.switchOut false,.dispatch true,.switchIn true,
    .sleep true 7,.switchOut true,.reap true,.dispatch true]

theorem one_cpu_per_process_handed : ∃ s out,
    run State.step State.boot handedOver = some (s,out) ∧ s.cpu true = .dispatching 1 ∧
      (∀ c d p, (s.cpu c).holder = some p → (s.cpu d).holder = some p → c = d) ∧
      ∀ c p, s.cpu c = .dispatching p → (s.proc p).saved = true := by
  have hfree : Always State.step HeadFree State.boot handedOver := by decide +kernel
  exact run_shows (fun s => s.cpu true = .dispatching 1) (by decide +kernel)
    fun s out hs h => ⟨h,one_cpu_per_process handedOver s out hfree hs⟩

def earlyDispatch : List (Op Bool) :=
  [.dispatch false,.switchIn false,.dispatch true,.switchIn true,.yield false,.sleep true 7,
    .switchOut true,.reap true,.dispatch true]

theorem yield_runs_twice : ∃ s out,
    run State.step State.boot earlyDispatch = some (s,out) ∧
      s.cpu false = .leave 1 false ∧ s.cpu true = .dispatching 1 ∧ (s.proc 1).saved = false :=
  run_reaches (by decide +kernel)

end TinyOs.Sched
