import Acos.Lib.Transition
import Mathlib.Data.Int.Notation
import Mathlib.Logic.Function.Basic

/-! The children of the server that executes files, and their `SIGCHLD`. The signal can arrive
between any two steps of the parent; the handler knows the child only by `current_child_pid`. -/
namespace Acos.HttpServer.Children
open Acos.Transition

/-- Where the parent stands in `execute_file`; `ready` is before a fork, of this request or of
the next one. -/
inductive ParentPc where
  | ready
  | close (child_pid : ℤ)
  | store (child_pid : ℤ)
  deriving DecidableEq, Repr

/-- A child that has not been waited for; `handled` says that its `SIGCHLD` has been handled. -/
structure Child where
  exited : Bool
  handled : Bool
  deriving DecidableEq, Repr

structure State where
  pc : ParentPc
  current_child_pid : ℤ
  /-- The pid for which `signal_handler` waits, while it does. -/
  waiting : Option ℤ
  /-- A `SIGCHLD` is pending. Several children that exit may share it. -/
  pending : Bool
  children : ℤ → Option Child

def initial : State where
  pc := .ready
  current_child_pid := -1
  waiting := none
  pending := false
  children := fun _ => none

inductive Label where
  | fork (child_pid : ℤ)
  | forkFailed
  | close
  | store
  | exit (pid : ℤ)
  | deliver
  | waited
  deriving DecidableEq

/-- A step of the parent's code in `execute_file`. It does not run while the handler does. -/
def parentStep (s : State) : Label → Option State
  | .fork child_pid =>
    if s.pc = .ready ∧ 0 < child_pid ∧ s.children child_pid = none then
      some { s with
        pc := .close child_pid
        children := Function.update s.children child_pid (some ⟨false, false⟩) }
    else none
  | .forkFailed => if s.pc = .ready then some { s with pc := .close (-1) } else none
  | .close =>
    match s.pc with
    | .close child_pid => some { s with pc := .store child_pid }
    | _ => none
  | .store =>
    match s.pc with
    | .store child_pid => some { s with pc := .ready, current_child_pid := child_pid }
    | _ => none
  | _ => none

/-- The children after a `SIGCHLD` has been delivered: those that have exited are handled. -/
def reported (children : ℤ → Option Child) : ℤ → Option Child := fun pid =>
  (children pid).map fun c => if c.exited then { c with handled := true } else c

def next (s : State) : Label → Option State
  | .exit pid =>
    match s.children pid with
    | some ⟨false, handled⟩ =>
      some { s with
        pending := true
        children := Function.update s.children pid (some ⟨true, handled⟩) }
    | _ => none
  | .deliver =>
    if s.pending ∧ s.waiting = none then
      some { s with
        pending := false
        children := reported s.children
        waiting := if 0 < s.current_child_pid then some s.current_child_pid else none }
    else none
  | .waited =>
    match s.waiting with
    | none => none
    | some pid =>
      -- `waitpid` returns when the child has exited, or at once if there is no such child
      match s.children pid with
      | some ⟨false, _⟩ => none
      | _ =>
        some { s with
          waiting := none
          current_child_pid := -1
          children := Function.update s.children pid none }
  | l => if s.waiting = none then parentStep s l else none

/-- When the next child is forked, every child whose signal has been handled has been waited
for. -/
def NextForkClean (s : State) : Prop :=
  ∀ child_pid t, next s (.fork child_pid) = some t →
    ∀ pid c, s.children pid = some c → c.handled = false

/-- The condition on a step: a `SIGCHLD` is delivered only while `current_child_pid` is the pid
of the child it is about. -/
def Timely (s : State) : Label → Prop
  | .deliver => ∀ pid c, s.children pid = some c → c.exited = true → c.handled = false →
      s.current_child_pid = pid
  | _ => True

/-- A handled child is the one that the handler waits for. -/
structure Waited (s : State) : Prop where
  positive : ∀ pid c, s.children pid = some c → 0 < pid
  handled : ∀ pid c, s.children pid = some c → c.handled = true → s.waiting = some pid

theorem initial_waited : Waited initial :=
  ⟨fun _ _ h => (by cases h), fun _ _ h => (by cases h)⟩

theorem update_eq_some {children : ℤ → Option Child} {k pid : ℤ} {v : Option Child} {c : Child}
    (h : Function.update children k v pid = some c) :
    pid = k ∧ v = some c ∨ pid ≠ k ∧ children pid = some c := by
  by_cases hk : pid = k
  · rw [hk, Function.update_self] at h
    exact .inl ⟨hk, h⟩
  · rw [Function.update_of_ne hk] at h
    exact .inr ⟨hk, h⟩

theorem parentStep_waited {s t : State} {l : Label} (hs : Waited s)
    (h : parentStep s l = some t) : Waited t := by
  unfold parentStep at h
  split at h
  case h_1 child_pid =>
    split_ifs at h with hfork
    cases h
    constructor
    · intro pid c hc
      rcases update_eq_some hc with ⟨heq, -⟩ | ⟨-, hold⟩
      · rw [heq]
        exact hfork.2.1
      · exact hs.positive pid c hold
    · intro pid c hc hhandled
      rcases update_eq_some hc with ⟨-, hnew⟩ | ⟨-, hold⟩
      · cases hnew
        cases hhandled
      · exact hs.handled pid c hold hhandled
  case h_2 =>
    split_ifs at h
    cases h
    exact ⟨hs.positive, hs.handled⟩
  case h_3 =>
    split at h
    · cases h
      exact ⟨hs.positive, hs.handled⟩
    · cases h
  case h_4 =>
    split at h
    · cases h
      exact ⟨hs.positive, hs.handled⟩
    · cases h
  case h_5 => cases h

theorem reported_eq_some {children : ℤ → Option Child} {pid : ℤ} {c : Child}
    (h : reported children pid = some c) :
    ∃ c', children pid = some c' ∧ (c.handled = true → c'.exited = true ∨ c'.handled = true) := by
  unfold reported at h
  obtain ⟨c', hc', heq⟩ := Option.map_eq_some_iff.mp h
  refine ⟨c', hc', fun hhandled => ?_⟩
  split_ifs at heq with hexited
  · exact .inl hexited
  · rw [heq]
    exact .inr hhandled

theorem next_waited {s t : State} {l : Label} (hs : Waited s) (hl : Timely s l)
    (h : next s l = some t) : Waited t := by
  unfold next at h
  split at h
  case h_1 pid =>
    split at h
    next handled heq =>
      cases h
      constructor
      · intro q c hc
        rcases update_eq_some hc with ⟨hq, -⟩ | ⟨-, hold⟩
        · rw [hq]
          exact hs.positive pid _ heq
        · exact hs.positive q c hold
      · intro q c hc hhandled
        rcases update_eq_some hc with ⟨hq, hnew⟩ | ⟨-, hold⟩
        · cases hnew
          rw [hq]
          exact hs.handled pid _ heq hhandled
        · exact hs.handled q c hold hhandled
    · cases h
  case h_2 =>
    by_cases hdeliver : s.pending = true ∧ s.waiting = none
    case neg =>
      rw [if_neg hdeliver] at h
      cases h
    rw [if_pos hdeliver] at h
    cases h
    constructor
    · intro pid c hc
      obtain ⟨c', hc', -⟩ := reported_eq_some hc
      exact hs.positive pid c' hc'
    · intro pid c hc hhandled
      obtain ⟨c', hc', hcases⟩ := reported_eq_some hc
      -- nothing was handled before, so this child is reported now
      have hfresh : c'.handled = false := by
        by_contra hold
        have hwait := hs.handled pid c' hc' (by simpa using hold)
        rw [hdeliver.2] at hwait
        cases hwait
      have hexited : c'.exited = true := by
        rcases hcases hhandled with hexited | hold
        · exact hexited
        · rw [hfresh] at hold
          cases hold
      have hcurrent := hl pid c' hc' hexited hfresh
      show (if 0 < s.current_child_pid then some s.current_child_pid else none) = some pid
      rw [hcurrent, if_pos (hs.positive pid c' hc')]
  case h_3 =>
    split at h
    · cases h
    next pid hwait =>
      split at h
      · cases h
      · cases h
        constructor
        · intro q c hc
          rcases update_eq_some hc with ⟨-, hgone⟩ | ⟨-, hold⟩
          · cases hgone
          · exact hs.positive q c hold
        · intro q c hc hhandled
          rcases update_eq_some hc with ⟨-, hgone⟩ | ⟨hq, hold⟩
          · cases hgone
          · have hother := hs.handled q c hold hhandled
            rw [hwait] at hother
            exact absurd (Option.some.inj hother).symm hq
  case h_4 =>
    split_ifs at h
    exact parentStep_waited hs h

theorem Waited.nextForkClean {s : State} (hs : Waited s) : NextForkClean s := by
  intro child_pid t hfork pid c hc
  by_contra hhandled
  have hwait := hs.handled pid c hc (by simpa using hhandled)
  have hidle : s.waiting = none := by
    unfold next at hfork
    split at hfork
    case h_4 =>
      split_ifs at hfork with hidle
      exact hidle
    all_goals
      next heq => cases heq
  rw [hidle] at hwait
  cases hwait

/-- Along a run in which every `SIGCHLD` is delivered in time, no handled child is left when the
next one is forked. -/
theorem next_fork_clean_of_timely {ls : List Label} {s : State}
    (htimely : Along next Timely initial ls) (hrun : run next initial ls = some s) :
    NextForkClean s :=
  (run_invariant_along (fun _ _ _ hs hl h => next_waited hs hl h) initial_waited htimely
    hrun).nextForkClean

/-- A child whose signal comes when its pid is stored, and the next child. -/
def timelyRun : List Label :=
  [.fork 7, .close, .store, .exit 7, .deliver, .waited, .fork 8]

theorem next_fork_clean_timelyRun :
    ∃ s, run next initial timelyRun = some s ∧ s.children 7 = none ∧ NextForkClean s := by
  obtain ⟨s, hrun, hgone⟩ : ∃ s, run next initial timelyRun = some s ∧ s.children 7 = none :=
    ⟨_, rfl, rfl⟩
  have htimely : Along next Timely initial timelyRun := by
    refine Along.cons trivial rfl (Along.cons trivial rfl (Along.cons trivial rfl
      (Along.cons trivial rfl (Along.cons ?_ rfl (Along.cons trivial rfl
        (Along.cons trivial rfl trivial))))))
    intro pid c hc hexited hhandled
    rcases update_eq_some hc with ⟨hpid, -⟩ | ⟨hne, hold⟩
    · exact hpid.symm
    · rcases update_eq_some hold with ⟨hpid, -⟩ | ⟨-, hnone⟩
      · exact hpid.symm
      · cases hnone
  exact ⟨s, hrun, hgone, next_fork_clean_of_timely htimely hrun⟩

/-- The signal comes before the pid is stored: the child stays a zombie at the next fork. -/
theorem zombie_before_store : ¬ ∀ s, Reachable next initial s → NextForkClean s := by
  intro hall
  obtain ⟨s, t, hrun, hfork, hzombie⟩ : ∃ s t,
      run next initial [.fork 7, .exit 7, .deliver, .close, .store] = some s ∧
        next s (.fork 8) = some t ∧ s.children 7 = some ⟨true, true⟩ := ⟨_, _, rfl, rfl, rfl⟩
  have hclean := hall s ⟨_, hrun⟩ 8 t hfork 7 _ hzombie
  cases hclean

end Acos.HttpServer.Children
