import Acos.Timeout.Model
import Acos.Lib.Transition

/-! The child's early end is answered with its line exactly where `SIGCHLD` finds the handler
installed. -/
namespace Acos.Timeout
open Acos.WaitStatus Acos.Transition

/-- From the child's early end on: its signal is to be delivered, the handler waits for it, has its
status, or has printed the line. -/
inductive Answering (s : State) (ending : Ending) : Prop
  | signalled (hparent : s.parent = .sleep ∨ s.parent = .sleeping) (hprinted : s.printed = none)
      (hdeliver : s.deliverable = true) (hchild : s.child = .zombie ending)
  | waiting (hparent : s.parent = .sleep ∨ s.parent = .sleeping) (hprinted : s.printed = none)
      (hframe : s.frame = some .wait) (hchild : s.child = .zombie ending)
  | checking (hparent : s.parent = .sleep ∨ s.parent = .sleeping) (hprinted : s.printed = none)
      (hframe : s.frame = some (.check ending.status)) (hchild : s.child = .reaped)
  | answered (hframe : s.frame = none) (hpending : s.pending = false)
      (hchild : s.child = .reaped) (hanswer : Answered ending s)

/-- An upper bound of the steps that are left before the answer. -/
def State.distance (s : State) : ℕ :=
  (if s.expired then 0 else 1) +
    match s.frame, s.parent with
    | some .wait, _ => 2
    | some (.check _), _ => 1
    | none, .sleep => 4
    | none, .sleeping => 3
    | none, _ => 0

def Label.ofChild : Label → Bool
  | .parent | .forkFails | .deliver | .expire => false
  | _ => true

section Answer
variable {s t : State} {l : Label} {ending : Ending}

theorem deliverable_iff : s.deliverable = true ↔
    s.pending = true ∧ s.handler = true ∧ s.mask = false ∧ s.frame = none := by
  simp [State.deliverable, and_assoc]

/-- What happens to the child happens while it is alive and leaves the parent where it is, and only
its own end before the expiry is early. -/
theorem next_ofChild (hchild : l.ofChild = true) (hstep : next s l = some t) :
    s.child.alive = true ∧ ∃ child early,
      t = { s with child := child, early := early, pending := s.pending || s.handler } ∧
      (early = s.early ∨ ∃ ending, l = .childEnd ending ∧ s.expired = false ∧
        child = .zombie ending ∧ early = some ending) := by
  cases l with
  | parent | forkFails | deliver | expire => cases hchild
  | childEnd ending =>
    simp only [next] at hstep
    split_ifs at hstep with halive
    cases hstep
    refine ⟨halive, .zombie ending, _, rfl, ?_⟩
    simp only [State.childEnd]
    cases hexpired : s.expired
    · exact .inr ⟨ending, rfl, rfl, rfl, rfl⟩
    · exact .inl rfl
  | childTerm =>
    cases hs : s.child with
    | running =>
      simp only [next, hs] at hstep
      split_ifs at hstep
      cases hstep
      exact ⟨rfl, _, _, rfl, .inl rfl⟩
    | _ => simp [next, hs] at hstep
  | childStop =>
    cases hs : s.child with
    | running =>
      simp only [next, hs] at hstep
      cases hstep
      exact ⟨rfl, _, _, rfl, .inl rfl⟩
    | _ => simp [next, hs] at hstep
  | childCont =>
    cases hs : s.child with
    | stopped =>
      simp only [next, hs] at hstep
      cases hstep
      exact ⟨rfl, _, _, rfl, .inl rfl⟩
    | _ => simp [next, hs] at hstep

/-- With the status of the child the handler prints its line and ends the program. -/
theorem handlerStep_status (s : State) (ending : Ending) :
    ∃ code, handlerStep s (.check ending.status) = some (s.exit (lineOf ending) code) := by
  cases ending with
  | exited code =>
    have hexited := (WIFEXITED_iff (.exited code)).mpr ⟨code, rfl⟩
    exact ⟨0, by simp [handlerStep, hexited, lineOf]⟩
  | killed signal core =>
    have hexited : WIFEXITED (Ending.killed signal core).status = false := by
      rw [Bool.eq_false_iff, ne_eq, WIFEXITED_iff]
      simp
    have hsignaled := (WIFSIGNALED_iff (.killed signal core)).mpr ⟨signal, core, rfl⟩
    exact ⟨1, by simp [handlerStep, hexited, hsignaled, lineOf]⟩

theorem Answering.not_alive (h : Answering s ending) : s.child.alive = false := by
  cases h with
  | signalled _ _ _ hchild | waiting _ _ _ hchild | checking _ _ _ hchild
  | answered _ _ hchild =>
    rw [hchild]
    rfl

theorem Answering.parent_ne (h : Answering s ending) :
    s.parent ≠ .fork ∧ s.parent ≠ .set_signals_handler := by
  cases h with
  | signalled hparent | waiting hparent | checking hparent =>
    rcases hparent with hparent | hparent <;> simp [hparent]
  | answered _ _ _ hanswer =>
    obtain ⟨code, hcode⟩ := hanswer.2
    simp [hcode]

theorem Answering.printed (h : Answering s ending) :
    s.printed = none ∨ s.printed = some (lineOf ending) := by
  cases h with
  | signalled _ hprinted | waiting _ hprinted | checking _ hprinted => exact .inl hprinted
  | answered _ _ _ hanswer => exact .inr hanswer.1

theorem Answering.expire (h : Answering s ending) (hstep : next s .expire = some t) :
    Answering t ending ∧ t.early = s.early ∧ t.distance < s.distance := by
  simp only [next] at hstep
  split_ifs at hstep with hexpire
  cases hstep
  simp only [Bool.and_eq_true, decide_eq_true_eq, Bool.not_eq_true'] at hexpire
  refine ⟨?_, rfl, by simp [State.distance, hexpire.2]⟩
  cases h with
  | signalled hparent hprinted hdeliver hchild =>
    exact .signalled hparent hprinted hdeliver hchild
  | waiting hparent hprinted hframe hchild => exact .waiting hparent hprinted hframe hchild
  | checking hparent hprinted hframe hchild => exact .checking hparent hprinted hframe hchild
  | answered _ _ _ hanswer =>
    obtain ⟨code, hcode⟩ := hanswer.2
    rw [hexpire.1] at hcode
    cases hcode

theorem Answering.deliver (h : Answering s ending) (hstep : next s .deliver = some t) :
    Answering t ending ∧ t.early = s.early ∧ t.distance < s.distance := by
  simp only [next] at hstep
  split_ifs at hstep with hdeliver
  cases hstep
  obtain ⟨hpending, -, -, hframe⟩ := deliverable_iff.mp hdeliver
  cases h with
  | signalled hparent hprinted _ hchild =>
    refine ⟨.waiting hparent hprinted rfl hchild, rfl, ?_⟩
    rcases hparent with hparent | hparent <;> simp [State.distance, hframe, hparent]
  | waiting _ _ hframe' => simp [hframe] at hframe'
  | checking _ _ hframe' => simp [hframe] at hframe'
  | answered _ hpending' => simp [hpending] at hpending'

theorem Answering.parent (h : Answering s ending) (hstep : next s .parent = some t) :
    Answering t ending ∧ t.early = s.early ∧ t.distance < s.distance := by
  cases h with
  | signalled hparent hprinted hdeliver hchild =>
    obtain ⟨hpending, hhandler, hmask, hframe⟩ := deliverable_iff.mp hdeliver
    rcases hparent with hparent | hparent
    · simp only [next, hframe, mainStep, hparent] at hstep
      cases hstep
      refine ⟨.signalled (.inr rfl) hprinted ?_ hchild, rfl, ?_⟩
      · exact deliverable_iff.mpr ⟨hpending, hhandler, hmask, rfl⟩
      · simp [State.distance, hframe, hparent]
    · simp [next, hframe, mainStep, hparent, hdeliver] at hstep
  | waiting hparent hprinted hframe hchild =>
    simp only [next, hframe, handlerStep, State.wait, hchild, Option.map_some] at hstep
    cases hstep
    refine ⟨.checking hparent hprinted rfl rfl, rfl, ?_⟩
    simp [State.distance, hframe]
  | checking hparent hprinted hframe hchild =>
    obtain ⟨code, hcode⟩ := handlerStep_status s ending
    simp only [next, hframe, hcode] at hstep
    cases hstep
    refine ⟨.answered rfl rfl hchild ⟨rfl, code, rfl⟩, rfl, ?_⟩
    simp only [State.distance, State.exit, hframe]
    exact Nat.lt_succ_self _
  | answered hframe _ _ hanswer =>
    obtain ⟨code, hcode⟩ := hanswer.2
    simp [next, hframe, mainStep, hcode] at hstep

/-- A step on the way to the answer comes closer to it, and there is none after it. -/
theorem Answering.step (h : Answering s ending) (hstep : next s l = some t) :
    Answering t ending ∧ t.early = s.early ∧ t.distance < s.distance := by
  have hchild : l.ofChild = false := by
    rw [Bool.eq_false_iff]
    intro hl
    have halive := (next_ofChild hl hstep).1
    rw [h.not_alive] at halive
    cases halive
  cases l with
  | childEnd | childTerm | childStop | childCont => cases hchild
  | expire => exact h.expire hstep
  | forkFails => simp [next, h.parent_ne.1] at hstep
  | deliver => exact h.deliver hstep
  | parent => exact h.parent hstep

theorem Answering.progress (h : Answering s ending) (hanswer : ¬ Answered ending s) :
    ∃ l t, next s l = some t := by
  cases h with
  | signalled _ _ hdeliver => exact ⟨.deliver, _, by rw [next, if_pos hdeliver]⟩
  | waiting _ _ hframe hchild =>
    refine ⟨.parent, ?_⟩
    simp only [next, hframe, handlerStep, State.wait, hchild]
    exact ⟨_, rfl⟩
  | checking _ _ hframe =>
    obtain ⟨code, hcode⟩ := handlerStep_status s ending
    refine ⟨.parent, ?_⟩
    simp only [next, hframe, hcode]
    exact ⟨_, rfl⟩
  | answered _ _ _ h => exact absurd h hanswer

theorem Answering.inevitably (h : Answering s ending) : Inevitably next (Answered ending) s := by
  apply inevitably_of_measure (I := fun s => Answering s ending) State.distance
  · intro s h hanswer
    exact h.progress hanswer
  · intro s l t h _ hstep
    obtain ⟨ht, -, hlt⟩ := h.step hstep
    exact ⟨ht, hlt⟩
  · exact h

end Answer

/-- Before the handler is installed nothing is delivered or printed. -/
structure Unprepared (s : State) : Prop where
  handler : s.handler = false
  mask : s.mask = false
  pending : s.pending = false
  frame : s.frame = none
  printed : s.printed = none

/-- The parent sleeps, or is about to, and a `SIGCHLD` reaches its handler. -/
structure Armed (s : State) : Prop where
  parent : s.parent = .sleep ∨ s.parent = .sleeping
  handler : s.handler = true
  mask : s.mask = false
  frame : s.frame = none ∨ s.frame = some .wait
  printed : s.printed = none

/-- Until the sleep has expired a living child finds the parent armed, and a child that ended before
that is being answered. -/
structure Inv (s : State) : Prop where
  unprepared : s.parent = .fork ∨ s.parent = .set_signals_handler → Unprepared s
  armed : s.child.alive = true → s.expired = false → s.parent = .set_signals_handler ∨ Armed s
  answering : ∀ ending, s.early = some ending → Answering s ending

section Invariant
variable {s t : State} {l : Label} {ending : Ending}

theorem inv_initial (argc : ℕ) : Inv (initial argc) where
  unprepared := fun _ => ⟨rfl, rfl, rfl, rfl, rfl⟩
  armed := fun h => by cases h
  answering := fun _ h => by cases h

theorem Inv.of_answering (h : Answering s ending) (hearly : s.early = some ending) : Inv s where
  unprepared := fun hparent => hparent.elim (absurd · h.parent_ne.1) (absurd · h.parent_ne.2)
  armed := fun halive => by simp [h.not_alive] at halive
  answering := by
    rintro ending' h'
    obtain rfl : ending = ending' := Option.some.inj (hearly.symm.trans h')
    exact h

theorem Inv.of_late (hearly : s.early = none) (hfork : s.parent ≠ .fork)
    (hset : s.parent ≠ .set_signals_handler) (hlate : s.child.alive = true → s.expired = true) :
    Inv s where
  unprepared := fun hparent => hparent.elim (absurd · hfork) (absurd · hset)
  armed := fun halive hexpired => by simp [hlate halive] at hexpired
  answering := fun _ h => by simp [hearly] at h

/-- Past its sleep the parent has a living child only after the expiry. -/
theorem Inv.late (h : Inv s) (hset : s.parent ≠ .set_signals_handler) (harmed : ¬ Armed s)
    (halive : s.child.alive = true) : s.expired = true := by
  by_contra hexpired
  rcases h.armed halive (Bool.eq_false_iff.mpr hexpired) with hparent | harmed'
  · exact hset hparent
  · exact harmed harmed'

/-- While something is done in the handler, it is installed. -/
theorem Inv.parent_ne (h : Inv s) (hframe : s.frame ≠ none ∨ s.handler = true) :
    s.parent ≠ .fork ∧ s.parent ≠ .set_signals_handler := by
  have hunprepared : ¬ Unprepared s := by
    intro hs
    rcases hframe with hframe | hhandler
    · exact hframe hs.frame
    · simp [hs.handler] at hhandler
  exact ⟨fun hparent => hunprepared (h.unprepared (.inl hparent)),
    fun hparent => hunprepared (h.unprepared (.inr hparent))⟩

theorem Inv.ofChild (h : Inv s) (hearly : s.early = none) (hchild : l.ofChild = true)
    (hfirst : HandlerFirst s l) (hstep : next s l = some t) : Inv t := by
  obtain ⟨halive, child, early, rfl, hcases⟩ := next_ofChild hchild hstep
  rcases hcases with rfl | ⟨ending, rfl, hexpired, rfl, rfl⟩
  · refine ⟨fun hparent => ?_, fun _ hexpired => ?_, fun _ he => by simp [hearly] at he⟩
    · have hs := h.unprepared hparent
      exact ⟨hs.handler, hs.mask, by simp [hs.pending, hs.handler], hs.frame, hs.printed⟩
    · refine (h.armed halive hexpired).imp id fun hs => ?_
      exact ⟨hs.parent, hs.handler, hs.mask, hs.frame, hs.printed⟩
  · rcases h.armed halive hexpired with hparent | hs
    · exact absurd hparent hfirst
    · apply Inv.of_answering _ rfl
      rcases hs.frame with hframe | hframe
      · have hpending : (s.pending || s.handler) = true := by simp [hs.handler]
        exact .signalled hs.parent hs.printed
          (deliverable_iff.mpr ⟨hpending, hs.handler, hs.mask, hframe⟩) rfl
      · exact .waiting hs.parent hs.printed hframe rfl

theorem Inv.handler (h : Inv s) (hearly : s.early = none) {pc : HandlerPc}
    (hframe : s.frame = some pc) (hstep : handlerStep s pc = some t) : Inv t := by
  obtain ⟨hfork, hset⟩ := h.parent_ne (.inl (by simp [hframe]))
  cases pc with
  | wait =>
    cases hchild : s.child with
    | running | stopped => simp [handlerStep, State.wait, hchild] at hstep
    | absent | zombie | reaped =>
      simp only [handlerStep, State.wait, hchild, Option.map_some] at hstep
      cases hstep
      exact .of_late hearly hfork hset (by simp [Child.alive])
  | check status =>
    have harmed : ¬ Armed s := fun hs => by
      rcases hs.frame with hnone | hwait
      · simp [hframe] at hnone
      · simp [hframe] at hwait
    have hlate := h.late hset harmed
    simp only [handlerStep] at hstep
    split_ifs at hstep <;> cases hstep
    · exact .of_late hearly (by simp [State.exit]) (by simp [State.exit]) hlate
    · exact .of_late hearly (by simp [State.exit]) (by simp [State.exit]) hlate
    · exact .of_late hearly (by simp) (by simp) hlate
    · exact .of_late hearly hfork hset hlate

theorem Inv.main (h : Inv s) (hearly : s.early = none) (hframe : s.frame = none)
    (hstep : mainStep s = some t) : Inv t := by
  cases hparent : s.parent with
  | fork =>
    simp only [mainStep, hparent] at hstep
    cases hstep
    have hs := h.unprepared (.inl hparent)
    exact ⟨fun _ => ⟨hs.handler, hs.mask, hs.pending, hs.frame, hs.printed⟩,
      fun _ _ => .inl rfl, fun _ he => by simp [hearly] at he⟩
  | set_signals_handler =>
    simp only [mainStep, hparent] at hstep
    cases hstep
    have hs := h.unprepared (.inr hparent)
    exact ⟨fun h => by simp at h, fun _ _ => .inr ⟨.inl rfl, rfl, hs.mask, .inl hframe, hs.printed⟩,
      fun _ he => by simp [hearly] at he⟩
  | sleep =>
    simp only [mainStep, hparent] at hstep
    cases hstep
    refine ⟨fun h => by simp at h, fun halive hexpired => ?_, fun _ he => by simp [hearly] at he⟩
    rcases h.armed halive hexpired with hset | hs
    · simp [hparent] at hset
    · exact .inr ⟨.inr rfl, hs.handler, hs.mask, hs.frame, hs.printed⟩
  | sleeping =>
    simp only [mainStep, hparent] at hstep
    split_ifs at hstep with hguard
    cases hstep
    simp only [Bool.or_eq_true, Bool.not_eq_true', not_or, Bool.not_eq_false] at hguard
    exact .of_late hearly (by simp) (by simp) (fun _ => hguard.2)
  | prohibit_all_signals | kill | print =>
    have hlate := h.late (by simp [hparent]) fun hs => by simpa [hparent] using hs.parent
    simp only [mainStep, hparent] at hstep
    cases hstep
    exact .of_late hearly (by simp [State.exit]) (by simp [State.exit]) hlate
  | wait =>
    have hlate := h.late (by simp [hparent]) fun hs => by simpa [hparent] using hs.parent
    simp only [mainStep, hparent] at hstep
    cases hchild : s.child with
    | running | stopped => simp [State.wait, hchild] at hstep
    | absent | zombie | reaped =>
      simp only [State.wait, hchild, Option.map_some] at hstep
      cases hstep
      exact .of_late hearly (by simp) (by simp) (by simp [Child.alive])
  | exited code => simp [mainStep, hparent] at hstep

theorem Inv.step (h : Inv s) (hfirst : HandlerFirst s l) (hstep : next s l = some t) : Inv t := by
  cases hearly : s.early with
  | some ending =>
    obtain ⟨ht, he, -⟩ := (h.answering ending hearly).step hstep
    exact .of_answering ht (he.trans hearly)
  | none =>
    cases l with
    | childEnd | childTerm | childStop | childCont => exact h.ofChild hearly rfl hfirst hstep
    | parent =>
      cases hframe : s.frame with
      | some pc =>
        simp only [next, hframe] at hstep
        exact h.handler hearly hframe hstep
      | none =>
        simp only [next, hframe] at hstep
        exact h.main hearly hframe hstep
    | forkFails =>
      simp only [next] at hstep
      split_ifs at hstep with hparent
      cases hstep
      have hlate := h.late (by simp [hparent]) fun hs => by simpa [hparent] using hs.parent
      exact .of_late hearly (by simp) (by simp) hlate
    | deliver =>
      simp only [next] at hstep
      split_ifs at hstep with hdeliver
      cases hstep
      obtain ⟨-, hhandler, -, -⟩ := deliverable_iff.mp hdeliver
      obtain ⟨hfork, hset⟩ := h.parent_ne (.inr hhandler)
      refine ⟨fun hparent => hparent.elim (absurd · hfork) (absurd · hset),
        fun halive hexpired => ?_, fun _ he => by simp [hearly] at he⟩
      refine (h.armed halive hexpired).imp id fun hs => ?_
      exact ⟨hs.parent, hs.handler, hs.mask, .inr rfl, hs.printed⟩
    | expire =>
      simp only [next] at hstep
      split_ifs at hstep with hexpire
      cases hstep
      simp only [Bool.and_eq_true, decide_eq_true_eq] at hexpire
      exact .of_late hearly (by simp [hexpire.1]) (by simp [hexpire.1]) fun _ => rfl

end Invariant

/-- The child is gone and no signal tells of it. -/
structure Lost (s : State) : Prop where
  child : s.child.alive = false
  forked : s.parent ≠ .fork
  pending : s.pending = false
  frame : s.frame = none
  printed : s.printed = none ∨ s.printed = some .timeout

section Lost
variable {s t : State} {l : Label} {ending : Ending}

theorem Lost.main (h : Lost s) (hstep : mainStep s = some t) : Lost t := by
  cases hparent : s.parent with
  | fork => exact absurd hparent h.forked
  | set_signals_handler | sleep | prohibit_all_signals | kill =>
    simp only [mainStep, hparent] at hstep
    cases hstep
    exact ⟨h.child, by simp, h.pending, h.frame, h.printed⟩
  | sleeping =>
    simp only [mainStep, hparent] at hstep
    split_ifs at hstep
    cases hstep
    exact ⟨h.child, by simp, h.pending, h.frame, h.printed⟩
  | wait =>
    simp only [mainStep, hparent] at hstep
    cases hchild : s.child with
    | running | stopped => simp [State.wait, hchild] at hstep
    | absent | zombie | reaped =>
      simp only [State.wait, hchild, Option.map_some] at hstep
      cases hstep
      exact ⟨by simp [Child.alive], by simp, h.pending, h.frame, h.printed⟩
  | print =>
    simp only [mainStep, hparent] at hstep
    cases hstep
    exact ⟨h.child, by simp [State.exit], rfl, rfl, .inr rfl⟩
  | exited code => simp [mainStep, hparent] at hstep

theorem Lost.step (h : Lost s) (hstep : next s l = some t) : Lost t := by
  cases l with
  | childEnd | childTerm | childStop | childCont =>
    have halive := (next_ofChild rfl hstep).1
    simp [h.child] at halive
  | parent =>
    simp only [next, h.frame] at hstep
    exact h.main hstep
  | forkFails => simp [next, h.forked] at hstep
  | deliver => simp [next, State.deliverable, h.pending] at hstep
  | expire =>
    simp only [next] at hstep
    split_ifs at hstep
    cases hstep
    exact ⟨h.child, h.forked, h.pending, h.frame, h.printed⟩

theorem Lost.not_answered (h : Lost s) : ¬ Answered ending s := by
  rintro ⟨hline, -⟩
  rcases h.printed with hprinted | hprinted
  · simp [hprinted] at hline
  · cases ending <;> simp [hprinted, lineOf] at hline

/-- A child that ends before the handler is installed is lost. -/
theorem Inv.lost (h : Inv s) (hfirst : ¬ HandlerFirst s l) (hstep : next s l = some t) :
    Lost t := by
  cases l with
  | childEnd ending =>
    have hparent : s.parent = .set_signals_handler := by simpa [HandlerFirst] using hfirst
    have hs := h.unprepared (.inr hparent)
    simp only [next] at hstep
    split_ifs at hstep
    cases hstep
    exact ⟨rfl, by simp [State.notify, State.childEnd, hparent],
      by simp [State.notify, State.childEnd, hs.pending, hs.handler], hs.frame, .inl hs.printed⟩
  | _ => exact absurd trivial hfirst

end Lost

/-- A child's early end is answered with its line and nothing else if and only if the child did not
end before the handler was installed. -/
theorem early_end_answered_iff {argc : ℕ} {ls : List Label} {s : State} {ending : Ending}
    (hrun : run next (initial argc) ls = some s) (hearly : s.early = some ending) :
    ((s.printed = none ∨ s.printed = some (lineOf ending)) ∧
      Inevitably next (Answered ending) s) ↔ Along next HandlerFirst (initial argc) ls := by
  constructor
  · rintro ⟨-, hanswer⟩
    by_contra halong
    obtain ⟨past, u, l, v, hpast, hfirst, hlate, hstep, hv⟩ := exists_first_of_not_along hrun halong
    have hu : Inv u :=
      run_invariant_along (fun _ _ _ h hP hstep => h.step hP hstep) (inv_initial argc) hfirst hpast
    have hs : Lost s := hv.invariant (fun _ _ _ h hstep => h.step hstep) (hu.lost hlate hstep)
    exact not_inevitably_of_invariant (fun _ h => h.not_answered)
      (fun _ _ _ h hstep => h.step hstep) hs hanswer
  · intro hfirst
    have hs : Inv s :=
      run_invariant_along (fun _ _ _ h hP hstep => h.step hP hstep) (inv_initial argc) hfirst hrun
    have hanswering := hs.answering ending hearly
    exact ⟨hanswering.printed, hanswering.inevitably⟩

/-- A program that exits while the parent sleeps is answered. -/
theorem early_end_answered_asleep : ∃ s,
    run next (initial 3) [.parent, .parent, .parent, .childEnd (.exited 0)] = some s ∧
      Inevitably next (Answered (.exited 0)) s := by
  have hfirst : Along next HandlerFirst (initial 3)
      [.parent, .parent, .parent, .childEnd (.exited 0)] :=
    .cons trivial rfl (.cons trivial rfl (.cons trivial rfl (.cons (by simp [HandlerFirst]) rfl
      trivial)))
  exact ⟨_, rfl, ((early_end_answered_iff rfl rfl).mpr hfirst).2⟩

/-- The program exits before the parent has its handler. -/
def beforeHandler : List Label :=
  [.parent, .childEnd (.exited 0), .parent, .parent, .expire, .parent, .parent, .parent, .parent,
    .parent]

theorem early_end_times_out : ∃ s, run next (initial 3) beforeHandler = some s ∧
    s.early = some (.exited 0) ∧ s.parent = .exited 2 ∧ s.printed = some .timeout :=
  ⟨_, rfl, rfl, rfl, rfl⟩

end Acos.Timeout
