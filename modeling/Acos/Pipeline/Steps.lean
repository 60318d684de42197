import Acos.Pipeline.Invariant

/-! What a step of the child and a step of the parent make of a round. -/
namespace Acos.Pipeline
open Acos.CString Acos.Transition

variable {c : Config} {odd : Bool} {s t : State} {child : Child} {l : Label}

theorem Round.move {k : ℕ} (h : Round c odd k s) (parent : ParentPc) (right_pipe : ℕ × ℕ)
    (table : Table) (child : Option Child) :
    Round c odd k
      { s with parent := parent, right_pipe := right_pipe, table := table, child := child } :=
  ⟨h.pos, h.le, h.read_fd, h.created, h.fresh, h.failed, h.log, h.fits⟩

/-- What a step of the child leaves as it is. -/
structure SameParent (s t : State) : Prop where
  parent : t.parent = s.parent
  i : t.i = s.i
  table : t.table = s.table
  right_pipe : t.right_pipe = s.right_pipe

/-- After a step of the child it is still at work, or has ended. -/
def Progressed (c : Config) (odd : Bool) (t : State) : Prop :=
  ∃ child, t.child = some child ∧
    (Round c odd (t.i - 1) t ∧ Working c odd t child ∨
      Round c odd t.i t ∧ child.pc = .zombie ∧ Piped c t)

section Child

/-- A step of `launch_program` in the child. -/
theorem Working.prepare (round : Round c odd (s.i - 1) s) (h : Working c odd s child)
    {pc : ChildPc} {table : Table} (hpc : pc ≠ .zombie) (htable : table = c.childTable s.i odd pc) :
    Progressed c odd { s with child := some { child with pc := pc, table := table } } :=
  ⟨_, rfl, .inl ⟨round.move _ _ _ _,
    hpc, h.in_fd, h.right_pipe, htable, h.input, h.output, h.room⟩⟩

theorem Working.read (round : Round c odd (s.i - 1) s) (h : Working c odd s child)
    {byte : Option UInt8} {u : State} (hread : s.read (some (inFile s.i)) = some (byte, u))
    (script : List Action) (hscript : written script = written child.script)
    (ht : t = { u with
      child := some { child with script := script, read := child.read ++ byte.toList } }) :
    SameParent s t ∧ Progressed c odd t := by
  subst ht
  obtain ⟨source, pipes, rfl, hpipes, hsupply, -⟩ := read_inFile round.pos hread
  have hpipe : pipes s.i = s.pipes s.i := hpipes s.i le_rfl
  refine ⟨⟨rfl, rfl, rfl, rfl⟩, _, rfl, .inl ⟨?_, ?_⟩⟩
  · exact ⟨round.pos, round.le, round.read_fd, round.created,
      fun p hp => (hpipes p (le_of_lt hp)).trans (round.fresh p hp), round.failed, round.log,
      round.fits⟩
  · refine ⟨h.alive, h.in_fd, h.right_pipe, h.table, ?_, fun hi => ?_, fun hi => ?_⟩
    · have hinput := h.input
      rw [hsupply, ← List.append_assoc] at hinput
      exact hinput
    · simpa only [hpipe, hscript] using h.output hi
    · simpa only [hpipe] using h.room hi

/-- The program ends when it has read and written everything. -/
theorem Working.exit (round : Round c odd (s.i - 1) s) (h : Working c odd s child)
    (hscript : child.script = []) (hsupply : s.supply (inFile s.i) = []) :
    Progressed c odd (s.exit child) := by
  have hpiped : Piped c s := by
    intro hi
    have houtput := h.output hi
    rwa [hscript, written, List.filterMap_nil, List.append_nil] at houtput
  have hread : child.read = c.inputOf s.i := by
    have hinput := h.input
    rwa [hsupply, List.append_nil] at hinput
  refine ⟨_, rfl, .inr ⟨?_, rfl, hpiped⟩⟩
  refine ⟨round.pos, round.le, round.read_fd, round.created, round.fresh, round.failed, ?_, ?_⟩
  · simp only [State.exit, round.log, hread]
    exact take_inputs_concat c round.pos round.le
  · apply round.fits.succ c round.pos
    intro hi _
    rw [← hpiped hi]
    exact h.room hi

theorem Working.write (round : Round c odd (s.i - 1) s) (h : Working c odd s child)
    (hreader : s.holds (.reader s.i) = true) (hrunning : child.pc = .running) {byte : UInt8}
    {script : List Action} (hscript : child.script = .write byte :: script)
    (hstep : s.write c.cap { child with script := script } byte = some t) :
    SameParent s t ∧ Progressed c odd t := by
  have htable : Table.get child.table 1 = some (c.outFile s.i) := by
    rw [h.table, hrunning]
    rfl
  by_cases hi : s.i = c.programs.length
  · have hfile : c.outFile s.i = .output := if_pos hi
    simp only [State.write, htable, hfile] at hstep
    cases hstep
    refine ⟨⟨rfl, rfl, rfl, rfl⟩, _, rfl, .inl ⟨?_, ?_⟩⟩
    · exact ⟨round.pos, round.le, round.read_fd, round.created, round.fresh, round.failed,
        round.log, round.fits⟩
    · exact ⟨h.alive, h.in_fd, h.right_pipe, h.table, h.input, fun h' => absurd hi h',
        fun h' => absurd hi h'⟩
  · have hfile : c.outFile s.i = .writer s.i := if_neg hi
    simp only [State.write, htable, hfile, hreader, ↓reduceIte] at hstep
    split_ifs at hstep with hroom
    cases hstep
    refine ⟨⟨rfl, rfl, rfl, rfl⟩, _, rfl, .inl ⟨?_, ?_⟩⟩
    · exact ⟨round.pos, round.le, round.read_fd, round.created,
        fun p hp => (Function.update_of_ne (ne_of_gt hp) _ _).trans (round.fresh p hp),
        round.failed, round.log, round.fits⟩
    · refine ⟨h.alive, h.in_fd, h.right_pipe, h.table, ?_, fun _ => ?_, fun _ => ?_⟩
      · have hinput := h.input
        have hpos := round.pos
        simp only [inFile] at hinput ⊢
        split_ifs at hinput ⊢
        · exact hinput
        · have hne : s.i - 1 ≠ s.i := by omega
          simpa [State.supply, Function.update_of_ne hne] using hinput
      · have houtput := h.output hi
        simpa [hscript, written, Action.byte] using houtput
      · simpa using Nat.succ_le_of_lt hroom

theorem Working.step (round : Round c odd (s.i - 1) s) (h : Working c odd s child)
    (hreader : s.holds (.reader s.i) = true) (hstep : childStep c.cap s child = some t) :
    SameParent s t ∧ Progressed c odd t := by
  obtain ⟨pc, in_fd, right_pipe, table, script, read⟩ := child
  have hin : in_fd = inFd odd := h.in_fd
  have hright : right_pipe = (outFd odd, (c.outSlot s.i).1) := h.right_pipe
  have htable : table = c.childTable s.i odd pc := h.table
  cases pc with
  | close =>
    cases hstep
    refine ⟨⟨rfl, rfl, rfl, rfl⟩, h.prepare round (by simp) ?_⟩
    rw [htable, hright]
    exact childTable_close c s.i odd
  | dupIn =>
    cases hstep
    refine ⟨⟨rfl, rfl, rfl, rfl⟩, h.prepare round (by simp) ?_⟩
    rw [htable, hin]
    exact childTable_dupIn c s.i odd
  | dupOut =>
    cases hstep
    refine ⟨⟨rfl, rfl, rfl, rfl⟩, h.prepare round (by simp) ?_⟩
    rw [htable, hright]
    exact childTable_dupOut c s.i odd
  | exec =>
    cases hstep
    exact ⟨⟨rfl, rfl, rfl, rfl⟩, h.prepare round (by simp) htable⟩
  | running =>
    have hfile : Table.get table 0 = some (inFile s.i) := by
      rw [htable]
      rfl
    simp only [childStep, hfile] at hstep
    cases script with
    | nil =>
      obtain ⟨⟨byte, u⟩, hread, rfl⟩ := Option.map_eq_some_iff.mp hstep
      cases byte with
      | some byte => exact h.read round hread [] rfl rfl
      | none =>
        obtain ⟨-, -, -, -, -, hend⟩ := read_inFile round.pos hread
        obtain ⟨rfl, hsupply⟩ := hend rfl
        exact ⟨⟨rfl, rfl, rfl, rfl⟩, h.exit round rfl hsupply⟩
    | cons action script =>
      cases action with
      | write byte => exact h.write round hreader rfl rfl hstep
      | read =>
        obtain ⟨⟨byte, u⟩, hread, rfl⟩ := Option.map_eq_some_iff.mp hstep
        exact h.read round hread script rfl rfl
  | zombie => exact absurd rfl h.alive

end Child

section Parent
variable {left out : Option File}

theorem inv_of_start (hstep : next c (initial c) l = some t) : Inv c t := by
  cases l with
  | forkFails => simp [next, initial] at hstep
  | child => cases hstep
  | parent =>
    cases hstep
    by_cases hn : c.programs.length = 0
    · have hinputs : c.inputs = [] := by
        apply List.eq_nil_of_length_eq_zero
        rw [inputs_length, hn]
      apply Inv.finished (.inl rfl) (by simp [State.pipe, initial, hn]) rfl rfl hinputs.symm
      intro j hj
      omega
    · have hpos : 0 < c.programs.length := Nat.pos_of_ne_zero hn
      refine .loop true ?_ ⟨rfl, (inputOf_one c hpos).symm, rfl⟩ (.inl rfl) rfl rfl
      exact ⟨Nat.one_pos, hpos, rfl, rfl, fun _ _ => rfl, rfl, rfl, fun j hj => by cases hj⟩

theorem inv_of_loop (round : Round c odd (s.i - 1) s) (untouched : Untouched c s)
    (hparent : s.parent = .loop ∨ s.parent = .closeLast ∧ s.i = c.programs.length)
    (htable : s.table = slots odd (some (inFile s.i)) (some (.reader s.i)) (some (.writer s.i)))
    (hright : s.right_pipe = (outFd odd, 4)) (hstep : next c s l = some t) : Inv c t := by
  have hle := round.le
  cases l with
  | forkFails => rcases hparent with hparent | ⟨hparent, -⟩ <;> simp [next, hparent] at hstep
  | child => simp [next, untouched.child] at hstep
  | parent =>
    rcases hparent with hparent | ⟨hparent, hi⟩
    · simp only [next, parentStep, hparent] at hstep
      cases hstep
      rw [if_pos (show s.i < c.argc by simp only [Config.argc]; omega)]
      by_cases hi : s.i = c.programs.length
      · rw [if_pos (show s.i = c.argc - 1 from hi)]
        exact .loop odd (round.move _ _ _ _) ⟨untouched.child, untouched.supply, untouched.pipe⟩
          (.inr ⟨rfl, hi⟩) htable hright
      · rw [if_neg (show ¬ s.i = c.argc - 1 from hi)]
        have hslot : c.outSlot s.i = (4, some (.writer s.i)) := if_neg hi
        exact .fork odd (round.move _ _ _ _) ⟨untouched.child, untouched.supply, untouched.pipe⟩
          rfl (by rw [hslot]; exact htable) (by rw [hslot]; exact hright)
    · simp only [next, parentStep, hparent] at hstep
      cases hstep
      have hslot : c.outSlot s.i = (1, none) := if_pos hi
      refine .fork odd (round.move _ _ _ _) ⟨untouched.child, untouched.supply, untouched.pipe⟩
        rfl ?_ (by simp only [hslot, hright])
      simp only [hslot, htable, hright]
      exact slots_close_out odd _ _ _

theorem inv_of_fork (round : Round c odd (s.i - 1) s) (untouched : Untouched c s)
    (hparent : s.parent = .fork)
    (htable : s.table = slots odd (some (inFile s.i)) (some (.reader s.i)) (c.outSlot s.i).2)
    (hright : s.right_pipe = (outFd odd, (c.outSlot s.i).1)) (hstep : next c s l = some t) :
    Inv c t := by
  cases l with
  | child => simp [next, untouched.child] at hstep
  | forkFails =>
    simp only [next, hparent, ↓reduceIte] at hstep
    cases hstep
    have hlog : s.log <+: c.inputs := by
      rw [round.log]
      exact List.take_prefix _ _
    exact .failed rfl untouched.child rfl hlog
  | parent =>
    simp only [next, parentStep, hparent] at hstep
    cases hstep
    refine .working odd (round.move _ _ _ _) _ _ (.inl ⟨rfl, rfl⟩) htable hright rfl ?_
    refine ⟨by simp, round.read_fd, hright, htable, untouched.supply, fun _ => ?_, fun _ => ?_⟩
    · simp [untouched.pipe]
    · simp [untouched.pipe]

theorem inv_of_working (round : Round c odd (s.i - 1) s)
    (hparent : s.parent = .closeIn ∧ left = some (inFile s.i) ∨ s.parent = .waitpid ∧ left = none)
    (htable : s.table = slots odd left (some (.reader s.i)) (c.outSlot s.i).2)
    (hright : s.right_pipe = (outFd odd, (c.outSlot s.i).1)) (hchild : s.child = some child)
    (hworking : Working c odd s child) (hstep : next c s l = some t) : Inv c t := by
  cases l with
  | forkFails => rcases hparent with ⟨hparent, -⟩ | ⟨hparent, -⟩ <;> simp [next, hparent] at hstep
  | child =>
    simp only [next, hchild, Option.bind_some] at hstep
    obtain ⟨hsame, child', hchild', hcases⟩ :=
      hworking.step round (holds_reader s.i odd htable) hstep
    obtain ⟨hparent', hi, htable', hright'⟩ := hsame
    rw [← hparent', ← hi] at hparent
    rw [← htable', ← hi] at htable
    rw [← hright', ← hi] at hright
    rcases hcases with ⟨hround, hwork⟩ | ⟨hround, hzombie, hpiped⟩
    · exact .working odd hround left child' hparent htable hright hchild' hwork
    · exact .ended odd hround left child' hparent htable hright hchild' hzombie hpiped
  | parent =>
    rcases hparent with ⟨hparent, rfl⟩ | ⟨hparent, rfl⟩
    · simp only [next, parentStep, hparent] at hstep
      cases hstep
      refine .working odd (round.move _ _ _ _) none child (.inr ⟨rfl, rfl⟩) ?_ hright hchild ?_
      · simp only [htable, round.read_fd]
        exact slots_close_in odd _ _ _
      · exact ⟨hworking.alive, hworking.in_fd, hworking.right_pipe, hworking.table, hworking.input,
          hworking.output, hworking.room⟩
    · simp [next, parentStep, hparent, hchild, hworking.alive] at hstep

theorem inv_of_ended (round : Round c odd s.i s)
    (hparent : s.parent = .closeIn ∧ left = some (inFile s.i) ∨ s.parent = .waitpid ∧ left = none)
    (htable : s.table = slots odd left (some (.reader s.i)) (c.outSlot s.i).2)
    (hright : s.right_pipe = (outFd odd, (c.outSlot s.i).1)) (hchild : s.child = some child)
    (hzombie : child.pc = .zombie) (hpiped : Piped c s) (hstep : next c s l = some t) :
    Inv c t := by
  cases l with
  | forkFails => rcases hparent with ⟨hparent, -⟩ | ⟨hparent, -⟩ <;> simp [next, hparent] at hstep
  | child => simp [next, hchild, childStep, hzombie] at hstep
  | parent =>
    rcases hparent with ⟨hparent, rfl⟩ | ⟨hparent, rfl⟩
    · simp only [next, parentStep, hparent] at hstep
      cases hstep
      refine .ended odd (round.move _ _ _ _) none child (.inr ⟨rfl, rfl⟩) ?_ hright hchild hzombie
        hpiped
      simp only [htable, round.read_fd]
      exact slots_close_in odd _ _ _
    · simp only [next, parentStep, hparent, hchild, hzombie, ↓reduceIte] at hstep
      cases hstep
      exact .closing odd (round.move _ _ _ _) _ (.inl ⟨rfl, rfl⟩) (fun _ => htable) hright rfl
        hpiped

/-- The next round, in which the program reads what the last one has written. -/
theorem inv_of_next (round : Round c odd s.i s) (hi : s.i ≠ c.programs.length)
    (htable : s.table = slots odd none (some (.reader s.i)) none)
    (hright : s.right_pipe = (outFd odd, (c.outSlot s.i).1)) (hchild : s.child = none)
    (hpiped : Piped c s) :
    Inv c { s.pipe with read_fd := s.right_pipe.1, i := s.i + 1, parent := .loop } := by
  have hpos := round.pos
  have hle := round.le
  obtain ⟨htable', hright'⟩ := slots_pipe odd htable round.created
  have hfile : inFile (s.i + 1) = .reader s.i := if_neg (by omega)
  refine .loop (!odd) ?_ ⟨hchild, ?_, round.fresh _ (Nat.lt_succ_self _)⟩ (.inl rfl) ?_ hright'
  · refine ⟨Nat.succ_pos _, by simp only; omega, ?_, congrArg (· + 1) round.created,
      fun p hp => round.fresh p (by simp only at hp; omega), round.failed, round.log, round.fits⟩
    simp only [hright]
    cases odd <;> rfl
  · simp only [hfile, State.supply, inputOf_succ c hpos (show s.i < c.programs.length by omega)]
    exact hpiped hi
  · simp only [hfile]
    exact htable'

theorem inv_of_closing (round : Round c odd s.i s)
    (hparent : s.parent = .closeOut ∧ out = (c.outSlot s.i).2 ∨ s.parent = .next ∧ out = none)
    (htable : s.i ≠ c.programs.length → s.table = slots odd none (some (.reader s.i)) out)
    (hright : s.right_pipe = (outFd odd, (c.outSlot s.i).1)) (hchild : s.child = none)
    (hpiped : Piped c s) (hstep : next c s l = some t) : Inv c t := by
  cases l with
  | forkFails => rcases hparent with ⟨hparent, -⟩ | ⟨hparent, -⟩ <;> simp [next, hparent] at hstep
  | child => simp [next, hchild] at hstep
  | parent =>
    rcases hparent with ⟨hparent, rfl⟩ | ⟨hparent, rfl⟩
    · simp only [next, parentStep, hparent] at hstep
      cases hstep
      refine .closing odd (round.move _ _ _ _) none (.inr ⟨rfl, rfl⟩) (fun hi => ?_) hright hchild
        hpiped
      have hslot : c.outSlot s.i = (4, some (.writer s.i)) := if_neg hi
      simp only [htable hi, hright, hslot]
      exact slots_close_out odd _ _ _
    · simp only [next, parentStep, hparent] at hstep
      cases hstep
      by_cases hi : s.i = c.programs.length
      · have hlog : s.log = c.inputs := by
          rw [round.log, hi, ← inputs_length, List.take_length]
        exact .finished (.inl rfl) (congrArg (· + 1) hi) hchild round.failed hlog (hi ▸ round.fits)
      · exact inv_of_next round hi (htable hi) hright hchild hpiped

theorem Inv.step (h : Inv c s) (hstep : next c s l = some t) : Inv c t := by
  cases h with
  | start h => exact inv_of_start (h ▸ hstep)
  | loop odd round untouched hparent htable hright =>
    exact inv_of_loop round untouched hparent htable hright hstep
  | fork odd round untouched hparent htable hright =>
    exact inv_of_fork round untouched hparent htable hright hstep
  | working odd round left child hparent htable hright hchild hworking =>
    exact inv_of_working round hparent htable hright hchild hworking hstep
  | ended odd round left child hparent htable hright hchild hzombie hpiped =>
    exact inv_of_ended round hparent htable hright hchild hzombie hpiped hstep
  | closing odd round out hparent htable hright hchild hpiped =>
    exact inv_of_closing round hparent htable hright hchild hpiped hstep
  | finished hparent hi hchild hfailed hlog hfits =>
    cases l with
    | forkFails => rcases hparent with hparent | hparent <;> simp [next, hparent] at hstep
    | child => simp [next, hchild] at hstep
    | parent =>
      rcases hparent with hparent | hparent
      · simp only [next, parentStep, hparent] at hstep
        cases hstep
        have hlt : ¬ s.i < c.argc := by
          simp only [Config.argc]
          omega
        exact .finished (.inr (if_neg hlt)) hi hchild hfailed hlog hfits
      · simp [next, parentStep, hparent] at hstep
  | failed hparent hchild hfailed hlog =>
    cases l with
    | child => simp [next, hchild] at hstep
    | parent | forkFails => simp [next, parentStep, hparent] at hstep

end Parent

end Acos.Pipeline
