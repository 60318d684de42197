import Acos.Pipeline.Steps
import Mathlib.Data.Prod.Lex

/-! The chain runs to its end if and only if the pipe holds whatever is written into it. -/
namespace Acos.Pipeline
open Acos.CString Acos.Transition

def ParentPc.rank : ParentPc → ℕ
  | .pipe => 8
  | .loop => 7
  | .closeLast => 6
  | .fork => 5
  | .closeIn => 4
  | .waitpid => 3
  | .closeOut => 2
  | .next => 1
  | .returned => 0

def ChildPc.rank : ChildPc → ℕ
  | .close => 5
  | .dupIn => 4
  | .dupOut => 3
  | .exec => 2
  | .running => 1
  | .zombie => 0

/-- The number of bytes that can be read from a descriptor. -/
def State.toRead (s : State) : Option File → ℕ
  | some file => (s.supply file).length
  | none => 0

/-- A byte that a program writes into its own input counts as one that it can read. -/
def State.cost (s : State) (child : Child) : ℕ :=
  2 * child.script.length + s.toRead (child.table.get 0)

/-- The rounds that are left, the way of the parent through its round, and the one of the child. -/
def rank (c : Config) (s : State) : ℕ ×ₗ ℕ ×ₗ ℕ ×ₗ ℕ :=
  toLex (c.programs.length + 1 - s.i, toLex (s.parent.rank,
    toLex ((s.child.map fun child => child.pc.rank).getD 0, (s.child.map s.cost).getD 0)))

section Rank
variable {c : Config} {s t u : State} {child : Child} {l : Label}

theorem rank_lt_of_round (hle : s.i ≤ c.programs.length) (hi : t.i = s.i + 1) :
    rank c t < rank c s := by
  apply Prod.Lex.toLex_lt_toLex.mpr
  left
  simp only
  omega

theorem rank_lt_of_parent (hi : t.i = s.i) (hparent : t.parent.rank < s.parent.rank) :
    rank c t < rank c s := by
  simp only [rank, hi, Prod.Lex.toLex_lt_toLex, lt_self_iff_false, true_and, false_or]
  exact .inl hparent

/-- A step of the child comes closer to its end where it goes on to another place or the cost
gets less. -/
theorem rank_lt_of_child {child' : Child} (hi : t.i = s.i) (hparent : t.parent = s.parent)
    (hchild : s.child = some child) (hchild' : t.child = some child')
    (h : child'.pc.rank < child.pc.rank ∨
      child'.pc = child.pc ∧ t.cost child' < s.cost child) : rank c t < rank c s := by
  simp only [rank, hi, hparent, hchild, hchild', Option.map_some, Option.getD_some,
    Prod.Lex.toLex_lt_toLex, lt_self_iff_false, true_and, false_or]
  exact h.imp id fun h => ⟨congrArg ChildPc.rank h.1, h.2⟩

/-- A step that comes closer to the end and in which no `fork` fails. -/
structure Closer (c : Config) (s t : State) : Prop where
  rank : rank c t < rank c s
  failed : t.failed = s.failed

theorem parentStep_closer (hle : s.parent = .next → s.i ≤ c.programs.length)
    (hstep : parentStep c s = some t) : Closer c s t := by
  cases hparent : s.parent with
  | next =>
    simp only [parentStep, hparent] at hstep
    cases hstep
    exact ⟨rank_lt_of_round (hle hparent) rfl, rfl⟩
  | loop =>
    simp only [parentStep, hparent] at hstep
    cases hstep
    refine ⟨rank_lt_of_parent (s := s) rfl ?_, rfl⟩
    simp only [hparent]
    split_ifs <;> decide
  | waitpid =>
    simp only [parentStep, hparent] at hstep
    cases hchild : s.child with
    | none =>
      simp only [hchild] at hstep
      cases hstep
      exact ⟨rank_lt_of_parent rfl (by simp [hparent, ParentPc.rank]), rfl⟩
    | some child =>
      simp only [hchild] at hstep
      split_ifs at hstep
      cases hstep
      exact ⟨rank_lt_of_parent rfl (by simp [hparent, ParentPc.rank]), rfl⟩
  | returned => simp [parentStep, hparent] at hstep
  | pipe | closeLast | fork | closeIn | closeOut =>
    simp only [parentStep, hparent] at hstep
    cases hstep
    exact ⟨rank_lt_of_parent rfl (by simp [hparent, ParentPc.rank]), rfl⟩

theorem read_toRead {file : Option File} {byte : Option UInt8}
    (h : s.read file = some (byte, u)) :
    u.toRead file + byte.toList.length = s.toRead file ∧ u.parent = s.parent ∧ u.i = s.i ∧
      u.failed = s.failed ∧ (byte = none → u = s) := by
  unfold State.read at h
  split at h
  · cases hsource : s.source with
    | nil =>
      rw [hsource] at h
      cases h
      exact ⟨rfl, rfl, rfl, rfl, fun _ => rfl⟩
    | cons b rest =>
      rw [hsource] at h
      cases h
      exact ⟨by simp [State.toRead, State.supply, hsource], rfl, rfl, rfl, by simp⟩
  · rename_i p
    cases hpipe : s.pipes p with
    | nil =>
      rw [hpipe] at h
      split_ifs at h
      cases h
      exact ⟨rfl, rfl, rfl, rfl, fun _ => rfl⟩
    | cons b rest =>
      rw [hpipe] at h
      cases h
      exact ⟨by simp [State.toRead, State.supply, hpipe], rfl, rfl, rfl, by simp⟩
  · cases h
    exact ⟨rfl, rfl, rfl, rfl, fun _ => rfl⟩

theorem exit_closer (hchild : s.child = some child) (hpc : child.pc = .running)
    {script : List Action} : Closer c s (s.exit { child with script := script }) := by
  refine ⟨rank_lt_of_child rfl rfl hchild rfl (.inl ?_), rfl⟩
  rw [hpc]
  exact Nat.one_pos

theorem read_closer (hchild : s.child = some child) {byte : Option UInt8}
    (hread : s.read (child.table.get 0) = some (byte, u)) {script : List Action}
    (h : 2 * script.length < 2 * child.script.length + byte.toList.length) :
    Closer c s { u with
      child := some { child with script := script, read := child.read ++ byte.toList } } := by
  obtain ⟨hcount, hparent, hi, hfailed, -⟩ := read_toRead hread
  refine ⟨rank_lt_of_child hi hparent hchild rfl (.inr ⟨rfl, ?_⟩), hfailed⟩
  show 2 * script.length + u.toRead (child.table.get 0) <
    2 * child.script.length + s.toRead (child.table.get 0)
  omega

/-- A byte more in a pipe is at most a byte more to be read. -/
theorem toRead_append_le (p : ℕ) (byte : UInt8) (child : Option Child) (file : Option File) :
    State.toRead
      { s with pipes := Function.update s.pipes p (s.pipes p ++ [byte]), child := child } file ≤
      s.toRead file + 1 := by
  cases file with
  | none => exact Nat.zero_le _
  | some file =>
    cases file with
    | reader q =>
      by_cases hq : q = p
      · subst hq
        simp [State.toRead, State.supply]
      · simp [State.toRead, State.supply, Function.update_of_ne hq]
    | input | output | errors | writer => exact Nat.le_succ _

/-- An action less to do outweighs a byte more to read. -/
theorem action_closer (hchild : s.child = some child) {byte : UInt8} {script : List Action}
    (hscript : child.script = .write byte :: script)
    (hchild' : t.child = some { child with script := script }) (hi : t.i = s.i)
    (hparent : t.parent = s.parent) (hfailed : t.failed = s.failed)
    (hread : t.toRead (child.table.get 0) ≤ s.toRead (child.table.get 0) + 1) :
    Closer c s t := by
  refine ⟨rank_lt_of_child hi hparent hchild hchild' (.inr ⟨rfl, ?_⟩), hfailed⟩
  show 2 * script.length + t.toRead (child.table.get 0) <
    2 * child.script.length + s.toRead (child.table.get 0)
  rw [hscript, List.length_cons]
  omega

theorem write_closer {cap : ℕ} (hchild : s.child = some child) (hpc : child.pc = .running)
    {byte : UInt8} {script : List Action} (hscript : child.script = .write byte :: script)
    (hstep : s.write cap { child with script := script } byte = some t) : Closer c s t := by
  unfold State.write at hstep
  split at hstep
  · cases hstep
    exact action_closer hchild hscript rfl rfl rfl rfl (Nat.le_succ _)
  · rename_i p _
    split_ifs at hstep
    · cases hstep
      exact action_closer hchild hscript rfl rfl rfl rfl (toRead_append_le p byte _ _)
    · cases hstep
      exact exit_closer hchild hpc
  · cases hstep
    exact action_closer hchild hscript rfl rfl rfl rfl (Nat.le_succ _)

theorem childStep_closer {cap : ℕ} (hchild : s.child = some child)
    (hstep : childStep cap s child = some t) : Closer c s t := by
  obtain ⟨pc, in_fd, right_pipe, table, script, read⟩ := child
  cases pc with
  | close | dupIn | dupOut | exec =>
    cases hstep
    exact ⟨rank_lt_of_child rfl rfl hchild rfl (.inl (by simp [ChildPc.rank])), rfl⟩
  | zombie => cases hstep
  | running =>
    cases script with
    | nil =>
      obtain ⟨⟨byte, u⟩, hread, rfl⟩ := Option.map_eq_some_iff.mp hstep
      cases byte with
      | some byte =>
        have hcount : 2 * ([] : List Action).length < 2 * ([] : List Action).length + 1 := by simp
        exact read_closer hchild hread hcount
      | none =>
        obtain ⟨-, -, -, -, hend⟩ := read_toRead hread
        obtain rfl := hend rfl
        exact exit_closer hchild rfl
    | cons action script =>
      cases action with
      | write byte => exact write_closer hchild rfl rfl hstep
      | read =>
        obtain ⟨⟨byte, u⟩, hread, rfl⟩ := Option.map_eq_some_iff.mp hstep
        apply read_closer hchild hread
        simp only [List.length_cons]
        omega

end Rank

section Progress
variable {c : Config} {odd : Bool} {s t : State} {child : Child} {l : Label} {left : Option File}

theorem fits_iff : c.Fits c.programs.length ↔
    ∀ program ∈ c.programs.dropLast, (written program).length ≤ c.cap := by
  constructor
  · intro h program hprogram
    obtain ⟨j, hj, rfl⟩ := List.mem_iff_getElem.mp hprogram
    rw [List.length_dropLast] at hj
    have hfits := h j (by omega) (by omega)
    have hj' : j < c.programs.length := by omega
    simpa [Config.argv, List.getElem_dropLast, List.getElem?_eq_getElem hj'] using hfits
  · intro h j hj hlast
    have hmem : c.programs[j] ∈ c.programs.dropLast := by
      apply List.mem_iff_getElem.mpr
      exact ⟨j, by rw [List.length_dropLast]; omega, by rw [List.getElem_dropLast]⟩
    simpa [Config.argv, List.getElem?_eq_getElem hj] using h _ hmem

theorem Inv.next_le (h : Inv c s) (hnext : s.parent = .next) : s.i ≤ c.programs.length := by
  cases h with
  | start h => simp [h, initial] at hnext
  | loop _ round | fork _ round | working _ round | ended _ round | closing _ round =>
    exact round.le
  | finished hparent => rcases hparent with hparent | hparent <;> simp [hnext] at hparent
  | failed hparent => simp [hnext] at hparent

theorem Inv.closer (h : Inv c s) (hl : l ≠ .forkFails) (hstep : next c s l = some t) :
    Closer c s t := by
  cases l with
  | forkFails => exact absurd rfl hl
  | parent => exact parentStep_closer h.next_le hstep
  | child =>
    obtain ⟨child, hchild, hstep⟩ := Option.bind_eq_some_iff.mp hstep
    exact childStep_closer hchild hstep

/-- The parent goes on everywhere except where it waits for the child. -/
theorem parentStep_isSome (hwait : s.parent ≠ .waitpid) (hreturned : s.parent ≠ .returned) :
    ∃ t, parentStep c s = some t := by
  cases hparent : s.parent with
  | waitpid => exact absurd hparent hwait
  | returned => exact absurd hparent hreturned
  | _ =>
    simp only [parentStep, hparent]
    exact ⟨_, rfl⟩

/-- A program whose output fits the pipe is never blocked. -/
theorem Working.progress (round : Round c odd (s.i - 1) s) (h : Working c odd s child)
    (hleft : left = some (inFile s.i) ∨ left = none)
    (htable : s.table = slots odd left (some (.reader s.i)) (c.outSlot s.i).2)
    (hchild : s.child = some child)
    (hfits : s.i ≠ c.programs.length → (written (c.argv s.i)).length ≤ c.cap) :
    ∃ t, childStep c.cap s child = some t := by
  obtain ⟨pc, in_fd, right_pipe, table, script, read⟩ := child
  have hchildTable : table = c.childTable s.i odd pc := h.table
  cases pc with
  | close | dupIn | dupOut | exec => exact ⟨_, rfl⟩
  | zombie => exact absurd rfl h.alive
  | running =>
    have hin : Table.get table 0 = some (inFile s.i) := by
      rw [hchildTable]
      rfl
    have hout : Table.get table 1 = some (c.outFile s.i) := by
      rw [hchildTable]
      rfl
    have hread : ∃ r, s.read (some (inFile s.i)) = some r := by
      apply read_isSome
      intro p hp
      exact not_holds_writer c s.i odd round.pos hleft htable hchild hchildTable hp
    obtain ⟨r, hr⟩ := hread
    cases script with
    | nil =>
      simp only [childStep, hin, hr]
      exact ⟨_, rfl⟩
    | cons action script =>
      cases action with
      | read =>
        simp only [childStep, hin, hr]
        exact ⟨_, rfl⟩
      | write byte =>
        simp only [childStep, State.write, hout]
        by_cases hi : s.i = c.programs.length
        · have hfile : c.outFile s.i = .output := if_pos hi
          simp only [hfile]
          exact ⟨_, rfl⟩
        · have hfile : c.outFile s.i = .writer s.i := if_neg hi
          have hroom : (s.pipes s.i).length < c.cap := by
            have houtput := congrArg List.length (h.output hi)
            have hle := hfits hi
            simp only [written, Action.byte, List.filterMap_cons, List.length_append,
              List.length_cons] at houtput hle
            omega
          simp only [hfile, holds_reader s.i odd htable, hroom, ↓reduceIte]
          exact ⟨_, rfl⟩

/-- Where the parent waits there is a child, at work or ended. -/
theorem Inv.progress_waitpid (h : Inv c s) (hfits : c.Fits c.programs.length)
    (hwait : s.parent = .waitpid) : ∃ l t, next c s l = some t := by
  cases h with
  | start h => simp [h, initial] at hwait
  | fork _ _ _ hparent | failed hparent => simp [hwait] at hparent
  | loop _ _ _ hparent => simp [hwait] at hparent
  | closing _ _ _ hparent => simp [hwait] at hparent
  | finished hparent => simp [hwait] at hparent
  | ended odd round left child hparent htable hright hchild hzombie =>
    refine ⟨.parent, ?_⟩
    simp only [next, parentStep, hwait, hchild, hzombie]
    exact ⟨_, rfl⟩
  | working odd round left child hparent htable hright hchild hworking =>
    have hleft := hparent.imp And.right And.right
    have hout : s.i ≠ c.programs.length → (written (c.argv s.i)).length ≤ c.cap := by
      intro hi
      have hpos := round.pos
      have hle := round.le
      obtain ⟨j, hj⟩ : ∃ j, s.i = j + 1 := ⟨s.i - 1, by omega⟩
      rw [hj]
      exact hfits j (by omega) (by omega)
    obtain ⟨t, ht⟩ := hworking.progress round hleft htable hchild hout
    refine ⟨.child, t, ?_⟩
    simp only [next, hchild, Option.bind_some, ht]

theorem Inv.progress (h : Inv c s) (hfits : c.Fits c.programs.length)
    (hreturned : s.parent ≠ .returned) : ∃ l t, next c s l = some t := by
  by_cases hwait : s.parent = .waitpid
  · exact h.progress_waitpid hfits hwait
  · obtain ⟨t, ht⟩ := @parentStep_isSome c s hwait hreturned
    exact ⟨.parent, t, ht⟩

/-- At the return every program has ended, or a `fork` has failed. -/
theorem Inv.returned (h : Inv c s) (hreturned : s.parent = .returned) :
    s.failed = false ∧ s.log = c.inputs ∧ c.Fits c.programs.length ∨
      s.failed = true ∧ s.log <+: c.inputs := by
  cases h with
  | start h => simp [h, initial] at hreturned
  | fork _ _ _ hparent => simp [hreturned] at hparent
  | loop _ _ _ hparent => simp [hreturned] at hparent
  | closing _ _ _ hparent => simp [hreturned] at hparent
  | working _ _ _ _ hparent => simp [hreturned] at hparent
  | ended _ _ _ _ hparent => simp [hreturned] at hparent
  | finished hparent hi hchild hfailed hlog hfits => exact .inl ⟨hfailed, hlog, hfits⟩
  | failed hparent hchild hfailed hlog => exact .inr ⟨hfailed, hlog⟩

theorem Inv.complete (h : Inv c s) (hreturned : s.parent = .returned) : Complete c s := by
  rcases h.returned hreturned with ⟨-, hlog, -⟩ | ⟨hfailed, hlog⟩
  · exact ⟨hlog ▸ List.prefix_rfl, fun _ => hlog⟩
  · exact ⟨hlog, fun h => by simp [hfailed] at h⟩

theorem inv_of_reachable (h : Reachable (next c) (initial c) s) : Inv c s :=
  h.invariant (fun _ _ _ h hstep => h.step hstep) (.start rfl)

/-- Some run in which no `fork` fails comes to the return or to a deadlock. -/
theorem exists_end (c : Config) : ∃ s, Reachable (next c) (initial c) s ∧ s.failed = false ∧
    (s.parent = .returned ∨ Deadlock c s) := by
  have hrun : ∃ ls s, run (next c) (initial c) ls = some s ∧ s.failed = false ∧
      (s.parent = .returned ∨ Deadlock c s) := by
    apply exists_run_of_measure (I := fun s => Inv c s ∧ s.failed = false) (rank c) _
      ⟨.start rfl, rfl⟩
    rintro s ⟨hs, hfailed⟩ hend
    have hreturned : s.parent ≠ .returned := fun h => hend ⟨hfailed, .inl h⟩
    have hstep : ∃ l t, l ≠ .forkFails ∧ next c s l = some t := by
      by_cases hwait : s.parent = .waitpid
      · have hlive : ¬ ∀ l, next c s l = none := fun h => hend ⟨hfailed, .inr ⟨hreturned, h⟩⟩
        obtain ⟨l, hl⟩ := not_forall.mp hlive
        obtain ⟨t, ht⟩ := Option.ne_none_iff_exists'.mp hl
        refine ⟨l, t, ?_, ht⟩
        rintro rfl
        simp [next, hwait] at ht
      · obtain ⟨t, ht⟩ := @parentStep_isSome c s hwait hreturned
        exact ⟨.parent, t, by simp, ht⟩
    obtain ⟨l, t, hl, ht⟩ := hstep
    obtain ⟨hrank, hfailed'⟩ := hs.closer hl ht
    exact ⟨l, t, ht, ⟨hs.step ht, hfailed'.trans hfailed⟩, hrank⟩
  obtain ⟨ls, s, hs, hend⟩ := hrun
  exact ⟨s, ⟨ls, hs⟩, hend⟩

end Progress

/-- No run comes to a deadlock, and at the return every program has read what the one before it has
written, if and only if whatever is written into a pipe fits it. -/
theorem chain_completes_iff (c : Config) :
    (∀ s, Reachable (next c) (initial c) s →
      ¬ Deadlock c s ∧ (s.parent = .returned → Complete c s)) ↔
      ∀ program ∈ c.programs.dropLast, (written program).length ≤ c.cap := by
  rw [← fits_iff]
  constructor
  · intro h
    obtain ⟨s, hs, hfailed, hend⟩ := exists_end c
    rcases hend with hreturned | hdeadlock
    · rcases (inv_of_reachable hs).returned hreturned with ⟨-, -, hfits⟩ | ⟨hfailed', -⟩
      · exact hfits
      · simp [hfailed] at hfailed'
    · exact absurd hdeadlock (h s hs).1
  · intro hfits s hs
    have hinv := inv_of_reachable hs
    refine ⟨?_, hinv.complete⟩
    rintro ⟨hreturned, hstuck⟩
    obtain ⟨l, t, ht⟩ := hinv.progress hfits hreturned
    rw [hstuck l] at ht
    cases ht

/-- Two bytes for a pipe of one: the second program is never launched. -/
def tooLong : Config where
  cap := 1
  input := []
  programs := [[.write 0, .write 0], []]

theorem chain_deadlocks : ∃ s, Reachable (next tooLong) (initial tooLong) s ∧
    Deadlock tooLong s := by
  refine ⟨_, ⟨List.replicate 4 .parent ++ List.replicate 5 .child, rfl⟩, by simp, ?_⟩
  intro l
  cases l with
  | parent | forkFails | child => rfl

end Acos.Pipeline
