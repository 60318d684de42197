import Acos.Pipeline.Model
import Acos.Lib.Transition

/-! Where the descriptors and the bytes are in every round of the loop. -/
namespace Acos.Pipeline
open Acos.CString Acos.Transition

/-- What program `i` reads from: its descriptor is numbered `0` and `3` in turn. -/
def inFile (i : ℕ) : File := if i = 1 then .input else .reader (i - 1)

def inFd (odd : Bool) : ℕ := if odd then 0 else 3

def outFd (odd : Bool) : ℕ := if odd then 3 else 0

/-- The parent's descriptors, with the ends that the program reads from, that the next one will
read from and that the program writes to. -/
def slots (odd : Bool) (left right out : Option File) : Table :=
  if odd then [left, some .output, some .errors, right, out]
  else [right, some .output, some .errors, left, out]

/-- The descriptor and the slot of `right_pipe[1]` at the `fork`. -/
def Config.outSlot (c : Config) (i : ℕ) : ℕ × Option File :=
  if i = c.programs.length then (1, none) else (4, some (.writer i))

def Config.outFile (c : Config) (i : ℕ) : File :=
  if i = c.programs.length then .output else .writer i

/-- The child's descriptors on its way to the program. -/
def Config.childTable (c : Config) (i : ℕ) (odd : Bool) : ChildPc → Table
  | .close => slots odd (some (inFile i)) (some (.reader i)) (c.outSlot i).2
  | .dupIn => slots odd (some (inFile i)) none (c.outSlot i).2
  | .dupOut =>
    [some (inFile i), some .output, some .errors, if odd then none else some (inFile i),
      (c.outSlot i).2]
  | .exec | .running =>
    [some (inFile i), some (c.outFile i), some .errors, if odd then none else some (inFile i),
      (c.outSlot i).2]
  | .zombie => []

/-- What is left to be read from an open file. -/
def State.supply (s : State) : File → Bytes
  | .input => s.source
  | .reader p => s.pipes p
  | _ => []

def Config.inputOf (c : Config) (i : ℕ) : Bytes := c.inputs.getD (i - 1) []

/-- What the first `k` programs write goes into a pipe, except for the last of all. -/
def Config.Fits (c : Config) (k : ℕ) : Prop :=
  ∀ j < k, j + 1 < c.programs.length → (written (c.argv (j + 1))).length ≤ c.cap

/-- What holds in round `i` of the loop when `k` programs have ended. -/
structure Round (c : Config) (odd : Bool) (k : ℕ) (s : State) : Prop where
  pos : 0 < s.i
  le : s.i ≤ c.programs.length
  read_fd : s.read_fd = inFd odd
  created : s.created = s.i
  fresh : ∀ p, s.i < p → s.pipes p = []
  failed : s.failed = false
  log : s.log = c.inputs.take k
  fits : c.Fits k

/-- Nothing of the round's input has been read and nothing has been written. -/
structure Untouched (c : Config) (s : State) : Prop where
  child : s.child = none
  supply : s.supply (inFile s.i) = c.inputOf s.i
  pipe : s.pipes s.i = []

/-- What the child has read and is going to read is its input, and what is in its pipe and is still
to be written is its output. -/
structure Working (c : Config) (odd : Bool) (s : State) (child : Child) : Prop where
  alive : child.pc ≠ .zombie
  in_fd : child.in_fd = inFd odd
  right_pipe : child.right_pipe = (outFd odd, (c.outSlot s.i).1)
  table : child.table = c.childTable s.i odd child.pc
  input : child.read ++ s.supply (inFile s.i) = c.inputOf s.i
  output : s.i ≠ c.programs.length → s.pipes s.i ++ written child.script = written (c.argv s.i)
  room : s.i ≠ c.programs.length → (s.pipes s.i).length ≤ c.cap

/-- The program's pipe holds all of its output. -/
def Piped (c : Config) (s : State) : Prop :=
  s.i ≠ c.programs.length → s.pipes s.i = written (c.argv s.i)

/-- The phases of a run. -/
inductive Inv (c : Config) (s : State) : Prop
  | start (h : s = initial c)
  | loop (odd : Bool) (round : Round c odd (s.i - 1) s) (untouched : Untouched c s)
      (hparent : s.parent = .loop ∨ s.parent = .closeLast ∧ s.i = c.programs.length)
      (htable : s.table =
        slots odd (some (inFile s.i)) (some (.reader s.i)) (some (.writer s.i)))
      (hright : s.right_pipe = (outFd odd, 4))
  | fork (odd : Bool) (round : Round c odd (s.i - 1) s) (untouched : Untouched c s)
      (hparent : s.parent = .fork)
      (htable : s.table =
        slots odd (some (inFile s.i)) (some (.reader s.i)) (c.outSlot s.i).2)
      (hright : s.right_pipe = (outFd odd, (c.outSlot s.i).1))
  | working (odd : Bool) (round : Round c odd (s.i - 1) s) (left : Option File) (child : Child)
      (hparent : s.parent = .closeIn ∧ left = some (inFile s.i) ∨
        s.parent = .waitpid ∧ left = none)
      (htable : s.table = slots odd left (some (.reader s.i)) (c.outSlot s.i).2)
      (hright : s.right_pipe = (outFd odd, (c.outSlot s.i).1))
      (hchild : s.child = some child) (hworking : Working c odd s child)
  | ended (odd : Bool) (round : Round c odd s.i s) (left : Option File) (child : Child)
      (hparent : s.parent = .closeIn ∧ left = some (inFile s.i) ∨
        s.parent = .waitpid ∧ left = none)
      (htable : s.table = slots odd left (some (.reader s.i)) (c.outSlot s.i).2)
      (hright : s.right_pipe = (outFd odd, (c.outSlot s.i).1))
      (hchild : s.child = some child) (hzombie : child.pc = .zombie) (hpiped : Piped c s)
  | closing (odd : Bool) (round : Round c odd s.i s) (out : Option File)
      (hparent : s.parent = .closeOut ∧ out = (c.outSlot s.i).2 ∨ s.parent = .next ∧ out = none)
      (htable : s.i ≠ c.programs.length → s.table = slots odd none (some (.reader s.i)) out)
      (hright : s.right_pipe = (outFd odd, (c.outSlot s.i).1))
      (hchild : s.child = none) (hpiped : Piped c s)
  | finished (hparent : s.parent = .loop ∨ s.parent = .returned)
      (hi : s.i = c.programs.length + 1) (hchild : s.child = none) (hfailed : s.failed = false)
      (hlog : s.log = c.inputs) (hfits : c.Fits c.programs.length)
  | failed (hparent : s.parent = .returned) (hchild : s.child = none) (hfailed : s.failed = true)
      (hlog : s.log <+: c.inputs)

section Inputs
variable (c : Config)

theorem inputs_length : c.inputs.length = c.programs.length := by
  simp [Config.inputs]

theorem inputOf_one (h : 0 < c.programs.length) : c.inputOf 1 = c.input := by
  obtain ⟨n, hn⟩ := Nat.exists_eq_add_of_lt h
  simp only [Config.inputOf, Config.inputs, hn]
  rfl

theorem inputOf_succ {i : ℕ} (hpos : 0 < i) (hi : i < c.programs.length) :
    c.inputOf (i + 1) = written (c.argv i) := by
  obtain ⟨j, rfl⟩ : ∃ j, i = j + 1 := ⟨i - 1, by omega⟩
  simp only [Config.inputOf, Config.inputs, Config.argv, Nat.add_sub_cancel]
  rw [List.getD_eq_getElem?_getD, List.getElem?_take_of_lt hi, List.getElem?_cons_succ,
    List.getElem?_map, List.getD_eq_getElem?_getD]
  rw [List.getElem?_eq_getElem (by omega)]
  rfl

/-- The log grows by the input of the program that ends. -/
theorem take_inputs_concat {i : ℕ} (hpos : 0 < i) (hi : i ≤ c.programs.length) :
    c.inputs.take (i - 1) ++ [c.inputOf i] = c.inputs.take i := by
  obtain ⟨j, rfl⟩ : ∃ j, i = j + 1 := ⟨i - 1, by omega⟩
  have hj : j < c.inputs.length := by
    rw [inputs_length]
    omega
  simp only [Config.inputOf, Nat.add_sub_cancel, List.getD_eq_getElem?_getD,
    List.getElem?_eq_getElem hj, Option.getD_some]
  exact List.take_append_getElem hj

theorem Config.Fits.succ {i : ℕ} (h : c.Fits (i - 1)) (hpos : 0 < i)
    (hout : i ≠ c.programs.length → i ≤ c.programs.length →
      (written (c.argv i)).length ≤ c.cap) : c.Fits i := by
  intro j hj hlast
  by_cases hij : j < i - 1
  · exact h j hij hlast
  · obtain rfl : i = j + 1 := by omega
    exact hout (by omega) (by omega)

end Inputs

section Tables
variable (c : Config) (i : ℕ) (odd : Bool)

theorem childTable_close :
    (c.childTable i odd .close).close (outFd odd) = c.childTable i odd .dupIn := by
  cases odd <;> rfl

theorem childTable_dupIn :
    (c.childTable i odd .dupIn).dup2 (inFd odd) 0 = c.childTable i odd .dupOut := by
  cases odd <;> rfl

theorem childTable_dupOut :
    (c.childTable i odd .dupOut).dup2 (c.outSlot i).1 1 = c.childTable i odd .exec := by
  simp only [Config.childTable, Config.outSlot, Config.outFile]
  split_ifs <;> cases odd <;> rfl

theorem slots_close_in (left right out : Option File) :
    (slots odd left right out).close (inFd odd) = slots odd none right out := by
  cases odd <;> rfl

theorem slots_close_out (left right out : Option File) :
    (slots odd left right out).close 4 = slots odd left right none := by
  cases odd <;> rfl

/-- The new pipe takes the place of the old one, and the reader that is left is read from. -/
theorem slots_pipe {s : State} {p : ℕ} (htable : s.table = slots odd none (some (.reader p)) none)
    (hcreated : s.created = p) :
    s.pipe.table = slots (!odd) (some (.reader p)) (some (.reader (p + 1)))
      (some (.writer (p + 1))) ∧ s.pipe.right_pipe = (outFd (!odd), 4) := by
  subst hcreated
  simp only [State.pipe, htable]
  cases odd <;> exact ⟨rfl, rfl⟩

/-- Where a program runs, nobody can write to its input any more. -/
theorem not_holds_writer (hpos : 0 < i) {s : State} {child : Child} {left : Option File}
    (hleft : left = some (inFile i) ∨ left = none)
    (htable : s.table = slots odd left (some (.reader i)) (c.outSlot i).2)
    (hchild : s.child = some child) (hrunning : child.table = c.childTable i odd .running)
    {p : ℕ} (hp : inFile i = .reader p) : s.holds (.writer p) = false := by
  have hi : p ≠ i := by
    simp only [inFile] at hp
    split_ifs at hp with h
    cases hp
    omega
  rcases hleft with rfl | rfl <;> cases odd <;>
    simp [State.holds, htable, hchild, hrunning, Config.childTable, slots, Config.outSlot,
      Config.outFile, hp, apply_ite, hi]

/-- The parent keeps the reading end of the program's pipe. -/
theorem holds_reader {s : State} {left out : Option File}
    (htable : s.table = slots odd left (some (.reader i)) out) : s.holds (.reader i) = true := by
  cases odd <;> simp [State.holds, htable, slots]

end Tables

section Reading
variable {s t : State} {byte : Option UInt8} {i : ℕ}

/-- A `read` takes the next byte of its file and changes nothing else, and without one it is at the
end. -/
theorem read_inFile (hpos : 0 < i) (h : s.read (some (inFile i)) = some (byte, t)) :
    ∃ source pipes, t = { s with source := source, pipes := pipes } ∧
      (∀ p, i ≤ p → pipes p = s.pipes p) ∧
      s.supply (inFile i) = byte.toList ++ t.supply (inFile i) ∧
      (byte = none → t = s ∧ s.supply (inFile i) = []) := by
  by_cases hi : i = 1
  · simp only [inFile, hi, ↓reduceIte, State.read] at h ⊢
    cases hsource : s.source with
    | nil =>
      rw [hsource] at h
      cases h
      exact ⟨s.source, s.pipes, rfl, fun _ _ => rfl, rfl, fun _ => ⟨rfl, hsource⟩⟩
    | cons b source =>
      rw [hsource] at h
      cases h
      exact ⟨source, s.pipes, rfl, fun _ _ => rfl, hsource, by simp⟩
  · simp only [inFile, hi, ↓reduceIte, State.read] at h ⊢
    cases hpipe : s.pipes (i - 1) with
    | nil =>
      rw [hpipe] at h
      split_ifs at h
      cases h
      exact ⟨s.source, s.pipes, rfl, fun _ _ => rfl, rfl, fun _ => ⟨rfl, hpipe⟩⟩
    | cons b rest =>
      rw [hpipe] at h
      cases h
      refine ⟨s.source, _, rfl, fun p hp => ?_, ?_, by simp⟩
      · exact Function.update_of_ne (by omega) _ _
      · simp [State.supply, hpipe]

/-- Where nobody can write to the file, a `read` of it does not block. -/
theorem read_isSome (hwriter : ∀ p, inFile i = .reader p → s.holds (.writer p) = false) :
    ∃ r, s.read (some (inFile i)) = some r := by
  cases hfile : inFile i with
  | input => cases hsource : s.source <;> simp [State.read, hsource]
  | reader p => cases hpipe : s.pipes p <;> simp [State.read, hpipe, hwriter p hfile]
  | output | errors | writer => simp [State.read]

end Reading

end Acos.Pipeline
