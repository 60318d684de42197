import Mathlib.Algebra.Group.Nat.Defs
import Mathlib.Logic.Function.Basic
import Mathlib.Logic.Relation

/-! A machine for ARM assembly by basic blocks. Memory is by the addresses of words. A block runs to
its end in one step, and so does a routine outside the code, which may change a world of its own. -/
namespace Acos.ArmText

abbrev Word := BitVec 32

inductive Reg where
  | r0 | r1 | r2 | r3 | r4 | r5 | r6 | r7 | r8 | r9 | r10 | r11 | r12 | sp | lr
  deriving DecidableEq, Repr

inductive Operand where
  | reg (r : Reg)
  | imm (v : Word)
  deriving DecidableEq, Repr

/-- The instructions that are no jumps. The load of a symbol's address is a `mov`. -/
inductive Op where
  | mov (d : Reg) (src : Operand)
  | add (d n : Reg) (src : Operand)
  | sub (d n : Reg) (src : Operand)
  | subs (d n : Reg) (src : Operand)
  | mul (d m s : Reg)
  | cmp (n : Reg) (src : Operand)
  | ldr (t n : Reg) (offset : Operand)
  | str (t n : Reg) (offset : Operand)
  | push (rs : List Reg)
  | pop (rs : List Reg)
  deriving DecidableEq, Repr

/-- The flag `Z`, and whether `N` and `V` differ. -/
structure Flags where
  zero : Bool
  less : Bool
  deriving DecidableEq, Repr

inductive Cond where
  | eq | ne | lt
  deriving DecidableEq, Repr

def Cond.holds (f : Flags) : Cond → Bool
  | .eq => f.zero
  | .ne => !f.zero
  | .lt => f.less

structure Machine where
  reg : Reg → Word
  mem : Word → Word
  flags : Flags

namespace Machine

def set (m : Machine) (r : Reg) (v : Word) : Machine :=
  ⟨Function.update m.reg r v, m.mem, m.flags⟩

def store (m : Machine) (a v : Word) : Machine := ⟨m.reg, Function.update m.mem a v, m.flags⟩

def setFlags (m : Machine) (flags : Flags) : Machine := ⟨m.reg, m.mem, flags⟩

@[simp] def read (m : Machine) : Operand → Word
  | .reg r => m.reg r
  | .imm v => v

section
variable (m : Machine) (r r' : Reg) (a b v : Word) (flags : Flags)

@[simp] theorem set_reg : (m.set r v).reg r' = if r' = r then v else m.reg r' :=
  Function.update_apply m.reg r v r'

@[simp] theorem store_mem : (m.store a v).mem b = if b = a then v else m.mem b :=
  Function.update_apply m.mem a v b

@[simp] theorem set_mem : (m.set r v).mem = m.mem := rfl
@[simp] theorem set_flags : (m.set r v).flags = m.flags := rfl
@[simp] theorem store_reg : (m.store a v).reg = m.reg := rfl
@[simp] theorem store_flags : (m.store a v).flags = m.flags := rfl
@[simp] theorem setFlags_reg : (m.setFlags flags).reg = m.reg := rfl
@[simp] theorem setFlags_mem : (m.setFlags flags).mem = m.mem := rfl
@[simp] theorem setFlags_flags : (m.setFlags flags).flags = flags := rfl

end

/-- Registers in consecutive words, the first at the lowest address. -/
@[simp] def storeRegs (m : Machine) (a : Word) : List Reg → Machine
  | [] => m
  | r :: rs => storeRegs (m.store a (m.reg r)) (a + 4) rs

@[simp] def loadRegs (m : Machine) (a : Word) : List Reg → Machine
  | [] => m
  | r :: rs => loadRegs (m.set r (m.mem a)) (a + 4) rs

/-- The words of a list stand in the memory from `a` on. -/
def Holds (mem : Word → Word) : Word → List Word → Prop
  | _, [] => True
  | a, v :: vs => mem a = v ∧ Holds mem (a + 4) vs

section
variable {m : Machine} {mem mem' : Word → Word} {a b : Word} {vs : List Word} {rs : List Reg}

/-- The address of a word behind the first. -/
theorem add_succ (a : Word) (i : ℕ) :
    a + 4 + BitVec.ofNat 32 (4 * i) = a + BitVec.ofNat 32 (4 * (i + 1)) := by
  bv_omega

/-- The words may also stand elsewhere. -/
theorem Holds.congr (h : Holds mem a vs)
    (heq : ∀ i < vs.length,
      mem' (b + BitVec.ofNat 32 (4 * i)) = mem (a + BitVec.ofNat 32 (4 * i))) :
    Holds mem' b vs := by
  induction vs generalizing a b with
  | nil => trivial
  | cons v vs ih =>
    refine ⟨?_, ih h.2 fun i hi => ?_⟩
    · simpa [h.1] using heq 0 (Nat.succ_pos _)
    · rw [add_succ, add_succ]
      exact heq (i + 1) (Nat.succ_lt_succ hi)

/-- One word by its number. -/
theorem Holds.get (h : Holds mem a vs) {i : ℕ} (hi : i < vs.length) :
    mem (a + BitVec.ofNat 32 (4 * i)) = vs[i] := by
  induction vs generalizing a i with
  | nil => simp at hi
  | cons v vs ih =>
    cases i with
    | zero => simpa using h.1
    | succ i =>
      rw [← add_succ]
      exact ih h.2 (Nat.lt_of_succ_lt_succ hi)

theorem Holds.concat (h : Holds mem a vs) {v : Word}
    (hv : mem (a + BitVec.ofNat 32 (4 * vs.length)) = v) : Holds mem a (vs ++ [v]) := by
  induction vs generalizing a with
  | nil => exact ⟨by simpa using hv, trivial⟩
  | cons w vs ih => exact ⟨h.1, ih h.2 (by rw [add_succ]; exact hv)⟩

theorem storeRegs_mem_of_ne (h : ∀ i < rs.length, b ≠ a + BitVec.ofNat 32 (4 * i)) :
    (m.storeRegs a rs).mem b = m.mem b := by
  induction rs generalizing m a with
  | nil => rfl
  | cons r rs ih =>
    have hb : b ≠ a := by simpa using h 0 (Nat.succ_pos _)
    rw [storeRegs, ih fun i hi => by rw [add_succ]; exact h (i + 1) (Nat.succ_lt_succ hi),
      store_mem, if_neg hb]

theorem storeRegs_holds (h : rs.length < 2 ^ 30) :
    Holds (m.storeRegs a rs).mem a (rs.map m.reg) := by
  induction rs generalizing m a with
  | nil => trivial
  | cons r rs ih =>
    rw [List.length_cons] at h
    refine ⟨?_, ih (by omega)⟩
    rw [storeRegs, storeRegs_mem_of_ne, store_mem, if_pos rfl]
    intro i hi heq
    rw [add_succ] at heq
    bv_omega

end

end Machine

/-- The flags of a comparison, as of a subtraction. -/
def compare (a b : Word) : Flags := ⟨a == b, a.slt b⟩

@[simp] def exec (m : Machine) : Op → Machine
  | .mov d src => m.set d (m.read src)
  | .add d n src => m.set d (m.reg n + m.read src)
  | .sub d n src => m.set d (m.reg n - m.read src)
  | .subs d n src =>
    (m.set d (m.reg n - m.read src)).setFlags (compare (m.reg n) (m.read src))
  | .mul d n s => m.set d (m.reg n * m.reg s)
  | .cmp n src => m.setFlags (compare (m.reg n) (m.read src))
  | .ldr t n offset => m.set t (m.mem (m.reg n + m.read offset))
  | .str t n offset => m.store (m.reg n + m.read offset) (m.reg t)
  | .push rs =>
    let low := m.reg .sp - BitVec.ofNat 32 (4 * rs.length)
    (m.set .sp low).storeRegs low rs
  | .pop rs =>
    (m.set .sp (m.reg .sp + BitVec.ofNat 32 (4 * rs.length))).loadRegs (m.reg .sp) rs

def execs (m : Machine) (ops : List Op) : Machine := ops.foldl exec m

/-- How a basic block ends; `next` is the block behind a jump or a call. `bx` returns. -/
inductive Term (Label Routine : Type) where
  | b (target : Label)
  | bc (c : Cond) (target next : Label)
  | bl (routine : Routine) (next : Label)
  | bx
  deriving DecidableEq, Repr

structure Block (Label Routine : Type) where
  ops : List Op
  term : Term Label Routine

/-- Where the machine goes on: in the code, or at an address outside it. -/
inductive Pc (Label : Type) where
  | at (l : Label)
  | out (address : Word)
  deriving DecidableEq, Repr

structure State (Label World : Type) where
  machine : Machine
  world : World
  pc : Pc Label

variable {Label Routine World : Type}

abbrev Routines (Routine World : Type) := Routine → Machine → World → Machine × World

/-- The jump at the end of a block. -/
def Term.exec (call : Routines Routine World) (m : Machine) (w : World) :
    Term Label Routine → State Label World
  | .b target => ⟨m, w, .at target⟩
  | .bc c target next => ⟨m, w, .at (if c.holds m.flags then target else next)⟩
  | .bl routine next => ⟨(call routine m w).1, (call routine m w).2, .at next⟩
  | .bx => ⟨m, w, .out (m.reg .lr)⟩

def step (code : Label → Block Label Routine) (call : Routines Routine World)
    (s : State Label World) : Option (State Label World) :=
  match s.pc with
  | .out _ => none
  | .at l => some ((code l).term.exec call (execs s.machine (code l).ops) s.world)

/-- What is to be checked of the instructions of a list before they run. -/
def Checked (ok : Machine → Op → Prop) : Machine → List Op → Prop
  | _, [] => True
  | m, op :: ops => ok m op ∧ Checked ok (exec m op) ops

def State.Checked (code : Label → Block Label Routine) (ok : World → Machine → Op → Prop)
    (s : State Label World) : Prop :=
  match s.pc with
  | .out _ => True
  | .at l => ArmText.Checked (ok s.world) s.machine (code l).ops

/-- The machine goes from one state to another in some number of steps with the checks on the way
being met. -/
def Steps (code : Label → Block Label Routine) (call : Routines Routine World)
    (ok : World → Machine → Op → Prop) : State Label World → State Label World → Prop :=
  Relation.ReflTransGen fun s t => s.Checked code ok ∧ step code call s = some t

section
variable {code : Label → Block Label Routine} {call : Routines Routine World}
  {ok : World → Machine → Op → Prop} {s t u : State Label World} {m : Machine} {w : World}
  {l target next : Label} {ops : List Op} {op : Op}

@[simp] theorem execs_nil : execs m [] = m := rfl

@[simp] theorem execs_cons : execs m (op :: ops) = execs (exec m op) ops := rfl

theorem Steps.refl (s : State Label World) : Steps code call ok s s := Relation.ReflTransGen.refl

theorem Steps.trans (h : Steps code call ok s t) (h' : Steps code call ok t u) :
    Steps code call ok s u := Relation.ReflTransGen.trans h h'

theorem Steps.block {b : Block Label Routine} (h : code l = b) (hok : Checked (ok w) m b.ops) :
    Steps code call ok ⟨m, w, .at l⟩ (b.term.exec call (execs m b.ops) w) := by
  subst h
  exact Relation.ReflTransGen.single ⟨hok, rfl⟩

/-- A state from which no step is taken. -/
def Stuck (code : Label → Block Label Routine) (call : Routines Routine World)
    (ok : World → Machine → Op → Prop) (s : State Label World) : Prop :=
  s.Checked code ok → step code call s = none

theorem stuck_of_out {a : Word} (h : s.pc = .out a) : Stuck code call ok s := by
  intro _
  rw [step, h]

theorem Stuck.eq (h : Stuck code call ok s) (hst : Steps code call ok s t) : t = s := by
  rcases Relation.ReflTransGen.cases_head hst with rfl | ⟨u, ⟨hok, hstep⟩, -⟩
  · rfl
  · rw [h hok] at hstep
    exact absurd hstep (Option.some_ne_none u).symm

/-- The machine is deterministic. -/
theorem Steps.unique (ht : Steps code call ok s t) (hu : Steps code call ok s u)
    (htstuck : Stuck code call ok t) (hustuck : Stuck code call ok u) : t = u := by
  have hright : Relator.RightUnique fun s t : State Label World =>
      s.Checked code ok ∧ step code call s = some t :=
    fun _ _ _ h h' => Option.some.inj (h.2.symm.trans h'.2)
  rcases Relation.ReflTransGen.total_of_right_unique hright ht hu with htu | hut
  · exact (htstuck.eq htu).symm
  · exact hustuck.eq hut

end

end Acos.ArmText
