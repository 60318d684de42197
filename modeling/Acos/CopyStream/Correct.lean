import Acos.CopyStream.Wrapper
import Acos.Lib.Transition
import Mathlib.Data.List.ReduceOption

/-! One byte goes from call to call. A `read` that fails is taken for one that gave a byte, so that
the byte before it is written once more. -/
namespace Acos.CopyStream
open Acos.CString Acos.Transition Acos.X86

/-- The byte in the frame after some results of `read`. -/
def current (byte : UInt8) (reads : List (Option UInt8)) : UInt8 :=
  reads.foldl (fun b r => r.getD b) byte

/-- What there is to be written for each result of `read`. -/
def echo : UInt8 → List (Option UInt8) → Bytes
  | _, [] => []
  | byte, r :: reads => r.getD byte :: echo (r.getD byte) reads

/-- What comes through when some calls of `write` fail. -/
def delivered (bytes : Bytes) (writes : List Bool) : Bytes :=
  ((bytes.zip writes).filter (·.2)).map (·.1)

section
variable {byte : UInt8} {reads : List (Option UInt8)} {writes : List Bool} {bytes : Bytes}

theorem current_append (byte : UInt8) (reads : List (Option UInt8)) (r : Option UInt8) :
    current byte (reads ++ [r]) = r.getD (current byte reads) := by
  simp [current]

theorem echo_length (byte : UInt8) (reads : List (Option UInt8)) :
    (echo byte reads).length = reads.length := by
  induction reads generalizing byte with
  | nil => rfl
  | cons r reads ih => rw [echo, List.length_cons, List.length_cons, ih]

theorem echo_append (byte : UInt8) (reads : List (Option UInt8)) (r : Option UInt8) :
    echo byte (reads ++ [r]) = echo byte reads ++ [current byte (reads ++ [r])] := by
  induction reads generalizing byte with
  | nil => rfl
  | cons r' reads ih =>
    rw [List.cons_append, echo, ih, echo]
    rfl

/-- Without a failure the bytes are those that were read. -/
theorem echo_some (byte : UInt8) (bytes : Bytes) : echo byte (bytes.map some) = bytes := by
  induction bytes generalizing byte with
  | nil => rfl
  | cons b bytes ih => rw [List.map_cons, echo, Option.getD_some, ih]

/-- A byte that is not written yet. -/
theorem delivered_pending (b : UInt8) (h : writes.length ≤ bytes.length) :
    delivered (bytes ++ [b]) writes = delivered bytes writes := by
  induction bytes generalizing writes with
  | nil =>
    obtain rfl : writes = [] := List.length_eq_zero_iff.mp (Nat.le_zero.mp h)
    rfl
  | cons c bytes ih =>
    cases writes with
    | nil => rfl
    | cons ok writes =>
      have hrest := ih (Nat.le_of_succ_le_succ h)
      cases ok <;> simpa [delivered] using hrest

theorem delivered_append (b : UInt8) (ok : Bool) (h : bytes.length = writes.length) :
    delivered (bytes ++ [b]) (writes ++ [ok]) =
      delivered bytes writes ++ if ok then [b] else [] := by
  rw [delivered, List.zip_append h, List.filter_append, List.map_append]
  cases ok <;> rfl

theorem delivered_true (bytes : Bytes) : delivered bytes (bytes.map fun _ => true) = bytes := by
  induction bytes with
  | nil => rfl
  | cons b bytes ih => simpa [delivered] using ih

end

/-- Where the program is; the value of a call is in `rax` when it has come back. -/
inductive Phase where
  | start | body | cond | finish
  | call (c : Call)
  | kernel (c : Call)
  | back (c : Call) (rax : ℕ)
  | test (rax : ℕ)
  deriving DecidableEq, Repr

namespace Phase

def label : Phase → Label
  | start => .start
  | body => .while_body
  | cond => .while_condition
  | finish => .finish
  | call _ => .syscall
  | kernel _ => .kernel
  | back _ _ => .epilogue
  | test _ => .test

/-- The registers and the stack. -/
def Holds (layout : Layout Label) (sp : ℕ) (byte : UInt8) : Phase → Machine → Prop
  | start, m => m.reg .rsp = sp ∧ m.mem (sp - 9) = byte
  | body, m | cond, m | finish, m => Frame sp byte m
  | call c, m => Called layout sp byte c m
  | kernel c, m => Entered layout sp byte c m
  | back c rax, m => c ≠ .exit ∧ Saved layout sp byte c m ∧ m.reg .rax = rax
  | test rax, m => Frame sp byte m ∧ m.reg .rax = rax

/-- A byte has been read that is still to be written. -/
def pending : Phase → ℕ
  | cond | call .write | kernel .write => 1
  | back .read rax | test rax => if rax = 0 then 0 else 1
  | _ => 0

/-- `read` has come to the end of the input. -/
def ended : Phase → Prop
  | finish | call .exit | kernel .exit => True
  | back .read rax | test rax => rax = 0
  | _ => False

/-- The steps to the end, as long as no call fails. -/
def rank : Phase → ℕ
  | start => 10
  | body => 9
  | call .read => 8
  | kernel .read => 7
  | back .read rax => if rax = 0 then 6 else 16
  | test rax => if rax = 0 then 5 else 15
  | cond => 14
  | call .write => 13
  | kernel .write => 12
  | back .write _ => 11
  | finish => 4
  | call .exit => 3
  | kernel .exit => 2
  | back .exit _ => 0

/-- Where a block of the program goes on. -/
def after : Phase → Phase
  | start => body
  | body => call .read
  | cond => call .write
  | finish => call .exit
  | call c => kernel c
  | kernel c => kernel c
  | back .read rax => test rax
  | back _ _ => body
  | test rax => if rax = 0 then finish else cond

end Phase

/-- The streams, by the results of the calls. -/
structure Faithful (byte : UInt8) (input₀ : Bytes) (w : World) : Prop where
  read : w.reads.reduceOption ++ w.input = input₀
  written : w.output = delivered (echo byte w.reads) w.writes

structure At (layout : Layout Label) (sp : ℕ) (byte : UInt8) (input₀ : Bytes) (p : Phase)
    (s : State) : Prop extends Faithful byte input₀ s.world where
  pc : s.cpu.2 = .at p.label
  holds : p.Holds layout sp (current byte s.world.reads) s.cpu.1
  pending : s.world.reads.length = s.world.writes.length + p.pending
  ended : p.ended → s.world.input = []
  running : s.world.exited = none

/-- No call has failed. -/
structure Healthy (w : World) : Prop where
  reads : w.reads = w.reads.reduceOption.map some
  writes : w.writes = w.writes.map fun _ => true

/-- The program has ended, with everything read and a `write` for each `read`. -/
structure Ended (byte : UInt8) (input₀ : Bytes) (w : World) : Prop
    extends Faithful byte input₀ w where
  status : w.exited = some 0
  ended : w.input = []
  balanced : w.reads.length = w.writes.length

section
variable {layout : Layout Label} {sp : ℕ} {byte : UInt8} {input₀ : Bytes} {p p' : Phase}
  {s t : State} {m : Machine} {w : World} {c : Call} {a : Action}

theorem next_block (h : At layout sp byte input₀ p s) (hl : p.label ≠ .kernel) (a : Action) :
    next layout s a = ((code p.label).term.exec layout
      (execs s.cpu.1 (code p.label).ops)).map fun cpu => ⟨cpu, s.world⟩ := by
  have hpc := h.pc
  have hrunning := h.running
  obtain ⟨⟨m, pc⟩, w⟩ := s
  obtain rfl : pc = .at p.label := hpc
  have hsound : sound m (code p.label).ops :=
    sound_of_plain (by cases p.label <;> decide)
  have hstep : X86.step code layout (m, .at p.label) =
      (code p.label).term.exec layout (execs m (code p.label).ops) := by
    rw [X86.step, if_pos hsound]
  rw [← hstep]
  simp only at hrunning
  generalize p.label = l at *
  cases l <;> first | exact absurd rfl hl | simp [next, hrunning]

/-- The streams are left alone. -/
theorem At.goes (h : At layout sp byte input₀ p s) (p' : Phase)
    (hholds : p'.Holds layout sp (current byte s.world.reads) m) (hpending : p'.pending = p.pending)
    (hended : p'.ended → p.ended) :
    At layout sp byte input₀ p' ⟨(m, .at p'.label), s.world⟩ :=
  ⟨h.toFaithful, rfl, hholds, hpending ▸ h.pending, fun he => h.ended (hended he), h.running⟩

/-- A block of the program. -/
theorem At.block (h : At layout sp byte input₀ p s) (hlo : 144 ≤ sp) (hhi : sp < 2 ^ 64)
    (hl : p.label ≠ .kernel) :
    ∃ m', At layout sp byte input₀ p.after ⟨(m', .at p.after.label), s.world⟩ ∧
      p.after.rank < p.rank ∧
      ∀ a, next layout s a = some ⟨(m', .at p.after.label), s.world⟩ := by
  have hnext := next_block h hl
  have hholds := h.holds
  cases p with
  | start =>
    obtain ⟨rfl, hbyte⟩ := hholds
    have hframe := start_frame s.cpu.1 hlo
    rw [hbyte] at hframe
    exact ⟨_, h.goes .body hframe rfl id, by decide, hnext⟩
  | body =>
    exact ⟨_, h.goes (.call .read) (Frame.call hholds hlo hhi (by decide)) rfl id, by decide,
      hnext⟩
  | cond =>
    exact ⟨_, h.goes (.call .write) (Frame.call hholds hlo hhi (by decide)) rfl id, by decide,
      hnext⟩
  | finish =>
    exact ⟨_, h.goes (.call .exit) (Frame.exit hholds hlo hhi) rfl id, by decide, hnext⟩
  | call c =>
    refine ⟨_, h.goes (.kernel c) (Called.enter hholds hlo) ?_ ?_, ?_, hnext⟩
    · cases c <;> rfl
    · cases c <;> exact id
    · cases c <;> decide
  | kernel c => exact absurd rfl hl
  | back c rax =>
    obtain ⟨hc, hsaved, rfl⟩ := hholds
    obtain ⟨hframe, hrax, hresolve⟩ := hsaved.leave hlo hhi
    have hret : (code .epilogue).term.exec layout (execs s.cpu.1 (code .epilogue).ops) =
        some ((execs s.cpu.1 (code .epilogue).ops).drop, .at c.back) := by
      rw [← hresolve]
      rfl
    have hnext' (a : Action) := (hnext a).trans (congrArg _ hret)
    cases c with
    | read =>
      refine ⟨_, h.goes (.test _) ⟨hframe, hrax⟩ rfl id, ?_, hnext'⟩
      simp only [Phase.after, Phase.rank]
      split <;> omega
    | write =>
      exact ⟨_, h.goes .body hframe rfl id, by simp [Phase.after, Phase.rank], hnext'⟩
    | exit => exact absurd rfl hc
  | test rax =>
    obtain ⟨hframe, rfl⟩ := hholds
    have hframe' := hframe.after [.test .qword (.reg .rax) (.reg .rax)] (by decide) (by decide)
    have hjump : (code .test).term.exec layout (execs s.cpu.1 (code .test).ops) =
        some (execs s.cpu.1 (code .test).ops,
          .at (if s.cpu.1.reg .rax = 0 then .finish else .while_condition)) := by
      simp [code, Term.exec, Cond.holds, signs]
    have hnext' (a : Action) := (hnext a).trans (congrArg _ hjump)
    by_cases hrax : s.cpu.1.reg .rax = 0
    · have hafter : (Phase.test (s.cpu.1.reg .rax)).after = .finish := if_pos hrax
      rw [if_pos hrax] at hnext'
      rw [hafter]
      refine ⟨_, h.goes .finish hframe' ?_ fun _ => hrax, ?_, hnext'⟩
      · simp [Phase.pending, hrax]
      · simp [Phase.rank, hrax]
    · have hafter : (Phase.test (s.cpu.1.reg .rax)).after = .cond := if_neg hrax
      rw [if_neg hrax] at hnext'
      rw [hafter]
      refine ⟨_, h.goes .cond hframe' ?_ (fun he => he.elim), ?_, hnext'⟩
      · simp [Phase.pending, hrax]
      · simp [Phase.rank, hrax]

theorem next_kernel (h : At layout sp byte input₀ (.kernel c) s) {r : Machine × World}
    (hr : kernel s.cpu.1 s.world a = some r) :
    next layout s a = some ⟨(r.1, .at .epilogue), r.2⟩ := by
  have hpc := h.pc
  have hrunning := h.running
  obtain ⟨⟨m, pc⟩, w⟩ := s
  obtain rfl : pc = .at .kernel := hpc
  simp only at hrunning hr
  simp [next, hrunning, hr]

theorem errno_pos (e : Fin 4095) : 0 < errno e ∧ errno e < 2 ^ 64 := by
  have hlt := e.isLt
  unfold errno
  omega

/-- A state behind a call of the kernel: one step on, and the program has come closer to its end
unless the call has failed. -/
def Advanced (layout : Layout Label) (sp : ℕ) (byte : UInt8) (input₀ : Bytes) (p : Phase)
    (s t : State) (a : Action) : Prop :=
  (∃ p', At layout sp byte input₀ p' t ∧ (a.fails = none →
    10 * t.world.input.length + p'.rank < 10 * s.world.input.length + p.rank)) ∧
  (a.fails = none → Healthy s.world → Healthy t.world)

theorem At.read_kernel (h : At layout sp byte input₀ (.kernel .read) s) (a : Action) :
    CopyStream.kernel s.cpu.1 s.world a = some (CopyStream.read s.cpu.1 s.world a) := by
  have hholds : Entered layout sp _ .read s.cpu.1 := h.holds
  exact if_pos ⟨hholds.number, hholds.first, (hholds.buffer (by decide)).2⟩

/-- `read`. -/
theorem At.read_call (h : At layout sp byte input₀ (.kernel .read) s) (hlo : 144 ≤ sp)
    (a : Action) :
    ∃ t, next layout s a = some t ∧ Advanced layout sp byte input₀ (.kernel .read) s t a := by
  have hholds : Entered layout sp _ .read s.cpu.1 := h.holds
  have hbuffer := (hholds.buffer (by decide)).1
  have hsaved := hholds.toSaved
  have hkernel := h.read_kernel a
  have hbalanced : s.world.reads.length = s.world.writes.length := h.pending
  refine ⟨_, next_kernel h hkernel, ?_⟩
  unfold CopyStream.read
  cases hfails : a.fails with
  | some e =>
    obtain ⟨hpos, hlt⟩ := errno_pos e
    refine ⟨⟨.back .read (errno e), ⟨⟨?_, ?_⟩, rfl, ⟨by decide, ?_, resume_rax _ _ hlt⟩, ?_, ?_,
      h.running⟩, fun hnone => ?_⟩, fun hnone => ?_⟩
    · simpa [List.reduceOption_append] using h.read
    · simp only
      rw [echo_append, delivered_pending _ (by rw [echo_length]; omega)]
      exact h.written
    · rw [current_append]
      exact hsaved.resume a (errno e)
    · simp [Phase.pending, hpos.ne', hbalanced]
    · exact fun he => absurd he hpos.ne'
    · exact absurd (hfails.symm.trans hnone) (Option.some_ne_none e)
    · exact absurd (hfails.symm.trans hnone) (Option.some_ne_none e)
  | none =>
    cases hinput : s.world.input with
    | nil =>
      refine ⟨⟨.back .read 0, ⟨h.toFaithful, rfl, ⟨by decide, hsaved.resume a 0,
        resume_rax _ _ (by decide)⟩, h.pending, fun _ => hinput, h.running⟩, fun _ => ?_⟩,
        fun _ => id⟩
      simp [hinput, Phase.rank]
    | cons b rest =>
      refine ⟨⟨.back .read 1, ⟨⟨?_, ?_⟩, rfl, ⟨by decide, ?_, resume_rax _ _ (by decide)⟩, ?_, ?_,
        h.running⟩, fun _ => ?_⟩, fun _ hhealthy => ⟨?_, hhealthy.writes⟩⟩
      · simpa [List.reduceOption_append, hinput] using h.read
      · simp only
        rw [echo_append, delivered_pending _ (by rw [echo_length]; omega)]
        exact h.written
      · rw [current_append, hbuffer]
        exact (hsaved.stored hlo b).resume a 1
      · simp [Phase.pending, hbalanced]
      · exact fun he => absurd he Nat.one_ne_zero
      · simp [hinput, Phase.rank]
        omega
      · simpa [List.reduceOption_append] using hhealthy.reads

/-- `write`. -/
theorem At.write_call (h : At layout sp byte input₀ (.kernel .write) s) (a : Action) :
    ∃ t, next layout s a = some t ∧ Advanced layout sp byte input₀ (.kernel .write) s t a := by
  have hholds : Entered layout sp _ .write s.cpu.1 := h.holds
  obtain ⟨hbuffer, hcount⟩ := hholds.buffer (by decide)
  have hsaved := hholds.toSaved
  have hkernel : CopyStream.kernel s.cpu.1 s.world a =
      some (CopyStream.write s.cpu.1 s.world a) := by
    rw [CopyStream.kernel, if_neg (by simp [hholds.number, Call.number]),
      if_pos ⟨hholds.number, hholds.first, hcount⟩]
  have hbehind : s.world.reads.length = s.world.writes.length + 1 := h.pending
  -- the last of the bytes is in the frame
  obtain ⟨reads, r, hreads⟩ : ∃ reads r, s.world.reads = reads ++ [r] := by
    refine ⟨s.world.reads.dropLast, s.world.reads.getLast ?_, (List.dropLast_append_getLast _).symm⟩
    rintro hnil
    rw [hnil] at hbehind
    cases hbehind
  have hlength : (echo byte reads).length = s.world.writes.length := by
    rw [hreads, List.length_append, List.length_singleton] at hbehind
    rw [echo_length]
    omega
  have hbyte : s.cpu.1.mem (s.cpu.1.reg .rsi) = current byte (reads ++ [r]) := by
    rw [hbuffer, ← hreads]
    exact hsaved.byte
  have hold : s.world.output = delivered (echo byte reads) s.world.writes := by
    rw [h.written, hreads, echo_append, delivered_pending _ hlength.ge]
  have hnew (ok : Bool) : delivered (echo byte s.world.reads) (s.world.writes ++ [ok]) =
      s.world.output ++ if ok then [current byte (reads ++ [r])] else [] := by
    rw [hreads, echo_append, delivered_append _ ok hlength, ← hold]
  refine ⟨_, next_kernel h hkernel, ?_⟩
  unfold CopyStream.write
  cases hfails : a.fails with
  | some e =>
    obtain ⟨hpos, hlt⟩ := errno_pos e
    refine ⟨⟨.back .write (errno e), ⟨⟨h.read, ?_⟩, rfl, ⟨by decide, hsaved.resume a (errno e),
      resume_rax _ _ hlt⟩, ?_, fun he => he.elim, h.running⟩, fun hnone => ?_⟩, fun hnone => ?_⟩
    · simp only [hnew, Bool.false_eq_true, if_false, List.append_nil]
    · simp [Phase.pending, hbehind]
    · exact absurd (hfails.symm.trans hnone) (Option.some_ne_none e)
    · exact absurd (hfails.symm.trans hnone) (Option.some_ne_none e)
  | none =>
    refine ⟨⟨.back .write 1, ⟨⟨h.read, ?_⟩, rfl, ⟨by decide, hsaved.resume a 1,
      resume_rax _ _ (by decide)⟩, ?_, fun he => he.elim, h.running⟩, fun _ => ?_⟩,
      fun _ hhealthy => ⟨hhealthy.reads, ?_⟩⟩
    · simp only [hnew, if_true, hbyte]
    · simp [Phase.pending, hbehind]
    · simp [Phase.rank]
    · simpa using hhealthy.writes

/-- `exit_group`. -/
theorem At.exit_call (h : At layout sp byte input₀ (.kernel .exit) s) (a : Action) :
    ∃ t, next layout s a = some t ∧ Ended byte input₀ t.world ∧
      (Healthy s.world → Healthy t.world) := by
  have hholds : Entered layout sp _ .exit s.cpu.1 := h.holds
  have hkernel : CopyStream.kernel s.cpu.1 s.world a =
      some (s.cpu.1, { s.world with exited := some 0 }) := by
    have hnumber : s.cpu.1.reg .rax = 231 := hholds.number
    have hstatus : s.cpu.1.reg .rdi = 0 := hholds.first
    rw [CopyStream.kernel, if_neg (by simp [hnumber]), if_neg (by simp [hnumber]), if_pos hnumber,
      hstatus]
  exact ⟨_, next_kernel h hkernel, ⟨⟨h.read, h.written⟩, rfl, h.ended trivial, h.pending⟩,
    fun hhealthy => ⟨hhealthy.reads, hhealthy.writes⟩⟩

/-- The program goes on for as long as it has not ended. -/
theorem At.step (h : At layout sp byte input₀ p s) (hlo : 144 ≤ sp) (hhi : sp < 2 ^ 64)
    (a : Action) : ∃ t, next layout s a = some t ∧ (Ended byte input₀ t.world ∨
      ∃ p', At layout sp byte input₀ p' t ∧ (a.fails = none →
        10 * t.world.input.length + p'.rank < 10 * s.world.input.length + p.rank)) ∧
      (a.fails = none → Healthy s.world → Healthy t.world) := by
  by_cases hl : p.label = .kernel
  · obtain ⟨c, rfl⟩ : ∃ c, p = .kernel c := by
      cases p with
      | kernel c => exact ⟨c, rfl⟩
      | _ => cases hl
    cases c with
    | read =>
      obtain ⟨t, ht, hadvanced, hhealthy⟩ := h.read_call hlo a
      exact ⟨t, ht, .inr hadvanced, hhealthy⟩
    | write =>
      obtain ⟨t, ht, hadvanced, hhealthy⟩ := h.write_call a
      exact ⟨t, ht, .inr hadvanced, hhealthy⟩
    | exit =>
      obtain ⟨t, ht, hended, hhealthy⟩ := h.exit_call a
      exact ⟨t, ht, .inl hended, fun _ => hhealthy⟩
  · obtain ⟨m', hat, hless, hnext⟩ := h.block hlo hhi hl
    exact ⟨_, hnext a, .inr ⟨_, hat, fun _ => Nat.add_lt_add_left hless _⟩, fun _ => id⟩

/-- Whatever has failed before, the program can come to its end. -/
theorem At.exits (h : At layout sp byte input₀ p s) (hlo : 144 ≤ sp) (hhi : sp < 2 ^ 64) :
    ∃ ls t, run (next layout) s ls = some t ∧ Ended byte input₀ t.world := by
  induction hn : 10 * s.world.input.length + p.rank using Nat.strong_induction_on
    generalizing p s with
  | _ n ih =>
    obtain ⟨t, ht, hor, -⟩ := h.step hlo hhi ⟨none, 0, 0⟩
    rcases hor with hended | ⟨p', hp', hless⟩
    · exact ⟨[⟨none, 0, 0⟩], t, run_cons_eq_some.mpr ⟨t, ht, rfl⟩, hended⟩
    · obtain ⟨ls, u, hrun, hu⟩ := ih _ (hn ▸ hless rfl) hp' rfl
      exact ⟨⟨none, 0, 0⟩ :: ls, u, run_cons_eq_some.mpr ⟨t, ht, hrun⟩, hu⟩

theorem initial_at (layout : Layout Label) (m : Machine) (input : Bytes) :
    At layout (m.reg .rsp) (m.mem (m.reg .rsp - 9)) input .start (initial m input) :=
  ⟨⟨rfl, rfl⟩, rfl, ⟨rfl, rfl⟩, rfl, fun he => he.elim, rfl⟩

/-- Whichever calls fail: the program is never stuck, and when it exits, it does so with status 0 and
has read everything; each result of `read` has brought about one `write`, a failure that of the
byte before it. -/
theorem exited_copies {m : Machine} {input : Bytes} (hroom : 144 ≤ m.reg .rsp)
    (h : Reachable (next layout) (initial m input) s) :
    (s.world.exited = none → ∀ a, (next layout s a).isSome) ∧
      ∀ status, s.world.exited = some status → status = 0 ∧ s.world.reads.reduceOption = input ∧
        s.world.writes.length = s.world.reads.length ∧ s.world.output =
          delivered (echo (m.mem (m.reg .rsp - 9)) s.world.reads) s.world.writes := by
  have hhi := m.reg_lt .rsp
  have hinv : Ended (m.mem (m.reg .rsp - 9)) input s.world ∨
      ∃ p, At layout (m.reg .rsp) (m.mem (m.reg .rsp - 9)) input p s := by
    refine h.invariant (I := fun s => Ended (m.mem (m.reg .rsp - 9)) input s.world ∨
      ∃ p, At layout (m.reg .rsp) (m.mem (m.reg .rsp - 9)) input p s) ?_ (.inr ⟨_, initial_at ..⟩)
    rintro s a t (hended | ⟨p, hp⟩) hl
    · rw [next, hended.status] at hl
      cases hl
    · obtain ⟨t', ht', hor, -⟩ := hp.step hroom hhi a
      obtain rfl := Option.some.inj (ht'.symm.trans hl)
      exact hor.imp_right fun ⟨p', hp', _⟩ => ⟨p', hp'⟩
  rcases hinv with hended | ⟨p, hp⟩
  · refine ⟨fun hnone => ?_, fun status hstatus => ?_⟩
    · exact absurd (hended.status.symm.trans hnone) (Option.some_ne_none 0)
    · have hread := hended.read
      rw [hended.ended, List.append_nil] at hread
      have hzero : status = 0 := Option.some.inj (hstatus.symm.trans hended.status)
      exact ⟨hzero, hread, hended.balanced.symm, hended.written⟩
  · refine ⟨fun _ a => ?_, fun status hstatus => ?_⟩
    · obtain ⟨t, ht, -⟩ := hp.step hroom hhi a
      exact Option.isSome_of_eq_some ht
    · exact absurd (hp.running.symm.trans hstatus) (Option.some_ne_none status).symm

/-- The first `read` fails. -/
def failedRead : List Action := [⟨none, 0, 0⟩, ⟨none, 0, 0⟩, ⟨none, 0, 0⟩, ⟨some 3, 0, 0⟩]

theorem failedRead_run : ∃ s p, run (next lowLayout) (initial process [97]) failedRead = some s ∧
    s.world.reads = [none] ∧
    At lowLayout (process.reg .rsp) (process.mem (process.reg .rsp - 9)) [97] p s := by
  have hhi := process.reg_lt .rsp
  obtain ⟨m₁, hbody, -, hnext₁⟩ := (initial_at lowLayout process [97]).block (by decide) hhi
    (by decide)
  obtain ⟨m₂, hcall, -, hnext₂⟩ := hbody.block (by decide) hhi (by decide)
  obtain ⟨m₃, hkernel, -, hnext₃⟩ := hcall.block (by decide) hhi (by decide)
  obtain ⟨t, ht, ⟨p, hp, -⟩, -⟩ := hkernel.read_call (by decide) ⟨some 3, 0, 0⟩
  refine ⟨t, p, ?_, ?_, hp⟩
  · simp only [failedRead, run_cons_eq_some]
    exact ⟨_, hnext₁ _, _, hnext₂ _, _, hnext₃ _, t, ht, rfl⟩
  · rw [next_kernel hkernel (hkernel.read_kernel _), Option.some.injEq] at ht
    rw [← ht]
    rfl

/-- The program comes to its exit all the same. -/
theorem exited_copies_failed_read : ∃ s t ls,
    run (next lowLayout) (initial process [97]) failedRead = some s ∧ s.world.reads = [none] ∧
      run (next lowLayout) s ls = some t ∧ t.world.exited = some 0 ∧
        t.world.reads.reduceOption = [97] ∧
        t.world.writes.length = t.world.reads.length ∧ t.world.output =
          delivered (echo (process.mem (process.reg .rsp - 9)) t.world.reads) t.world.writes := by
  obtain ⟨s, p, hstart, hfailed, hp⟩ := failedRead_run
  obtain ⟨ls, t, hrun, hended⟩ := hp.exits (by decide) (process.reg_lt .rsp)
  have hreach : Reachable (next lowLayout) (initial process [97]) t :=
    ⟨failedRead ++ ls, by rw [run_append, hstart, Option.bind_some, hrun]⟩
  obtain ⟨-, hstatus⟩ := exited_copies (by decide) hreach
  exact ⟨s, t, ls, hstart, hfailed, hrun, hended.status, (hstatus 0 hended.status).2⟩

/-- The steps without a call that fails. -/
def healthyNext (layout : Layout Label) (s : State) (a : Action) : Option State :=
  if a.fails = none then next layout s a else none

/-- As long as no call fails, the program copies its input and exits with status 0. -/
theorem inevitably_copied {m : Machine} (hroom : 144 ≤ m.reg .rsp) (input : Bytes) :
    Inevitably (healthyNext layout)
      (fun s => s.world.exited = some 0 ∧ s.world.input = [] ∧ s.world.output = input)
      (initial m input) := by
  have hhi := m.reg_lt .rsp
  refine inevitably_of_rank (R := fun n s => ∃ p,
    At layout (m.reg .rsp) (m.mem (m.reg .rsp - 9)) input p s ∧ Healthy s.world ∧
      10 * s.world.input.length + p.rank = n) ?_ ?_ ⟨_, initial_at layout m input, ⟨rfl, rfl⟩, rfl⟩
  · rintro n s ⟨p, hp, -⟩ -
    obtain ⟨t, ht, -⟩ := hp.step hroom hhi ⟨none, 0, 0⟩
    exact ⟨⟨none, 0, 0⟩, t, (if_pos rfl).trans ht⟩
  · rintro n s a t ⟨p, hp, hhealthy, rfl⟩ - hl
    unfold healthyNext at hl
    split_ifs at hl with hfails
    obtain ⟨t', ht', hor, hkeeps⟩ := hp.step hroom hhi a
    obtain rfl := Option.some.inj (ht'.symm.trans hl)
    have ht := hkeeps hfails hhealthy
    rcases hor with hended | ⟨p', hp', hless⟩
    · refine .inl ⟨hended.status, hended.ended, ?_⟩
      have hread := hended.read
      rw [hended.ended, List.append_nil] at hread
      have hwrites : t'.world.writes = input.map fun _ => true := by
        rw [ht.writes]
        refine List.ext_getElem ?_ fun i _ _ => by simp
        rw [List.length_map, List.length_map, ← hended.balanced, ht.reads, List.length_map, hread]
      rw [hended.written, ht.reads, hread, echo_some, hwrites, delivered_true]
    · exact .inr ⟨_, hless hfails, p', hp', ht, rfl⟩

theorem inevitably_copied_one : Inevitably (healthyNext lowLayout)
    (fun s => s.world.exited = some 0 ∧ s.world.input = [] ∧ s.world.output = [97])
    (initial process [97]) :=
  inevitably_copied (by decide) [97]

end

end Acos.CopyStream
