import Acos.ReverseLines.Model
import Mathlib.Data.List.DropRight

/-! The heap holds a newline and the input behind it. The lines are found from the end on, and the
first newline stops the search for the last one that is printed. -/
namespace Acos.ReverseLines
open Acos.CString Acos.MachineInt Acos.Transition

/-- The input without the spaces and newlines at its end. -/
def stripped (input : Bytes) : Bytes := input.rdropWhile fun c => c = 10 ∨ c = 32

/-- The lines of a text from the last to the first, each with a newline. -/
def linesReversed (text : Bytes) : Bytes := (text.splitOn 10).reverse.flatMap (· ++ [10])

def expected (input : Bytes) : Bytes :=
  if stripped input = [] then [] else linesReversed (stripped input)

/-- The program has ended and printed what it should. -/
def Printed (output : Bytes) (s : State) : Prop := s.pc = .exit ∧ s.output = output

/-- The heap starts with these bytes. -/
structure Holds (base : ℕ) (bytes : Bytes) (s : State) : Prop where
  base : s.rbp = base
  size : s.heap.length = heapSize
  bytes : bytes <+: s.heap

section
variable {base r : ℕ} {bytes front last mid p output : Bytes} {s t : State}

theorem inc_eq (h : r + 1 < 2 ^ 64) : inc r = r + 1 := Nat.mod_eq_of_lt h

theorem dec_eq (h : 0 < r) (hr : r < 2 ^ 64) : dec r = r - 1 := by
  unfold dec
  omega

theorem i64_natCast (h : r < 2 ^ 63) : i64 r = r := i64_of_range (by omega) (by omega)

theorem Holds.mono (h : Holds base bytes s) (hle : front <+: bytes) : Holds base front s :=
  ⟨h.base, h.size, hle.trans h.bytes⟩

theorem Holds.length_le (h : Holds base bytes s) : bytes.length ≤ heapSize :=
  h.size ▸ h.bytes.length_le

theorem Holds.load (h : Holds base (front ++ mid) s) :
    s.load (base + front.length) mid.length = some mid := by
  have hlen := h.length_le
  obtain ⟨rest, hheap⟩ := h.bytes
  rw [List.length_append] at hlen
  rw [State.load, h.base, if_pos (Nat.le_add_right _ _), Nat.add_sub_cancel_left, Buffer.load,
    h.size, if_pos hlen, ← hheap, List.append_assoc, List.drop_left, List.take_left]

theorem Holds.store (h : Holds base bytes s) (hfits : bytes.length + mid.length ≤ heapSize) :
    ∃ t, s.store (base + bytes.length) mid = some t ∧ Holds base (bytes ++ mid) t ∧
      t = { s with heap := t.heap } := by
  obtain ⟨heap, hstore, hlen, hprefix⟩ := Buffer.store_after mid h.bytes (by rwa [h.size])
  refine ⟨{ s with heap := heap }, ?_, ⟨h.base, hlen.trans h.size, hprefix⟩, rfl⟩
  rw [State.store, h.base, if_pos (Nat.le_add_right _ _), Nat.add_sub_cancel_left, hstore,
    Option.map_some]

/-- There is only one way to go on. -/
theorem inevitably_step {F : State → Prop} (hstep : next s .step = some t)
    (hread : ∀ count, next s (.read count) = none) (h : Inevitably next F t) :
    Inevitably next F s := by
  refine .later ⟨.step, t, hstep⟩ fun l t' hl => ?_
  cases l with
  | read count =>
    rw [hread] at hl
    cases hl
  | step =>
    rw [hstep] at hl
    cases hl
    exact h

/-- Every text behind a newline ends with a line. -/
theorem exists_last_line (p : Bytes) :
    ∃ front last : Bytes, 10 :: p = front ++ 10 :: last ∧ 10 ∉ last := by
  induction p using List.reverseRecOn with
  | nil => exact ⟨[], [], rfl, List.not_mem_nil⟩
  | append_singleton p c ih =>
    obtain ⟨front, last, heq, hlast⟩ := ih
    by_cases hc : c = 10
    · exact ⟨10 :: p, [], by rw [hc]; rfl, List.not_mem_nil⟩
    · refine ⟨front, last ++ [c], by rw [← List.cons_append, heq]; simp, ?_⟩
      simp [hlast, Ne.symm hc]

theorem linesReversed_line (h : 10 ∉ last) : linesReversed last = last ++ [10] := by
  rw [linesReversed, List.splitOn_eq_singleton h]
  simp

theorem linesReversed_append (h : 10 ∉ last) :
    linesReversed (p ++ 10 :: last) = last ++ [10] ++ linesReversed p := by
  rw [linesReversed, List.splitOn_append_cons_self, List.splitOn_eq_singleton h]
  simp [linesReversed]

theorem inevitably_find {F : State → Prop} (hpc : s.pc = .find_newline_begin)
    (hstep : findNewline s = some t) (h : Inevitably next F t) : Inevitably next F s := by
  have hnext : next s .step = findNewline s := by
    unfold next
    rw [hpc]
  apply inevitably_step (hnext.trans hstep) _ h
  intro count
  unfold next
  rw [hpc]

/-- The search goes back to the newline before the line, which is then printed. -/
theorem find_line {F : State → Prop} {seen line : Bytes} (hbase : base + heapSize < 2 ^ 63)
    (h : Holds base (front ++ 10 :: line) s) (hpc : s.pc = .find_newline_begin)
    (hseen : seen <+: line) (hnot : 10 ∉ seen)
    (hrbx : s.rbx = base + (front ++ 10 :: seen).length)
    (hrsp : s.rsp + 1 = base + (front ++ 10 :: line).length)
    (hthen : Inevitably next F { s with
      rbx := base + front.length
      rsp := base + front.length
      output := s.output ++ line
      pc := if 0 < front.length then .find_newline_begin else .exit }) : Inevitably next F s := by
  have hlen := h.length_le
  have hle := hseen.length_le
  rw [List.length_append, List.length_cons] at hlen hrsp hrbx
  induction seen using List.reverseRecOn generalizing s with
  | nil =>
    rw [List.length_nil] at hrbx
    have hdec : dec s.rbx = base + front.length := by
      rw [dec_eq (by omega) (by omega)]
      omega
    have hbyte : s.load (base + front.length) 1 = some [10] :=
      (h.mono ⟨line, by simp⟩ : Holds base (front ++ [10]) s).load
    have hline : s.load (base + front.length + 1) line.length = some line := by
      have hfront : Holds base ((front ++ [10]) ++ line) s := by simpa using h
      have hload := hfront.load
      rwa [List.length_append, List.length_singleton, ← Nat.add_assoc] at hload
    have hrcx : (s.rsp + (2 ^ 64 - (base + front.length))) % 2 ^ 64 = line.length := by omega
    have hpos : i64 s.rbp < i64 (base + front.length : ℕ) ↔ 0 < front.length := by
      rw [h.base, i64_natCast (by omega), i64_natCast (by omega)]
      omega
    have hinc : inc (base + front.length) = base + front.length + 1 := inc_eq (by omega)
    refine inevitably_find hpc ?_ hthen
    simp only [findNewline, hdec, hbyte, Option.bind_some, ne_eq, not_true_eq_false, if_false,
      hinc, hrcx, hline, Option.map_some, hpos]
  | append_singleton seen c ih =>
    rw [List.length_append, List.length_singleton] at hrbx hle
    obtain ⟨hnot, hc⟩ : 10 ∉ seen ∧ 10 ≠ c := by simpa using hnot
    have hdec : dec s.rbx = base + (front ++ 10 :: seen).length := by
      rw [dec_eq (by omega) (by omega), List.length_append, List.length_cons]
      omega
    have hbyte : s.load (base + (front ++ 10 :: seen).length) 1 = some [c] := by
      obtain ⟨rest, rfl⟩ := hseen
      exact (h.mono ⟨rest, by simp⟩ : Holds base ((front ++ 10 :: seen) ++ [c]) s).load
    have hstep : findNewline s = some { s with rbx := base + (front ++ 10 :: seen).length } := by
      rw [findNewline, hdec]
      simp only [hbyte, Option.bind_some]
      rw [if_pos]
      simpa using Ne.symm hc
    refine inevitably_find hpc hstep ?_
    refine ih ⟨h.base, h.size, h.bytes⟩ hpc ((List.prefix_append _ _).trans hseen) hnot ?_ hrsp
      hthen (by omega)
    rw [List.length_append, List.length_cons]

/-- From the end on, the lines are printed one after the other. -/
theorem find_lines (hbase : base + heapSize < 2 ^ 63) (h : Holds base (10 :: p ++ [10]) s)
    (hpc : s.pc = .find_newline_begin) (hrbx : s.rbx = base + (10 :: p).length)
    (hrsp : s.rsp = s.rbx) (hout : s.output ++ linesReversed p = output) :
    Inevitably next (Printed output) s := by
  induction hn : p.length using Nat.strongRecOn generalizing p s with
  | ind n ih =>
    obtain ⟨front, last, hp, hlast⟩ := exists_last_line p
    have hshort : front.length + last.length = n := by
      have hlen := congrArg List.length hp
      simp only [List.length_append, List.length_cons] at hlen
      omega
    rw [hp, List.append_assoc, List.cons_append] at h
    rw [hp] at hrbx
    refine find_line hbase h hpc (List.prefix_append _ _) hlast hrbx ?_ ?_
    · rw [hrsp, hrbx]
      simp only [List.length_append, List.length_cons, List.length_nil]
      omega
    · cases front with
      | nil =>
        obtain rfl : p = last := List.cons.inj hp |>.2
        refine .here ⟨rfl, ?_⟩
        rw [← hout, linesReversed_line hlast]
      | cons c front =>
        obtain ⟨rfl, hp'⟩ : 10 = c ∧ p = front ++ 10 :: last := List.cons.inj hp
        have hholds : Holds base (10 :: front ++ [10]) s := h.mono ⟨last ++ [10], by simp⟩
        rw [List.length_cons] at hshort
        refine ih front.length (by omega) ⟨hholds.base, hholds.size, hholds.bytes⟩ ?_ rfl rfl ?_ rfl
        · simp
        · rw [← hout, hp', linesReversed_append hlast]
          simp only [List.append_assoc]

theorem inevitably_strip {F : State → Prop} (hpc : s.pc = .strip_spaces)
    (hstep : stripSpaces s = some t) (h : Inevitably next F t) : Inevitably next F s := by
  have hnext : next s .step = stripSpaces s := by
    unfold next
    rw [hpc]
  apply inevitably_step (hnext.trans hstep) _ h
  intro count
  unfold next
  rw [hpc]

/-- The spaces and newlines at the end are left out. -/
theorem strip_spaces (hbase : base + heapSize < 2 ^ 63) (h : Holds base (10 :: p) s)
    (hpc : s.pc = .strip_spaces) (hrsp : s.rsp = base + (10 :: p).length)
    (hout : s.output = []) (hroom : p.length + 9 ≤ heapSize) :
    Inevitably next (Printed (expected p)) s := by
  have hlen := h.length_le
  rw [List.length_cons] at hlen hrsp
  induction p using List.reverseRecOn generalizing s with
  | nil =>
    have hdec : dec s.rsp = base := by
      rw [List.length_nil] at hrsp
      rw [dec_eq (by omega) (by omega)]
      omega
    have hstep : stripSpaces s = some { s with rsp := base, pc := .exit } := by
      simp only [stripSpaces, hdec, h.base, le_refl, if_true]
    exact inevitably_strip hpc hstep (.here ⟨rfl, hout⟩)
  | append_singleton p c ih =>
    rw [List.length_append, List.length_singleton] at hlen hrsp hroom
    have hdec : dec s.rsp = base + (p.length + 1) := by
      rw [dec_eq (by omega) (by omega)]
      omega
    have habove : ¬ i64 (base + (p.length + 1) : ℕ) ≤ i64 s.rbp := by
      rw [h.base, i64_natCast (by omega), i64_natCast (by omega)]
      omega
    have hbyte : s.load (base + (p.length + 1)) 1 = some [c] :=
      (show Holds base (10 :: p ++ [c]) s from h).load
    by_cases hc : c = 10 ∨ c = 32
    · have hexpected : expected (p ++ [c]) = expected p := by
        rw [expected, expected, stripped, stripped, List.rdropWhile_concat_pos]
        simpa using hc
      have hstep : stripSpaces s = some { s with rsp := base + (p.length + 1) } := by
        simp only [stripSpaces, hdec, if_neg habove, hbyte, Option.bind_some]
        rcases hc with rfl | rfl
        · rfl
        · rfl
      have hshort : Holds base (10 :: p) s := h.mono (List.prefix_append (10 :: p) [c])
      rw [hexpected]
      exact inevitably_strip hpc hstep (ih ⟨hshort.base, hshort.size, hshort.bytes⟩ hpc rfl hout
        (by omega) (by omega))
    · have hexpected : expected (p ++ [c]) = linesReversed (p ++ [c]) := by
        rw [expected, stripped, List.rdropWhile_concat_neg]
        · simp
        · simpa using hc
      have hsize : newlineWord.length = 8 := rfl
      obtain ⟨t, hstore, ht, heq⟩ := h.store (show (10 :: (p ++ [c])).length + newlineWord.length ≤
        heapSize by rw [List.length_cons, List.length_append, List.length_singleton]; omega)
      have hlast : base + (10 :: (p ++ [c])).length = base + (p.length + 1) + 1 := by
        rw [List.length_cons, List.length_append, List.length_singleton]
        omega
      rw [hlast] at hstore
      rw [hexpected]
      have hinc : inc (base + (p.length + 1)) = base + (p.length + 1) + 1 := inc_eq (by omega)
      have hstep : stripSpaces s = some { t with
          rsp := base + (p.length + 1) + 1
          rbx := base + (p.length + 1) + 1
          pc := .find_newline_begin } := by
        simp only [stripSpaces, hdec, if_neg habove, hbyte, Option.bind_some, hinc, hstore,
          Option.map_some]
        rw [if_neg, if_neg]
        · simpa using fun h => hc (.inr h)
        · simpa using fun h => hc (.inl h)
      have hnewline : Holds base (10 :: (p ++ [c]) ++ [10]) t :=
        ht.mono ((List.prefix_append_right_inj _).mpr ⟨newlineWord.tail, rfl⟩)
      refine inevitably_strip hpc hstep (find_lines hbase
        ⟨hnewline.base, hnewline.size, hnewline.bytes⟩ rfl hlast.symm rfl ?_)
      rw [heq]
      exact congrArg (· ++ linesReversed (p ++ [c])) hout

/-- What is read comes behind what the heap holds. -/
theorem readBegin_stored {count : ℕ} (h : Holds base bytes s) (hrsp : s.rsp = base + bytes.length)
    (hroom : bytes.length + 10000 ≤ heapSize) (hcount : count ≤ min 10000 s.input.length)
    (hend : count = 0 ↔ s.input = []) :
    ∃ t, readBegin s count = some (afterRead { t with input := s.input.drop count } count) ∧
      Holds base (bytes ++ s.input.take count) t ∧ t = { s with heap := t.heap } := by
  have hload : (s.load s.rsp 10000).isSome := by
    rw [State.load, h.base, if_pos (by omega), Buffer.load, h.size, if_pos (by omega)]
    rfl
  have hfits : bytes.length + (s.input.take count).length ≤ heapSize := by
    rw [List.length_take]
    omega
  obtain ⟨t, hstore, ht, heq⟩ := h.store hfits
  have hsame : t.input = s.input := by rw [heq]
  refine ⟨t, ?_, ht, heq⟩
  rw [readBegin, if_pos ⟨hcount, hend, hload⟩, hrsp, hstore, Option.map_some, hsame]

theorem afterRead_natCast (s : State) (count : ℕ) : afterRead s count =
    { s with
      rsp := (s.rsp + count) % 2 ^ 64
      pc := if count = 0 then .strip_spaces else .read_begin } := by
  by_cases hcount : count = 0
  · simp [afterRead, hcount]
  · simp [afterRead, hcount]

/-- The whole input is read behind the newline. -/
theorem read_begin {input done : Bytes} (hbase : base + heapSize < 2 ^ 63)
    (hinput : input.length < 39990000) (h : Holds base (10 :: done) s)
    (hpc : s.pc = .read_begin) (hrsp : s.rsp = base + (10 :: done).length)
    (hout : s.output = []) (hdone : done ++ s.input = input) :
    Inevitably next (Printed (expected input)) s := by
  induction hn : s.input.length using Nat.strongRecOn generalizing done s with
  | ind n ih =>
    have hlen := congrArg List.length hdone
    rw [List.length_append] at hlen
    have hbehind : (10 :: done).length = done.length + 1 := List.length_cons
    have hroom : (10 :: done).length + 10000 ≤ heapSize := by
      unfold heapSize
      omega
    have hnext (count : ℕ) : next s (.read count) = readBegin s count := by
      unfold next
      rw [hpc]
    refine .later ?_ fun l u hu => ?_
    · have hend : min 10000 s.input.length = 0 ↔ s.input = [] := by
        rw [← List.length_eq_zero_iff]
        omega
      obtain ⟨t, ht, _⟩ := readBegin_stored h hrsp hroom le_rfl hend
      exact ⟨.read (min 10000 s.input.length), _, (hnext _).trans ht⟩
    · cases l with
      | step =>
        unfold next at hu
        rw [hpc] at hu
        cases hu
      | read count =>
        rw [hnext] at hu
        obtain ⟨hcount, hend⟩ : count ≤ min 10000 s.input.length ∧ (count = 0 ↔ s.input = []) := by
          unfold readBegin at hu
          split_ifs at hu with hguard
          exact ⟨hguard.1, hguard.2.1⟩
        obtain ⟨t, ht, hholds, heq⟩ := readBegin_stored h hrsp hroom hcount hend
        rw [ht, Option.some.injEq, afterRead_natCast] at hu
        subst hu
        have htrsp : t.rsp = base + (10 :: done).length := by rw [heq, hrsp]
        have htout : t.output = [] := by rw [heq, hout]
        by_cases hzero : count = 0
        · rw [if_pos hzero]
          rw [hend.mp hzero, List.append_nil] at hdone
          rw [hzero, List.take_zero, List.append_nil] at hholds
          rw [← hdone]
          refine strip_spaces hbase ?_ rfl ?_ htout ?_
          · exact ⟨hholds.base, hholds.size, hholds.bytes⟩
          · simp only [htrsp, hzero]
            omega
          · omega
        · rw [if_neg hzero]
          have hless : (s.input.drop count).length < n := by
            rw [List.length_drop]
            omega
          refine ih _ hless (?_ : Holds base (10 :: (done ++ s.input.take count)) _) rfl ?_ htout
            ?_ rfl
          · exact ⟨hholds.base, hholds.size, hholds.bytes⟩
          · simp only [htrsp, List.length_cons, List.length_append, List.length_take]
            omega
          · simpa using hdone

/-- There is no step that accesses memory outside the heap. -/
theorem reverse_lines {heap input : Bytes} (hbase : base + heapSize < 2 ^ 63)
    (hheap : heap.length = heapSize) (hinput : input.length < 39990000) :
    Inevitably next (Printed (expected input)) (initial base heap input) := by
  have hempty : Holds base [] (initial base heap input) := ⟨rfl, hheap, List.nil_prefix⟩
  have hfits : ([] : Bytes).length + newlineWord.length ≤ heapSize := by decide
  obtain ⟨t, hstore, ht, heq⟩ := hempty.store hfits
  have hinc : inc base = base + 1 := inc_eq (by omega)
  have hstart : start (initial base heap input) =
      some { t with rsp := base + 1, pc := .read_begin } := by
    have hrsp : t.rsp = base := by rw [heq]; rfl
    have hstore' : (initial base heap input).store base newlineWord = some t := hstore
    rw [start, show (initial base heap input).rbp = base from rfl, hstore', Option.map_some, hrsp,
      hinc]
  have hnewline : Holds base [10] t := ht.mono ⟨newlineWord.tail, rfl⟩
  refine inevitably_step hstart (fun _ => rfl) ?_
  refine read_begin hbase hinput (?_ : Holds base [10] _) rfl rfl ?_ ?_
  · exact ⟨hnewline.base, hnewline.size, hnewline.bytes⟩
  · rw [heq]
    rfl
  · rw [heq]
    rfl

/-- `"ab\nc \n"` is printed as `"c\nab\n"`. -/
theorem reverse_lines_two :
    4096 + heapSize < 2 ^ 63 ∧ (List.replicate heapSize (0 : UInt8)).length = heapSize ∧
      Inevitably next (Printed [99, 10, 97, 98, 10])
        (initial 4096 (List.replicate heapSize 0) [97, 98, 10, 99, 32, 10]) := by
  have hexpected : expected [97, 98, 10, 99, 32, 10] = [99, 10, 97, 98, 10] := by decide
  refine ⟨by decide, List.length_replicate, ?_⟩
  rw [← hexpected]
  exact reverse_lines (by decide) List.length_replicate (by decide)

end
end Acos.ReverseLines
