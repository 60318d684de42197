import Acos.Lib.Lists
import Acos.PrintList.Digits

/-! The traversal follows the pointers from item to item; what it has printed is in the output and
the buffer together. -/
namespace Acos.PrintList
open Acos.CString Acos.IntBytes Acos.Lists Acos.MachineInt

/-- The list that starts at an offset: the offsets of its items with their values. -/
inductive Chain (file : Bytes) : ℕ → List (ℕ × ℤ) → Prop
  | last {p : ℕ} {value : ℤ} (h : getItem file p = some ⟨value, 0⟩) : Chain file p [(p, value)]
  | cons {p q : ℕ} {value : ℤ} {items : List (ℕ × ℤ)} (h : getItem file p = some ⟨value, q⟩)
      (hq : q ≠ 0) (hitems : Chain file q items) : Chain file p ((p, value) :: items)

/-- The decimal representations of the values, each followed by a space. -/
def listing (items : List (ℕ × ℤ)) : Bytes := items.flatMap fun x => decimalInt x.2 ++ [32]

/-- What is printed in place of that. -/
def printedListing (items : List (ℕ × ℤ)) : Bytes :=
  items.flatMap fun x => (printed x.2).getD []

namespace State

/-- Everything printed up to now. -/
def text (s : State) : Bytes := s.output ++ s.buffer

/-- Before an item is read there is room for it in the buffer. -/
def Roomy (s : State) : Prop := s.buffer.length ≤ if s.pc = .check then 982 else 970

end State

section
variable {sched : ℕ → ℕ} {file output buffer : Bytes} {calls n p : ℕ} {s s' : State} {item : Item}
  {items : List (ℕ × ℤ)}

theorem getItem_int32 (h : getItem file p = some item) : IsInt32 item.value := by
  unfold getItem at h
  split at h
  · rw [← Option.some.inj h]
    exact decodeInt_isInt32 _ _ _ _
  · exact absurd h (Option.some_ne_none item).symm

/-- An item as it is stored. -/
theorem getItem_encode (front rest : Bytes) {value q : ℤ} (hvalue : IsInt32 value)
    (hq : IsInt32 q) :
    getItem (front ++ (encodeInts [value, q] ++ rest)) front.length =
      some ⟨value, (u32 q).toNat⟩ := by
  have hitem : getItem (front ++ (encodeInts [value, q] ++ rest)) front.length =
      some ⟨decodeInt (byteOf value) (byteOf (value / 2 ^ 8)) (byteOf (value / 2 ^ 16))
          (byteOf (value / 2 ^ 24)),
        (u32 (decodeInt (byteOf q) (byteOf (q / 2 ^ 8)) (byteOf (q / 2 ^ 16))
          (byteOf (q / 2 ^ 24)))).toNat⟩ := by
    rw [getItem, List.drop_left]
    rfl
  rw [hitem, decodeInt_encodeInt hvalue, decodeInt_encodeInt hq]

theorem writeBytes_output (sched : ℕ → ℕ) (output : Bytes) (calls : ℕ) (buffer : Bytes) :
    (writeBytes sched output calls buffer).1 = output ++ buffer := by
  fun_induction writeBytes sched output calls buffer with
  | case1 output calls buffer hempty =>
    rw [List.eq_nil_of_length_eq_zero hempty, List.append_nil]
  | case2 output calls buffer hsome count ih =>
    rw [ih, List.append_assoc, List.take_append_drop]

theorem flush_text (sched : ℕ → ℕ) (s : State) :
    (s.flush sched).output = s.text ∧ (s.flush sched).buffer = [] :=
  ⟨writeBytes_output sched s.output s.calls s.buffer, rfl⟩

/-- Reading an item puts its characters into the buffer. -/
theorem step_item (sched : ℕ → ℕ) (hpc : s.pc = .item) (hroom : s.buffer.length ≤ 970)
    (hitem : getItem file s.next_pointer = some item) :
    ∃ s', step sched file s = some s' ∧ s'.text = s.text ++ (printed item.value).getD [] ∧
      s'.buffer.length ≤ 982 ∧ s'.pc = .check ∧ s'.next_pointer = item.next_pointer ∧
      s'.visited = s.visited ++ [s.next_pointer] := by
  obtain ⟨chars, hprinted, -, hlen⟩ := printed_fits (getItem_int32 hitem)
  have hfits : s.buffer.length + chars.length ≤ bufferSize := by
    rw [bufferSize]
    omega
  simp only [step, hpc, hitem, print, hprinted, Option.bind_eq_bind, Option.bind_some, if_pos hfits]
  refine ⟨_, rfl, ?_, ?_, rfl, rfl, rfl⟩
  · exact (List.append_assoc _ _ _).symm
  · rw [List.length_append]
    omega

/-- Looking at the buffer moves characters to the output. -/
theorem step_check (sched : ℕ → ℕ) (file : Bytes) (hpc : s.pc = .check) :
    ∃ s', step sched file s = some s' ∧ s'.text = s.text ∧ s'.buffer.length ≤ 970 ∧
      s'.pc = (if s.next_pointer ≠ 0 then .item else .rest) ∧
      s'.next_pointer = s.next_pointer ∧ s'.visited = s.visited := by
  obtain ⟨hout, hbuffer⟩ := flush_text sched s
  simp only [step, hpc]
  refine ⟨_, rfl, ?_⟩
  by_cases hfull : s.buffer.length > bufferSize - 30
  · rw [if_pos hfull, State.text, hout, hbuffer, List.append_nil]
    exact ⟨rfl, Nat.zero_le _, rfl, rfl, rfl⟩
  · rw [if_neg hfull]
    exact ⟨rfl, Nat.le_of_not_lt hfull, rfl, rfl, rfl⟩

theorem step_rest (sched : ℕ → ℕ) (file : Bytes) (hpc : s.pc = .rest) :
    ∃ s', step sched file s = some s' ∧ s'.output = s.text ∧ s'.buffer = [] ∧ s'.pc = .done ∧
      s'.visited = s.visited := by
  obtain ⟨hout, hbuffer⟩ := flush_text sched s
  simp only [step, hpc]
  refine ⟨_, rfl, ?_⟩
  split_ifs with hsome
  · exact ⟨hout, hbuffer, rfl, rfl⟩
  · have hempty := List.eq_nil_of_length_eq_zero (Nat.eq_zero_of_not_pos hsome)
    exact ⟨by rw [State.text, hempty, List.append_nil], hempty, rfl, rfl⟩

theorem run_succ (hrun : run sched file n = some s) (hstep : step sched file s = some s') :
    run sched file (n + 1) = some s' := by
  rw [run, hrun]
  exact hstep

/-- One round of the loop. -/
theorem run_round (hrun : run sched file n = some s) (hpc : s.pc = .item)
    (hroom : s.buffer.length ≤ 970) (hitem : getItem file s.next_pointer = some item) :
    ∃ s', run sched file (n + 2) = some s' ∧ s'.text = s.text ++ (printed item.value).getD [] ∧
      s'.buffer.length ≤ 970 ∧ s'.pc = (if item.next_pointer ≠ 0 then .item else .rest) ∧
      s'.next_pointer = item.next_pointer ∧ s'.visited = s.visited ++ [s.next_pointer] := by
  obtain ⟨t, hstep, htext, -, hpc, hnext, hvisited⟩ := step_item sched hpc hroom hitem
  obtain ⟨s', hstep', htext', hroom', hpc', hnext', hvisited'⟩ :=
    step_check sched file hpc
  refine ⟨s', run_succ (run_succ hrun hstep) hstep', htext'.trans htext, hroom', ?_,
    hnext'.trans hnext, hvisited'.trans hvisited⟩
  rw [hpc', hnext]

/-- From an item on the rest of its list is printed. -/
theorem run_chain (hchain : Chain file p items) (hrun : run sched file n = some s)
    (hpc : s.pc = .item) (hp : s.next_pointer = p) (hroom : s.buffer.length ≤ 970) :
    ∃ k s', run sched file k = some s' ∧ s'.pc = .done ∧
      s'.output = s.text ++ printedListing items ∧
      s'.visited = s.visited ++ items.map Prod.fst := by
  induction hchain generalizing n s with
  | last h =>
    obtain ⟨t, ht, htext, -, hpc, -, hvisited⟩ := run_round hrun hpc hroom (hp ▸ h)
    obtain ⟨s', hstep, hout, -, hdone, hvisited'⟩ :=
      step_rest sched file (hpc.trans (if_neg (by simp)))
    refine ⟨_, s', run_succ ht hstep, hdone, ?_, ?_⟩
    · rw [hout, htext, printedListing, List.flatMap_singleton]
    · rw [hvisited', hvisited, hp]
      rfl
  | cons h hq hitems ih =>
    obtain ⟨t, ht, htext, hroom', hpc, hnext, hvisited⟩ := run_round hrun hpc hroom (hp ▸ h)
    obtain ⟨k, s', hk, hdone, hout, hvisited'⟩ :=
      ih ht (hpc.trans (if_pos hq)) hnext hroom'
    refine ⟨k, s', hk, hdone, ?_, ?_⟩
    · rw [hout, htext, printedListing, printedListing, List.flatMap_cons, List.append_assoc]
    · rw [hvisited', hvisited, hp, List.append_assoc]
      rfl

theorem step_roomy (hroom : s.Roomy) (hstep : step sched file s = some s') : s'.Roomy := by
  unfold State.Roomy at hroom ⊢
  cases hpc : s.pc with
  | item =>
    rw [hpc, if_neg (by decide)] at hroom
    cases hitem : getItem file s.next_pointer with
    | none =>
      rw [step, hpc, hitem] at hstep
      cases hstep
    | some item =>
      obtain ⟨t, ht, -, hlen, hcheck, -⟩ := step_item sched hpc hroom hitem
      rw [← Option.some.inj (ht.symm.trans hstep), hcheck, if_pos rfl]
      exact hlen
  | check =>
    obtain ⟨t, ht, -, hlen, -⟩ := step_check sched file hpc
    rw [← Option.some.inj (ht.symm.trans hstep)]
    split_ifs <;> omega
  | rest =>
    obtain ⟨t, ht, -, hempty, -⟩ := step_rest sched file hpc
    rw [← Option.some.inj (ht.symm.trans hstep), hempty]
    exact Nat.zero_le _
  | done =>
    rw [step, hpc] at hstep
    cases hstep

theorem run_roomy (hrun : run sched file n = some s) : s.Roomy := by
  induction n generalizing s with
  | zero =>
    rw [← Option.some.inj hrun]
    exact Nat.zero_le _
  | succ n ih =>
    obtain ⟨r, hr, hstep⟩ := Option.bind_eq_some_iff.mp hrun
    exact step_roomy (ih hr) hstep

theorem buffer_lt (hrun : run sched file n = some s) : s.buffer.length < bufferSize := by
  have hroom := run_roomy hrun
  unfold State.Roomy at hroom
  rw [bufferSize]
  split_ifs at hroom <;> omega

theorem init_pc (h : 0 < file.length) : (State.init file).pc = .item := if_pos h

theorem Chain.length_pos (h : Chain file 0 items) : 0 < file.length := by
  have hsome : ∃ item, getItem file 0 = some item := by
    cases h with
    | last h => exact ⟨_, h⟩
    | cons h => exact ⟨_, h⟩
  obtain ⟨item, hitem⟩ := hsome
  rw [List.length_pos_iff]
  rintro rfl
  cases hitem

theorem Chain.int32 (h : Chain file p items) : ∀ x ∈ items, IsInt32 x.2 := by
  induction h with
  | last h => exact List.forall_mem_singleton.mpr (getItem_int32 h)
  | cons h _ _ ih => exact List.forall_mem_cons.mpr ⟨getItem_int32 h, ih⟩

/-- Nothing follows the end. -/
theorem run_after_done (hrun : run sched file n = some s) (hdone : s.pc = .done) (k : ℕ) :
    run sched file (n + 1 + k) = none := by
  induction k with
  | zero =>
    rw [Nat.add_zero, run, hrun, Option.bind_some, step, hdone]
  | succ k ih => rw [← Nat.add_assoc, run, ih, Option.bind_none]

theorem done_unique {m : ℕ} (hrun : run sched file n = some s) (hdone : s.pc = .done)
    (hrun' : run sched file m = some s') (hdone' : s'.pc = .done) : s = s' := by
  rcases Nat.lt_trichotomy n m with hlt | heq | hgt
  · obtain ⟨k, rfl⟩ := Nat.exists_eq_add_of_le (Nat.succ_le_of_lt hlt)
    exact absurd ((run_after_done hrun hdone k).symm.trans hrun') (Option.some_ne_none s').symm
  · exact Option.some.inj (hrun.symm.trans (heq ▸ hrun'))
  · obtain ⟨k, rfl⟩ := Nat.exists_eq_add_of_le (Nat.succ_le_of_lt hgt)
    exact absurd ((run_after_done hrun' hdone' k).symm.trans hrun) (Option.some_ne_none s).symm

/-- The text is right where every value is printed right. -/
theorem printedListing_eq_iff (hvalues : ∀ x ∈ items, IsInt32 x.2) :
    printedListing items = listing items ↔ ∀ x ∈ items, x.2 ≠ -2 ^ 31 := by
  rw [printedListing, listing, flatMap_eq_iff]
  · refine forall₂_congr fun x hx => ?_
    by_cases hmin : x.2 = -2 ^ 31
    · obtain ⟨chars, hprinted, -, hne⟩ := printed_min
      rw [hmin, hprinted]
      exact iff_of_false hne (not_not.mpr rfl)
    · rw [printed_eq (hvalues x hx) hmin]
      exact iff_of_true rfl hmin
  · intro x hx
    obtain ⟨chars, hprinted, hlen, -⟩ := printed_fits (hvalues x hx)
    rw [hprinted]
    exact hlen

/-- The program comes to an end, -/
theorem exists_done (sched : ℕ → ℕ) (hchain : Chain file 0 items) :
    ∃ n s, run sched file n = some s ∧ s.pc = .done ∧ s.output = printedListing items ∧
      s.visited = items.map Prod.fst :=
  run_chain hchain (n := 0) rfl (init_pc hchain.length_pos) rfl (Nat.zero_le _)

/-- and it comes to no other. -/
theorem output_of_done (hchain : Chain file 0 items) (hrun : run sched file n = some s)
    (hdone : s.pc = .done) : s.output = printedListing items ∧ s.visited = items.map Prod.fst := by
  obtain ⟨k, t, hk, hdone', hout⟩ := exists_done sched hchain
  rw [done_unique hrun hdone hk hdone']
  exact hout

/-- The list is printed as it should be if and only if the smallest `int` is not in it. -/
theorem print_list_iff (sched : ℕ → ℕ) (hchain : Chain file 0 items) :
    ((∃ n s, run sched file n = some s ∧ s.pc = .done ∧ s.output = listing items) ∧
        ∀ n s, run sched file n = some s → s.buffer.length < bufferSize) ↔
      ∀ x ∈ items, x.2 ≠ -2 ^ 31 := by
  rw [← printedListing_eq_iff hchain.int32]
  constructor
  · rintro ⟨⟨n, s, hrun, hdone, hout⟩, -⟩
    exact (output_of_done hchain hrun hdone).1.symm.trans hout
  · intro heq
    obtain ⟨n, s, hrun, hdone, hout, -⟩ := exists_done sched hchain
    exact ⟨⟨n, s, hrun, hdone, hout.trans heq⟩, fun n s hrun => buffer_lt hrun⟩

end

/-- The value 5 at the start of the file, and -1 behind a gap. -/
def twoItems : Bytes := encodeInts [5, 16] ++ encodeInts [0, 0, -1, 0]

theorem twoItems_chain : Chain twoItems 0 [(0, 5), (16, -1)] := by
  have hfirst : getItem twoItems 0 = some ⟨5, 16⟩ :=
    getItem_encode [] (encodeInts [0, 0, -1, 0]) (by decide) (by decide)
  have hlast : getItem twoItems 16 = some ⟨-1, 0⟩ :=
    getItem_encode (encodeInts [5, 16, 0, 0]) [] (by decide) (by decide)
  exact .cons hfirst (by decide) (.last hlast)

theorem print_list_two :
    (∃ n s, run (fun _ => 0) twoItems n = some s ∧ s.pc = .done ∧
      s.output = listing [(0, 5), (16, -1)]) ∧
    ∀ n s, run (fun _ => 0) twoItems n = some s → s.buffer.length < bufferSize :=
  (print_list_iff (fun _ => 0) twoItems_chain).mpr (by decide)

/-- The only item holds the smallest `int`. -/
theorem print_list_min :
    ¬ ∀ (sched : ℕ → ℕ) (file : Bytes) (items : List (ℕ × ℤ)), Chain file 0 items →
      (∃ n s, run sched file n = some s ∧ s.pc = .done ∧ s.output = listing items) ∧
        ∀ n s, run sched file n = some s → s.buffer.length < bufferSize := by
  intro hall
  have hitem : getItem (encodeInts [-2 ^ 31, 0]) 0 = some ⟨-2 ^ 31, 0⟩ :=
    getItem_encode [] [] (by decide) (by decide)
  obtain ⟨⟨n, s, hrun, hdone, hout⟩, -⟩ := hall (fun _ => 0) _ _ (.last hitem)
  have heq := (output_of_done (.last hitem) hrun hdone).1.symm.trans hout
  exact (printedListing_eq_iff (Chain.last hitem).int32).mp heq _ List.mem_cons_self rfl

end Acos.PrintList
