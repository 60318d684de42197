import Acos.Lib.FinSum
import Acos.ReadFds.Model

/-! All streams are read to their ends, in whatever order. Their bytes are counted in an `int`. -/
namespace Acos.ReadFds
open Acos.FinSum Acos.MachineInt Acos.Transition

/-- 1 for an open stream. -/
def openOne (left : Option ℕ) : ℕ := if left.isSome then 1 else 0

def openCount (streams : Streams) (left : ℕ → Option ℕ) : ℕ :=
  ∑ fd ∈ streams.fds, openOne (left fd)

/-- The bytes that are left. -/
def bytesLeft (streams : Streams) (left : ℕ → Option ℕ) : ℕ :=
  ∑ fd ∈ streams.fds, (left fd).getD 0

/-- What the function returns. -/
def Streams.result (streams : Streams) : ℤ := u64 (i32 streams.total)

structure Inv (streams : Streams) (s : State) : Prop where
  known : ∀ fd, (s.left fd).isSome → fd ∈ streams.fds
  complete : s.files_complete + openCount streams s.left = streams.count
  bytes : s.all_bytes = i32 (streams.total - bytesLeft streams s.left)
  le : bytesLeft streams s.left ≤ streams.total
  events : ∀ events, s.pc = .events events →
    events.Nodup ∧ ∀ fd ∈ events, (s.left fd).isSome
  output : ∀ value, s.pc = .returned value → value = streams.result

section
variable {streams : Streams} {s t : State} {l : Label} {fd : ℕ} {left left' : ℕ → Option ℕ}

theorem count_lt (streams : Streams) : streams.count < 2 ^ 31 := by
  have hsub : insert streams.epoll_fd streams.fds ⊆ Finset.range (2 ^ 31) :=
    fun fd hfd => Finset.mem_range.mpr (streams.small fd hfd)
  have hcard := Finset.card_le_card hsub
  rw [Finset.card_insert_of_notMem streams.fresh, Finset.card_range] at hcard
  exact hcard

theorem initial_bytesLeft (streams : Streams) :
    bytesLeft streams (initial streams).left = streams.total :=
  Finset.sum_congr rfl fun fd hfd => by simp [initial, hfd]

theorem initial_inv (streams : Streams) : Inv streams (initial streams) where
  known fd h := by
    by_contra hfd
    simp [initial, hfd] at h
  complete := by
    have hopen : openCount streams (initial streams).left = ∑ _fd ∈ streams.fds, 1 :=
      Finset.sum_congr rfl fun fd hfd => by simp [initial, hfd, openOne]
    rw [hopen, ← Finset.card_eq_sum_ones]
    exact Nat.zero_add _
  bytes := by
    rw [initial_bytesLeft, sub_self]
    exact show (0 : ℤ) = i32 0 by decide
  le := (initial_bytesLeft streams).le
  events events h := by simp [initial] at h
  output value h := by simp [initial] at h

theorem openCount_change (left : ℕ → Option ℕ) (hfd : fd ∈ streams.fds) (now : Option ℕ) :
    openCount streams (Function.update left fd now) + openOne (left fd) =
      openCount streams left + openOne now := by
  have hchange := sum_change (f := fun j => openOne (left j))
    (g := fun j => openOne (Function.update left fd now j)) hfd
    fun j hj => by rw [Function.update_of_ne hj]
  rwa [Function.update_self] at hchange

theorem bytesLeft_change (left : ℕ → Option ℕ) (hfd : fd ∈ streams.fds) (now : Option ℕ) :
    bytesLeft streams (Function.update left fd now) + (left fd).getD 0 =
      bytesLeft streams left + now.getD 0 := by
  have hchange := sum_change (f := fun j => (left j).getD 0)
    (g := fun j => (Function.update left fd now j).getD 0) hfd
    fun j hj => by rw [Function.update_of_ne hj]
  rwa [Function.update_self] at hchange

theorem maxEvents_eq (hlt : s.files_complete < streams.count) :
    maxEvents streams s = streams.count - s.files_complete := by
  have hcount := count_lt streams
  unfold maxEvents u64 i32
  omega

/-- The events of a batch are open streams, each once. -/
theorem waitEvents_eq_some {events : List ℕ} (hlt : s.files_complete < streams.count)
    (h : waitEvents streams s events = some t) :
    events ≠ [] ∧ events.Nodup ∧ (∀ fd ∈ events, (s.left fd).isSome) ∧
      t = { s with pc := .events events } := by
  have hmax := maxEvents_eq hlt
  rw [waitEvents, if_pos (by omega), Option.ite_none_right_eq_some, Option.some.injEq] at h
  exact ⟨h.1.1, h.1.2.1, h.1.2.2.2, h.2.symm⟩

/-- A stream is closed at its end, or some of its bytes are read. -/
theorem readEvent_eq_some {events : List ℕ} {k : ℕ} (h : readEvent s fd events k = some t) :
    (s.left fd = some 0 ∧ t = { s with
      left := Function.update s.left fd none
      files_complete := s.files_complete + 1
      pc := .events events }) ∨
    ∃ left, s.left fd = some left ∧ 0 < k ∧ k ≤ left ∧ t = { s with
      left := Function.update s.left fd (some (left - k))
      all_bytes := i32 (s.all_bytes + k)
      pc := .events events } := by
  unfold readEvent at h
  cases hleft : s.left fd with
  | none => simp [hleft] at h
  | some left =>
    simp only [hleft, Option.ite_none_right_eq_some] at h
    obtain ⟨⟨hle, hiff⟩, h⟩ := h
    by_cases hk : k = 0
    · rw [if_pos hk, Option.some.injEq] at h
      exact .inl ⟨congrArg some (hiff.mp hk), h.symm⟩
    · rw [if_neg hk, Option.some.injEq] at h
      exact .inr ⟨left, rfl, by omega, by omega, h.symm⟩

def Pc.rank : Pc → ℕ
  | .events [] => 3
  | .loop => 2
  | .events _ => 1
  | .returned _ => 0

theorem Pc.rank_events_le (events : List ℕ) : (Pc.events events).rank ≤ 3 := by
  cases events with
  | nil => exact le_rfl
  | cons fd events => exact Nat.le_add_left 1 2

/-- The steps that are left, or more. -/
def State.rank (streams : Streams) (s : State) : ℕ :=
  3 * (bytesLeft streams s.left + openCount streams s.left) + s.pc.rank

theorem readEvent_inv {events : List ℕ} {k : ℕ} (h : Inv streams s)
    (hpc : s.pc = .events (fd :: events)) (hstep : readEvent s fd events k = some t) :
    Inv streams t ∧ t.rank streams < s.rank streams := by
  obtain ⟨hknown, hcomplete, hbytes, hle, hevents, _⟩ := h
  obtain ⟨hnodup, hopen⟩ := hevents _ hpc
  obtain ⟨hnot, hrest⟩ := List.nodup_cons.mp hnodup
  obtain ⟨hfd, hothers⟩ := List.forall_mem_cons.mp hopen
  have hmem := hknown fd hfd
  have hknown' (now : Option ℕ) (j : ℕ) (hj : (Function.update s.left fd now j).isSome) :
      j ∈ streams.fds := by
    by_cases heq : j = fd
    · rwa [heq]
    · rw [Function.update_of_ne heq] at hj
      exact hknown j hj
  have hopen' (now : Option ℕ) : ∀ events', Pc.events events = .events events' →
      events'.Nodup ∧ ∀ j ∈ events', (Function.update s.left fd now j).isSome := by
    rintro _ ⟨⟩
    refine ⟨hrest, fun j hj => ?_⟩
    rw [Function.update_of_ne (ne_of_mem_of_not_mem hj hnot)]
    exact hothers j hj
  have hrank := Pc.rank_events_le events
  have hfirst : (Pc.events (fd :: events)).rank = 1 := rfl
  rcases readEvent_eq_some hstep with ⟨hleft, rfl⟩ | ⟨left, hleft, hpos, hk, rfl⟩
  · have hcount := openCount_change s.left hmem none
    have hsum := bytesLeft_change s.left hmem none
    simp only [hleft, openOne, Option.isSome_some, Option.isSome_none, if_true, Bool.false_eq_true,
      if_false, Option.getD_some, Option.getD_none] at hcount hsum
    refine ⟨⟨hknown' none, ?_, ?_, ?_, hopen' none, nofun⟩, ?_⟩
    · simp only
      omega
    · simp only
      rw [hbytes]
      congr 2
      omega
    · simp only
      omega
    · unfold State.rank
      rw [hpc, hfirst]
      simp only
      omega
  · have hcount := openCount_change s.left hmem (some (left - k))
    have hsum := bytesLeft_change s.left hmem (some (left - k))
    simp only [hleft, openOne, Option.isSome_some, if_true, Option.getD_some] at hcount hsum
    refine ⟨⟨hknown' _, ?_, ?_, ?_, hopen' _, nofun⟩, ?_⟩
    · simp only
      omega
    · have hbefore : (bytesLeft streams s.left : ℤ) =
          bytesLeft streams (Function.update s.left fd (some (left - k))) + k := by omega
      simp only
      rw [hbytes, hbefore]
      unfold i32
      omega
    · simp only
      omega
    · unfold State.rank
      rw [hpc, hfirst]
      simp only
      omega

/-- When every stream is complete, all bytes are counted. -/
theorem Inv.result (h : Inv streams s) (hdone : ¬ s.files_complete < streams.count) :
    u64 s.all_bytes = streams.result := by
  have hopen : openCount streams s.left = 0 := by
    have hcomplete := h.complete
    omega
  have hzero : bytesLeft streams s.left = 0 := by
    refine Finset.sum_eq_zero fun fd hfd => ?_
    have hone : openOne (s.left fd) = 0 := Finset.sum_eq_zero_iff.mp hopen fd hfd
    cases hleft : s.left fd with
    | none => rfl
    | some left => simp [hleft, openOne] at hone
  rw [h.bytes, hzero, Streams.result]
  simp

theorem next_inv (h : Inv streams s) (hstep : next streams s l = some t) :
    Inv streams t ∧ t.rank streams < s.rank streams := by
  unfold next at hstep
  split at hstep
  next events hpc =>
    rw [Option.ite_none_right_eq_some] at hstep
    obtain ⟨hne, hnodup, hopen, rfl⟩ := waitEvents_eq_some hstep.1 hstep.2
    obtain ⟨hknown, hcomplete, hbytes, hle, _, _⟩ := h
    refine ⟨⟨hknown, hcomplete, hbytes, hle, ?_, nofun⟩, ?_⟩
    · rintro _ ⟨⟩
      exact ⟨hnodup, hopen⟩
    · obtain ⟨fd, rest, rfl⟩ := List.exists_cons_of_ne_nil hne
      unfold State.rank
      rw [hpc]
      exact Nat.add_lt_add_left (Nat.lt_succ_self _) _
  next hpc =>
    rw [Option.ite_none_left_eq_some, Option.some.injEq] at hstep
    obtain ⟨hdone, rfl⟩ := hstep
    have hresult := h.result hdone
    obtain ⟨hknown, hcomplete, hbytes, hle, _, _⟩ := h
    refine ⟨⟨hknown, hcomplete, hbytes, hle, nofun, ?_⟩, ?_⟩
    · rintro _ ⟨⟩
      exact hresult
    · unfold State.rank
      rw [hpc]
      exact Nat.add_lt_add_left (Nat.succ_pos _) _
  next fd events k hpc => exact readEvent_inv h hpc hstep
  next hpc =>
    obtain rfl := Option.some.inj hstep
    obtain ⟨hknown, hcomplete, hbytes, hle, _, _⟩ := h
    refine ⟨⟨hknown, hcomplete, hbytes, hle, nofun, nofun⟩, ?_⟩
    unfold State.rank
    rw [hpc]
    exact Nat.add_lt_add_left (Nat.lt_succ_self _) _
  next => cases hstep

/-- While a stream is open, it can be reported. -/
theorem exists_wait (h : Inv streams s) (hlt : s.files_complete < streams.count) :
    ∃ events t, waitEvents streams s events = some t := by
  have hopen : ∃ fd ∈ streams.fds, (s.left fd).isSome := by
    by_contra hnone
    have hzero : openCount streams s.left = 0 := Finset.sum_eq_zero fun fd hfd =>
      if_neg fun hsome => hnone ⟨fd, hfd, hsome⟩
    have hcomplete := h.complete
    omega
  obtain ⟨fd, _, hsome⟩ := hopen
  have hmax := maxEvents_eq hlt
  have hone : (([fd] : List ℕ).length : ℤ) ≤ maxEvents streams s := by
    rw [List.length_singleton]
    omega
  refine ⟨[fd], _,
    (if_pos (show 0 < maxEvents streams s by omega)).trans (if_pos ⟨?_, ?_, hone, ?_⟩)⟩
  · exact List.cons_ne_nil fd []
  · exact List.nodup_singleton fd
  · exact List.forall_mem_singleton.mpr hsome

theorem exists_next (h : Inv streams s) (hpc : ∀ value, s.pc ≠ .returned value) :
    ∃ l t, next streams s l = some t := by
  cases hs : s.pc with
  | loop =>
    by_cases hlt : s.files_complete < streams.count
    · obtain ⟨events, t, hwait⟩ := exists_wait h hlt
      exact ⟨.wait events, t, by simp [next, hs, hlt, hwait]⟩
    · exact ⟨.test, _, by simp [next, hs, hlt]; rfl⟩
  | events events =>
    cases events with
    | nil => exact ⟨.test, _, by simp [next, hs]; rfl⟩
    | cons fd events =>
      have hsome := (h.events _ hs).2 fd List.mem_cons_self
      obtain ⟨left, hleft⟩ := Option.isSome_iff_exists.mp hsome
      by_cases hzero : left = 0
      · exact ⟨.read 0, _, by simp [next, hs, readEvent, hleft, hzero]; rfl⟩
      · have hone : 1 ≤ left := by omega
        exact ⟨.read 1, _, by simp [next, hs, readEvent, hleft, hzero, hone]; rfl⟩
  | returned value => exact absurd hs (hpc value)

end

/-- Every run returns, and always the same value. -/
theorem read_data_and_count_returns (streams : Streams) :
    Inevitably (next streams) (fun s => s.pc = .returned streams.result) (initial streams) := by
  refine inevitably_of_measure (I := Inv streams) (State.rank streams) (fun s hs hnot => ?_)
    (fun s l t hs _ hstep => next_inv hs hstep) (initial_inv streams)
  refine exists_next hs fun value hpc => hnot ?_
  rw [hpc, hs.output value hpc]

theorem result_eq_total_iff (streams : Streams) : streams.result = streams.total ↔
    streams.total < 2 ^ 31 ∨ 2 ^ 64 - 2 ^ 31 ≤ streams.total ∧ streams.total < 2 ^ 64 := by
  unfold Streams.result u64 i32
  omega

theorem returns_total_iff (streams : Streams) :
    Inevitably (next streams) (fun s => s.pc = .returned streams.total) (initial streams) ↔
      streams.result = streams.total := by
  constructor
  · intro hreturns
    by_contra hne
    refine not_inevitably_of_invariant (I := Inv streams) (fun s hs hpc => ?_)
      (fun s l t hs hstep => (next_inv hs hstep).1) (initial_inv streams) hreturns
    exact hne (hs.output _ hpc).symm
  · intro heq
    rw [← heq]
    exact read_data_and_count_returns streams

/-- The function returns the number of all bytes exactly when that fits an `int`, or when it is one
of the last `2 ^ 31` numbers of a `size_t`. -/
theorem read_data_and_count_iff (streams : Streams) :
    Inevitably (next streams) (fun s => s.pc = .returned streams.total) (initial streams) ↔
      streams.total < 2 ^ 31 ∨ 2 ^ 64 - 2 ^ 31 ≤ streams.total ∧ streams.total < 2 ^ 64 := by
  rw [returns_total_iff, result_eq_total_iff]

/-- One stream, on descriptor 3, of 2 GiB. -/
def twoGiB : Streams where
  fds := {3}
  epoll_fd := 4
  length _ := 2 ^ 31
  fresh := by decide
  small := by decide

theorem read_data_and_count_overflows :
    ¬ Inevitably (next twoGiB) (fun s => s.pc = .returned twoGiB.total) (initial twoGiB) := by
  rw [returns_total_iff]
  decide

end Acos.ReadFds
