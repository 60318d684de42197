import Acos.EpollServer.Steps

/-! What the clients get. The server keeps one buffer for a client and always writes from its
start, so the bytes written are right as long as every write empties the buffer and no read
finds it filled. -/
namespace Acos.EpollServer
open Acos.Transition

/-- The bytes written and the bytes that wait in the buffer are those read. -/
def Client.Faithful (conn : Client) : Prop :=
  conn.written ++ conn.buffer.take conn.buffer_len = conn.received.map toupper

/-- The condition on an event of a client: a read that delivers bytes finds nothing waiting in
the buffer, and a write is accepted in full or not at all. -/
def Client.Flushes (conn : Client) (event : Events) (r : ReadResult) (w : WriteResult) : Prop :=
  (delivers event r = true → conn.buffer_len = 0) ∧
    ((event.epollout || delivers event r) = true →
      ∀ count, w = .accepted count → count = 0 ∨ count = conn.pending event r)

/-- The condition on a step. -/
def StepFlushes (s : State) : Label → Prop
  | .client r w => ∀ ready rest i conn, s.events = ready :: rest → ready.conn = some i →
      s.clients[i]? = some conn → conn.Flushes ready.event r w
  | _ => True

section Client
variable {conn : Client} {event : Events} {r : ReadResult} {w : WriteResult}

theorem handleWrite_faithful (h : conn.Faithful)
    (hw : ∀ count, w = .accepted count → count = 0 ∨ count = conn.buffer_len) :
    (handleWrite conn w).2.Faithful := by
  unfold handleWrite
  split_ifs with hinvalid hpending
  · exact h
  · cases w with
    | failed errno => exact h
    | accepted count =>
      rcases hw count rfl with hzero | hall
      · simpa [Client.Faithful, hzero] using h
      · simpa [Client.Faithful, hall] using h
  · exact h

theorem writeEvent_faithful (h : conn.Faithful)
    (hw : event.epollout = true →
      ∀ count, w = .accepted count → count = 0 ∨ count = conn.buffer_len) :
    (writeEvent conn event w).Faithful := by
  unfold writeEvent
  by_cases hout : event.epollout = true
  · have hwrite := handleWrite_faithful h (hw hout)
    rw [if_pos hout]
    dsimp only
    split_ifs
    · exact hwrite
    · exact hwrite
    · exact hwrite
  · rw [if_neg hout]
    exact h

theorem handleRead_faithful (b : UInt8) (bs : List UInt8) (h : conn.Faithful)
    (hempty : conn.buffer_len = 0) : (handleRead conn (.data (b :: bs))).2.Faithful := by
  have hwritten : conn.written = conn.received.map toupper := by
    simpa [Client.Faithful, hempty] using h
  simp [handleRead, Client.Faithful, hwritten]

theorem clientEvent_faithful (h : conn.Faithful) (hf : conn.Flushes event r w) :
    (clientEvent conn event r w).Faithful := by
  obtain ⟨hread, hwrite⟩ := hf
  unfold clientEvent
  by_cases hin : event.epollin = true
  · rw [if_pos hin]
    cases r with
    | failed errno => exact h
    | data bytes =>
      cases bytes with
      | nil =>
        have hold : (writeEvent conn event w).Faithful := by
          apply writeEvent_faithful h
          intro hout count hc
          simpa [Client.pending, hin] using hwrite (by simp [hout]) count hc
        simpa [handleRead] using hold
      | cons b bs =>
        have hdel : delivers event (.data (b :: bs)) = true := by simp [delivers, hin]
        have hfull : ∀ count, w = .accepted count → count = 0 ∨ count = bs.length + 1 := by
          simpa [Client.pending, hin, hdel] using hwrite
        have hnew := handleRead_faithful b bs h (hread hdel)
        have hpos : (0 : ℤ) < ((b :: bs).length : ℕ) := by simp
        have hne : ¬ (((b :: bs).length : ℕ) : ℤ) = -1 := by omega
        simp only [handleRead, reduceCtorEq, if_false, hne, hpos, if_true] at hnew ⊢
        exact writeEvent_faithful hnew fun _ => hfull
  · rw [if_neg hin]
    apply writeEvent_faithful h
    intro hout count hc
    simpa [Client.pending, hin] using hwrite (by simp [hout]) count hc

end Client

theorem initializeConnection_faithful (socket : Socket) :
    (initializeConnection socket).Faithful := by
  simp [initializeConnection, Client.Faithful]

theorem next_faithful {s t : State} {l : Label} (hs : ∀ conn ∈ s.clients, conn.Faithful)
    (hl : StepFlushes s l) (h : next s l = some t) : ∀ conn ∈ t.clients, conn.Faithful := by
  intro conn hmem
  rcases next_cases h with ⟨events, -, -, -, -, rfl⟩ | ⟨-, -, rfl⟩ |
    ⟨ready, rest, ok, -, -, -, -, rfl⟩ | ⟨ready, rest, ok, -, -, -, -, rfl⟩ |
    ⟨ready, rest, i, old, r, w, rfl, hevents, hi, hold, -, rfl⟩
  · exact hs conn hmem
  · exact hs conn hmem
  · exact hs conn hmem
  · rcases List.mem_append.mp hmem with hprev | hlast
    · exact hs conn hprev
    · rw [List.mem_singleton.mp hlast]
      exact initializeConnection_faithful _
  · rcases List.mem_or_eq_of_mem_set hmem with hprev | rfl
    · exact hs conn hprev
    · exact clientEvent_faithful (hs old (List.mem_of_getElem? hold))
        (hl ready rest i old hevents hi hold)

/-- Along a run of steps that flush, every client has been sent a prefix of what it should
get. -/
theorem written_prefix_of_flushes {ls : List Label} {s : State}
    (hflush : Along next StepFlushes initial ls) (hrun : run next initial ls = some s) :
    WritesPrefix s := by
  have hall : ∀ conn ∈ s.clients, conn.Faithful :=
    run_invariant_along (I := fun s => ∀ conn ∈ s.clients, conn.Faithful)
      (fun _ _ _ hs hl hnext => next_faithful hs hl hnext) (by simp [initial]) hflush hrun
  intro conn hconn
  exact ⟨_, hall conn hconn⟩

def readable : Events := ⟨true, false, false, false⟩
def writable : Events := ⟨false, true, false, false⟩

/-- One client is accepted, sends `ab`, and the first write takes `count` bytes of it. -/
def sendsAb (count : ℕ) : List Label :=
  [.wait [⟨none, readable⟩], .accept true, .wait [⟨some 0, readable⟩],
    .client (.data [97, 98]) (.accepted count)]

theorem written_prefix_full_write :
    ∃ s, run next initial (sendsAb 2) = some s ∧ WritesPrefix s := by
  obtain ⟨s, hrun⟩ : ∃ s, run next initial (sendsAb 2) = some s := ⟨_, rfl⟩
  have hclient : ∀ s : State, (∀ conn ∈ s.clients, conn.buffer_len = 0) →
      (∀ ready ∈ s.events, ready.event.epollin = true) →
      StepFlushes s (.client (.data [97, 98]) (.accepted 2)) := by
    intro s hempty hin ready rest i conn hevents _ hconn
    have hready := hin ready (by simp [hevents])
    refine ⟨fun _ => hempty conn (List.mem_of_getElem? hconn), fun _ count hc => .inr ?_⟩
    cases hc
    simp [Client.pending, hready]
  have hflush : Along next StepFlushes initial (sendsAb 2) :=
    .cons trivial rfl (.cons trivial rfl (.cons trivial rfl
      (.cons (hclient _ (by simp [initial, initializeConnection]) (by simp [readable])) rfl
        trivial)))
  exact ⟨s, hrun, written_prefix_of_flushes hflush hrun⟩

/-- After a short write the next one starts at the first byte again: `AA` for `ab`. -/
theorem short_write_repeats :
    ¬ ∀ ls s, run next initial ls = some s → WritesPrefix s := by
  intro hall
  obtain ⟨s, hrun, conn, hconn, hwritten, hreceived⟩ : ∃ s,
      run next initial (sendsAb 1 ++ [.wait [⟨some 0, writable⟩],
        .client (.failed .eagain) (.accepted 1)]) = some s ∧
      ∃ conn ∈ s.clients, conn.written = [65, 65] ∧ conn.received = [97, 98] :=
    ⟨_, rfl, _, List.mem_singleton.mpr rfl, rfl, rfl⟩
  have hprefix := hall _ s hrun conn hconn
  rw [hwritten, hreceived] at hprefix
  revert hprefix
  decide

end Acos.EpollServer
