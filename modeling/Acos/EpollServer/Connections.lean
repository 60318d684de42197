import Acos.EpollServer.Steps
import Mathlib.Algebra.Order.Ring.Int

/-! The connection counter of the event loop against the sockets that are open. -/
namespace Acos.EpollServer
open Acos.Transition

/-- The accepted sockets that are open. -/
def State.openSockets (s : State) : ℕ := s.clients.countP fun conn => conn.socket = .opened

/-- The counter is right and within the limit. -/
def CountExact (s : State) : Prop :=
  s.current_connection_count = s.openSockets ∧ s.current_connection_count ≤ CONNECTIONS_LIMIT

/-- The condition on a step: an accept whose connection the server keeps succeeds. -/
def AcceptSucceeds (s : State) : Label → Prop
  | .accept ok => s.current_connection_count < CONNECTIONS_LIMIT → ok = true
  | _ => True

/-- How far the counter is ahead of the open sockets. -/
def State.drift (s : State) : ℤ := s.current_connection_count - s.openSockets

theorem handleWrite_socket (conn : Client) (w : WriteResult) :
    (handleWrite conn w).2.socket = conn.socket := by
  unfold handleWrite
  split_ifs
  · rfl
  · cases w <;> rfl
  · rfl

theorem writeEvent_socket (conn : Client) (event : Events) (w : WriteResult) :
    (writeEvent conn event w).socket = conn.socket ∨
      (writeEvent conn event w).socket = .closed := by
  have hwrite := handleWrite_socket conn w
  unfold writeEvent
  split_ifs with hout
  · dsimp only
    split_ifs
    · exact .inr rfl
    · exact .inl hwrite
    · exact .inl hwrite
  · exact .inr rfl

/-- An event leaves the socket as it is or closes it. -/
theorem clientEvent_socket (conn : Client) (event : Events) (r : ReadResult) (w : WriteResult) :
    (clientEvent conn event r w).socket = conn.socket ∨
      (clientEvent conn event r w).socket = .closed := by
  have hread : (handleRead conn r).2.socket = conn.socket := by
    cases r with
    | failed errno => rfl
    | data bytes =>
      unfold handleRead
      dsimp only
      split_ifs <;> rfl
  unfold clientEvent
  split_ifs with hin
  · dsimp only
    split_ifs
    · exact .inr rfl
    · have hw := writeEvent_socket
        { (handleRead conn r).2 with interest := { event with epollout := true } }
        { event with epollout := true } w
      rwa [show Client.socket { (handleRead conn r).2 with
        interest := { event with epollout := true } } = conn.socket from hread] at hw
    · rw [← hread]
      exact writeEvent_socket _ event w
  · exact writeEvent_socket conn event w

/-- Closing an open socket takes one from the open ones. -/
theorem serve_drift {s : State} {rest : List Ready} {i : ℕ} {old conn : Client}
    (hold : s.clients[i]? = some old) (hopen : old.socket = .opened)
    (hconn : conn.socket = old.socket ∨ conn.socket = .closed) :
    (s.serve rest i conn).drift = s.drift := by
  obtain ⟨hlt, hget⟩ := List.getElem?_eq_some_iff.mp hold
  have hpos : 0 < s.clients.countP fun conn => decide (conn.socket = .opened) :=
    List.countP_pos_iff.mpr ⟨old, List.mem_of_getElem? hold, by simp [hopen]⟩
  have hset := List.countP_set (p := fun conn => decide (conn.socket = .opened)) (a := conn) hlt
  rw [hget] at hset
  rcases hconn with hsame | hclosed
  · simp only [State.drift, State.openSockets, State.serve, hset, hsame, hopen]
    simp
    omega
  · simp only [State.drift, State.openSockets, State.serve, hset, hclosed, hopen, if_true]
    simp
    omega

/-- The counter runs ahead by one at each accept that fails below the limit. -/
theorem next_drift {s t : State} {l : Label} (hs : BatchOk s) (h : next s l = some t) :
    (AcceptSucceeds s l → t.drift = s.drift) ∧ (¬ AcceptSucceeds s l → t.drift = s.drift + 1) := by
  rcases next_cases h with ⟨events, rfl, -, -, -, rfl⟩ | ⟨rfl, -, rfl⟩ |
    ⟨ready, rest, ok, rfl, -, -, hfull, rfl⟩ | ⟨ready, rest, ok, rfl, -, -, hroom, rfl⟩ |
    ⟨ready, rest, i, conn, r, w, rfl, hevents, hi, hconn, -, rfl⟩
  · exact ⟨fun _ => rfl, fun hno => absurd trivial hno⟩
  · exact ⟨fun _ => rfl, fun hno => absurd trivial hno⟩
  · refine ⟨fun _ => rfl, fun hno => absurd (fun hroom => ?_) hno⟩
    omega
  · cases ok with
    | true =>
      refine ⟨fun _ => ?_, fun hno => absurd (fun _ => rfl) hno⟩
      simp [State.drift, State.openSockets, State.welcome, initializeConnection]
    | false =>
      refine ⟨fun hyes => absurd (hyes hroom) (by simp), fun _ => ?_⟩
      simp [State.drift, State.openSockets, State.welcome, initializeConnection]
      omega
  · refine ⟨fun _ => ?_, fun hno => absurd trivial hno⟩
    have hopen := reportable_opened (hs.reported ready (by simp [hevents])) hi hconn
    exact serve_drift hconn hopen (clientEvent_socket conn ready.event r w)

theorem run_drift {ls : List Label} {s t : State} (hs : BatchOk s)
    (hrun : run next s ls = some t) :
    s.drift ≤ t.drift ∧ (t.drift = s.drift ↔ Along next AcceptSucceeds s ls) := by
  induction ls generalizing s with
  | nil =>
    cases hrun
    exact ⟨le_rfl, by simp [Along]⟩
  | cons l ls ih =>
    obtain ⟨u, hu, hrest⟩ := run_cons_eq_some.mp hrun
    obtain ⟨hle, hiff⟩ := ih (next_batchOk hs hu) hrest
    obtain ⟨hsame, hahead⟩ := next_drift hs hu
    by_cases haccept : AcceptSucceeds s l
    · rw [hsame haccept] at hle hiff
      refine ⟨hle, hiff.trans ⟨fun hu' => .cons haccept hu hu', fun hall => hall.2 u hu⟩⟩
    · have hone := hahead haccept
      refine ⟨by omega, fun heq => ?_, fun hall => absurd hall.1 haccept⟩
      omega

theorem next_count_le {s t : State} {l : Label}
    (hs : s.current_connection_count ≤ CONNECTIONS_LIMIT) (h : next s l = some t) :
    t.current_connection_count ≤ CONNECTIONS_LIMIT := by
  rcases next_cases h with ⟨events, -, -, -, -, rfl⟩ | ⟨-, -, rfl⟩ |
    ⟨ready, rest, ok, -, -, -, -, rfl⟩ | ⟨ready, rest, ok, -, -, -, hroom, rfl⟩ |
    ⟨ready, rest, i, conn, r, w, -, -, -, -, -, rfl⟩
  · exact hs
  · exact hs
  · exact hs
  · simp only [State.welcome]
    omega
  · simp only [State.serve]
    split_ifs <;> omega

/-- The counter is right if and only if no accept below the limit has failed so far. -/
theorem count_exact_iff {ls : List Label} {s : State} (hrun : run next initial ls = some s) :
    CountExact s ↔ Along next AcceptSucceeds initial ls := by
  have hlimit : s.current_connection_count ≤ CONNECTIONS_LIMIT :=
    run_invariant (I := fun s => s.current_connection_count ≤ CONNECTIONS_LIMIT)
      (fun _ _ _ hs hnext => next_count_le hs hnext) (by decide) hrun
  have hiff := (run_drift initial_batchOk hrun).2
  have hzero : initial.drift = 0 := rfl
  rw [← hiff, hzero]
  simp only [CountExact, State.drift]
  omega

/-- One call of `accept`. -/
def accepts (ok : Bool) : List Label :=
  [.wait [⟨none, ⟨true, false, false, false⟩⟩], .accept ok]

theorem count_exact_accepted : ∃ s, run next initial (accepts true) = some s ∧ CountExact s := by
  obtain ⟨s, hrun⟩ : ∃ s, run next initial (accepts true) = some s := ⟨_, rfl⟩
  have hall : Along next AcceptSucceeds initial (accepts true) :=
    .cons trivial rfl (.cons (fun _ => rfl) rfl trivial)
  exact ⟨s, hrun, (count_exact_iff hrun).mpr hall⟩

/-- An accept that fails is counted, and no socket is open. -/
theorem failed_accept_counted :
    ¬ ∀ ls s, run next initial ls = some s → s.events = [] → CountExact s := by
  intro hall
  obtain ⟨s, hrun, htop, hcount, hopen⟩ : ∃ s, run next initial (accepts false) = some s ∧
      s.events = [] ∧ s.current_connection_count = 1 ∧ s.openSockets = 0 :=
    ⟨_, rfl, rfl, rfl, rfl⟩
  have hexact := (hall _ s hrun htop).1
  rw [hcount, hopen] at hexact
  simp at hexact

end Acos.EpollServer
