import Acos.EpollServer.Model

/-! What one step of the server can do, and the invariant of a batch of events: its entries
name different clients, all of them open and registered for what is reported. -/
namespace Acos.EpollServer
open Acos.Transition

/-- The server after an accept below the limit. -/
def State.welcome (s : State) (rest : List Ready) (ok : Bool) : State where
  clients := s.clients ++ [initializeConnection (if ok then .opened else .invalid)]
  current_connection_count := s.current_connection_count + 1
  events := rest
  running := s.running

/-- The server after an event that leaves client `i` as `conn`. -/
def State.serve (s : State) (rest : List Ready) (i : ℕ) (conn : Client) : State where
  clients := s.clients.set i conn
  current_connection_count :=
    if conn.socket = .closed then s.current_connection_count - 1 else s.current_connection_count
  events := rest
  running := s.running

/-- The steps of the server, with what each of them requires. -/
theorem next_cases {s t : State} {l : Label} (h : next s l = some t) :
    (∃ events, l = .wait events ∧ s.events = [] ∧ (events.map Ready.conn).Nodup ∧
      (∀ ready ∈ events, reportable s.clients ready = true) ∧
      t = ⟨s.clients, s.current_connection_count, events, s.running⟩) ∨
    (l = .waitFailed ∧ s.events = [] ∧ t = ⟨s.clients, s.current_connection_count, [], false⟩) ∨
    (∃ ready rest ok, l = .accept ok ∧ s.events = ready :: rest ∧ ready.conn = none ∧
      CONNECTIONS_LIMIT ≤ s.current_connection_count ∧
      t = ⟨s.clients, s.current_connection_count, rest, s.running⟩) ∨
    (∃ ready rest ok, l = .accept ok ∧ s.events = ready :: rest ∧ ready.conn = none ∧
      s.current_connection_count < CONNECTIONS_LIMIT ∧ t = s.welcome rest ok) ∨
    (∃ ready rest i conn r w, l = .client r w ∧ s.events = ready :: rest ∧
      ready.conn = some i ∧ s.clients[i]? = some conn ∧ conn.allows ready.event r w = true ∧
      t = s.serve rest i (clientEvent conn ready.event r w)) := by
  unfold next at h
  by_cases hrun : s.running = true
  · rw [if_pos hrun] at h
    split at h
    next events hevents =>
      split_ifs at h with hwait
      · cases h
        exact .inl ⟨events, rfl, hevents, hwait.2.2.1, by simpa using hwait.2.2.2, rfl⟩
    next hevents =>
      cases h
      exact .inr (.inl ⟨rfl, hevents, by rw [hevents]⟩)
    next ready rest ok hevents =>
      by_cases hserver : ready.conn = none
      · rw [if_pos hserver] at h
        split_ifs at h with hfull
        · cases h
          exact .inr (.inr (.inl ⟨ready, rest, ok, rfl, hevents, hserver, hfull, rfl⟩))
        · cases h
          exact .inr (.inr (.inr (.inl
            ⟨ready, rest, ok, rfl, hevents, hserver, by omega, by simp [State.welcome, *]⟩)))
        · cases h
          exact .inr (.inr (.inr (.inl
            ⟨ready, rest, ok, rfl, hevents, hserver, by omega, by simp [State.welcome, *]⟩)))
      · rw [if_neg hserver] at h
        cases h
    next ready rest r w hevents =>
      split at h
      · cases h
      next i hi =>
        split at h
        · cases h
        next conn hconn =>
          split_ifs at h with hallows
          · cases h
            exact .inr (.inr (.inr (.inr
              ⟨ready, rest, i, conn, r, w, rfl, hevents, hi, hconn, hallows, rfl⟩)))
    · cases h
  · rw [if_neg hrun] at h
    cases h

/-- The batch can be processed: each client occurs once and is still as it was reported. -/
structure BatchOk (s : State) : Prop where
  distinct : (s.events.map Ready.conn).Nodup
  reported : ∀ ready ∈ s.events, reportable s.clients ready = true

theorem initial_batchOk : BatchOk initial := ⟨by simp [initial], by simp [initial]⟩

/-- An entry depends only on the client that it names. -/
theorem reportable_congr {clients clients' : List Client} {ready : Ready}
    (hsame : ∀ i conn, ready.conn = some i → clients[i]? = some conn →
      clients'[i]? = some conn) (h : reportable clients ready = true) :
    reportable clients' ready = true := by
  cases hconn : ready.conn with
  | none => simpa [reportable, hconn] using h
  | some i =>
    cases hi : clients[i]? with
    | none => simp [reportable, hconn, hi] at h
    | some conn =>
      have hi' := hsame i conn hconn hi
      simpa [reportable, hconn, hi, hi'] using h

/-- A client that is reported is open. -/
theorem reportable_opened {clients : List Client} {ready : Ready} {i : ℕ} {conn : Client}
    (h : reportable clients ready = true) (hi : ready.conn = some i)
    (hconn : clients[i]? = some conn) : conn.socket = .opened := by
  simp only [reportable, hi, hconn, Bool.and_eq_true, decide_eq_true_eq] at h
  exact h.1.1.1

/-- Some bit is set in what is reported. -/
theorem reportable_event {clients : List Client} {ready : Ready} {i : ℕ} {conn : Client}
    (h : reportable clients ready = true) (hi : ready.conn = some i)
    (hconn : clients[i]? = some conn) : ready.event.epollin = true ∨
      ready.event.epollout = true ∨ ready.event.epollerr = true ∨ ready.event.epollhup = true := by
  simp only [reportable, hi, hconn, Bool.and_eq_true, Bool.or_eq_true] at h
  simpa [or_assoc] using h.2

theorem next_batchOk {s t : State} {l : Label} (hs : BatchOk s) (h : next s l = some t) :
    BatchOk t := by
  rcases next_cases h with ⟨events, -, -, hnodup, hall, rfl⟩ | ⟨-, -, rfl⟩ |
    ⟨ready, rest, ok, -, hevents, -, -, rfl⟩ | ⟨ready, rest, ok, -, hevents, -, -, rfl⟩ |
    ⟨ready, rest, i, conn, r, w, -, hevents, hi, hconn, -, rfl⟩
  · exact ⟨hnodup, hall⟩
  · exact ⟨by simp, by simp⟩
  · have hd := hs.distinct
    have hr := hs.reported
    rw [hevents] at hd hr
    exact ⟨(List.nodup_cons.mp hd).2, fun e he => hr e (List.mem_cons_of_mem _ he)⟩
  · have hd := hs.distinct
    have hr := hs.reported
    rw [hevents] at hd hr
    refine ⟨(List.nodup_cons.mp hd).2, fun e he => ?_⟩
    refine reportable_congr ?_ (hr e (List.mem_cons_of_mem _ he))
    intro j old _ hold
    have hlt := (List.getElem?_eq_some_iff.mp hold).1
    simpa [State.welcome, List.getElem?_append_left hlt] using hold
  · have hd := hs.distinct
    have hr := hs.reported
    rw [hevents] at hd hr
    have hnew := (List.nodup_cons.mp hd).1
    refine ⟨(List.nodup_cons.mp hd).2, fun e he => ?_⟩
    refine reportable_congr ?_ (hr e (List.mem_cons_of_mem _ he))
    intro j old hj hold
    have hne : i ≠ j := by
      intro hij
      apply hnew
      rw [hi, hij, ← hj]
      exact List.mem_map_of_mem he
    simpa [State.serve, List.getElem?_set_ne hne] using hold

end Acos.EpollServer
