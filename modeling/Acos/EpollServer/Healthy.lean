import Acos.EpollServer.Connections

/-! When the loop gives up a client that is still there: exactly when a read or a write on its
socket would block. -/
namespace Acos.EpollServer
open Acos.Transition

/-- The loop body calls `write` on the client. -/
def Client.writes (conn : Client) (event : Events) (r : ReadResult) : Bool :=
  (match event.epollin, r with
    | true, .failed _ => false
    | _, _ => true) &&
  (event.epollout || delivers event r) && 0 < conn.pending event r

/-- An event of a client that has not closed its end and whose socket reports no error: no
error bits, no end of the stream, and no call fails for another reason than `EAGAIN`. -/
structure Client.Healthy (conn : Client) (event : Events) (r : ReadResult) (w : WriteResult) :
    Prop where
  epollerr : event.epollerr = false
  epollhup : event.epollhup = false
  read : event.epollin = true → r ≠ .data [] ∧ r ≠ .failed .other
  write : conn.writes event r = true → w ≠ .failed .other

/-- No call on the client's socket would block. -/
def Client.Ready (conn : Client) (event : Events) (r : ReadResult) (w : WriteResult) : Prop :=
  (event.epollin = true → r ≠ .failed .eagain) ∧
    (conn.writes event r = true → w ≠ .failed .eagain)

/-- What `P` says of the events of client `i`. -/
def OfClient (i : ℕ) (P : Client → Events → ReadResult → WriteResult → Prop) (s : State) :
    Label → Prop
  | .client r w => ∀ ready rest conn, s.events = ready :: rest → ready.conn = some i →
      s.clients[i]? = some conn → P conn ready.event r w
  | _ => True

/-- The server has not freed client `i`. -/
def Kept (i : ℕ) (s : State) : Prop := ∀ conn, s.clients[i]? = some conn → conn.socket ≠ .closed

section Client
variable {conn : Client} {event : Events} {r : ReadResult} {w : WriteResult}

/-- Of an open client, `handle_write` fails only with the `write` that it makes. -/
theorem handleWrite_failed (hopen : conn.socket = .opened)
    (hw : ∀ count, w = .accepted count → count ≤ conn.buffer_len) :
    (handleWrite conn w).1 = -1 ↔ 0 < conn.buffer_len ∧ ∃ errno, w = .failed errno := by
  have hvalid : ¬ conn.socket = .invalid := by simp [hopen]
  unfold handleWrite
  rw [if_neg hvalid]
  by_cases hpending : 0 < conn.buffer_len
  · rw [if_pos hpending]
    cases w with
    | failed errno => simp [hpending]
    | accepted count =>
      have hcount := hw count rfl
      have hne : ¬ ((conn.buffer_len : ℤ) - count = -1) := by omega
      simp [hne]
  · rw [if_neg hpending]
    simp [hpending]

/-- From the test of `EPOLLOUT` on, a client is freed when the bit is not set or the write
fails. -/
theorem writeEvent_closed (hopen : conn.socket = .opened)
    (hw : ∀ count, w = .accepted count → count ≤ conn.buffer_len) :
    (writeEvent conn event w).socket = .closed ↔
      event.epollout = false ∨ (0 < conn.buffer_len ∧ ∃ errno, w = .failed errno) := by
  have hsocket : (handleWrite conn w).2.socket = .opened := by
    rw [handleWrite_socket, hopen]
  by_cases hout : event.epollout = true
  · rw [← handleWrite_failed hopen hw]
    unfold writeEvent
    rw [if_pos hout]
    dsimp only
    split_ifs with hfailed hempty
    · simp [hfailed, freeClient]
    · simp [hfailed, hout, epollDelWrite, hsocket]
    · simp [hfailed, hout, hsocket]
  · simp [writeEvent, hout, freeClient]

/-- An event with no error bits frees a healthy client exactly when a call would block. -/
theorem clientEvent_kept (hopen : conn.socket = .opened) (h : conn.Healthy event r w)
    (hallows : conn.allows event r w = true)
    (hevent : event.epollin = true ∨ event.epollout = true) :
    (clientEvent conn event r w).socket ≠ .closed ↔ conn.Ready event r w := by
  have hcount : ∀ count, w = .accepted count → count ≤ conn.pending event r := by
    intro count hw
    simp only [Client.allows, hw, Bool.and_eq_true, decide_eq_true_eq] at hallows
    exact hallows.2
  have herrno : conn.writes event r = true →
      ((∃ errno, w = .failed errno) ↔ w = .failed .eagain) := by
    intro hwrites
    refine ⟨fun ⟨errno, herrno⟩ => ?_, fun heagain => ⟨_, heagain⟩⟩
    cases errno with
    | eagain => exact herrno
    | other => exact absurd herrno (h.write hwrites)
  unfold clientEvent
  by_cases hin : event.epollin = true
  · rw [if_pos hin]
    obtain ⟨hend, hother⟩ := h.read hin
    cases r with
    | failed errno =>
      cases errno with
      | eagain => simp [handleRead, freeClient, Client.Ready, hin]
      | other => exact absurd rfl hother
    | data bytes =>
      cases bytes with
      | nil => exact absurd rfl hend
      | cons b bs =>
        have hpos : (0 : ℤ) < ((b :: bs).length : ℕ) := by simp
        have hne : ¬ (((b :: bs).length : ℕ) : ℤ) = -1 := by omega
        have hpending : conn.pending event (.data (b :: bs)) = (b :: bs).length := by
          simp [Client.pending, hin]
        have hwrites : conn.writes event (.data (b :: bs)) = true := by
          simp [Client.writes, delivers, hin, hpending]
        simp only [handleRead, reduceCtorEq, if_false, hne, hpos, if_true]
        rw [ne_eq, writeEvent_closed (by exact hopen) (by simpa [hpending] using hcount)]
        simp [Client.Ready, hwrites, herrno hwrites]
  · rw [if_neg hin]
    have hout : event.epollout = true := hevent.resolve_left hin
    have hpending : conn.pending event r = conn.buffer_len := by simp [Client.pending, hin]
    rw [ne_eq, writeEvent_closed hopen (by simpa [hpending] using hcount)]
    have hwrites : conn.writes event r = decide (0 < conn.buffer_len) := by
      simp [Client.writes, hin, hout, hpending]
    by_cases hbuffer : 0 < conn.buffer_len
    · simp [Client.Ready, hin, hout, hwrites, hbuffer, herrno (by simp [hwrites, hbuffer])]
    · simp [Client.Ready, hin, hout, hwrites, hbuffer]

end Client

/-- A client that has been freed stays so. -/
theorem next_freed {s t : State} {l : Label} {i : ℕ} (hs : BatchOk s) (hfreed : ¬ Kept i s)
    (h : next s l = some t) : ¬ Kept i t := by
  intro hkept
  apply hfreed
  intro conn hconn hclosed
  have hlt := (List.getElem?_eq_some_iff.mp hconn).1
  rcases next_cases h with ⟨events, -, -, -, -, rfl⟩ | ⟨-, -, rfl⟩ |
    ⟨ready, rest, ok, -, -, -, -, rfl⟩ | ⟨ready, rest, ok, -, -, -, -, rfl⟩ |
    ⟨ready, rest, j, old, r, w, -, hevents, hj, hold, -, rfl⟩
  · exact hkept conn hconn hclosed
  · exact hkept conn hconn hclosed
  · exact hkept conn hconn hclosed
  · exact hkept conn (by simpa [State.welcome, List.getElem?_append_left hlt] using hconn) hclosed
  · have hopen := reportable_opened (hs.reported ready (by simp [hevents])) hj hold
    have hne : j ≠ i := by
      rintro rfl
      rw [hconn] at hold
      cases hold
      rw [hclosed] at hopen
      cases hopen
    exact hkept conn (by simpa [State.serve, List.getElem?_set_ne hne] using hconn) hclosed

/-- A step keeps a healthy client exactly when no call on its socket would block. -/
theorem next_kept_iff {s t : State} {l : Label} {i : ℕ} (hs : BatchOk s)
    (hhealthy : OfClient i Client.Healthy s l) (hkept : Kept i s) (h : next s l = some t) :
    Kept i t ↔ OfClient i Client.Ready s l := by
  rcases next_cases h with ⟨events, rfl, -, -, -, rfl⟩ | ⟨rfl, -, rfl⟩ |
    ⟨ready, rest, ok, rfl, -, -, -, rfl⟩ | ⟨ready, rest, ok, rfl, -, -, -, rfl⟩ |
    ⟨ready, rest, j, old, r, w, rfl, hevents, hj, hold, hallows, rfl⟩
  · exact ⟨fun _ => trivial, fun _ => hkept⟩
  · exact ⟨fun _ => trivial, fun _ => hkept⟩
  · exact ⟨fun _ => trivial, fun _ => hkept⟩
  · refine ⟨fun _ => trivial, fun _ conn hconn => ?_⟩
    by_cases hlt : i < s.clients.length
    · exact hkept conn (by simpa [State.welcome, List.getElem?_append_left hlt] using hconn)
    · have hlast : conn ∈ [initializeConnection (if ok then .opened else .invalid)] := by
        rw [State.welcome, List.getElem?_append_right (by omega)] at hconn
        exact List.mem_of_getElem? hconn
      rw [List.mem_singleton.mp hlast]
      cases ok <;> simp [initializeConnection]
  · have hready := hs.reported ready (by simp [hevents])
    by_cases hij : j = i
    · subst hij
      have hopen := reportable_opened hready hj hold
      have hclient := hhealthy ready rest old hevents hj hold
      have hevent : ready.event.epollin = true ∨ ready.event.epollout = true := by
        have hsome := reportable_event hready hj hold
        simpa [hclient.epollerr, hclient.epollhup] using hsome
      have hnew : (s.serve rest j (clientEvent old ready.event r w)).clients[j]? =
          some (clientEvent old ready.event r w) := by
        have hlt := (List.getElem?_eq_some_iff.mp hold).1
        simp [State.serve, hlt]
      rw [show Kept j (s.serve rest j (clientEvent old ready.event r w)) ↔
        (clientEvent old ready.event r w).socket ≠ .closed by simp [Kept, hnew],
        clientEvent_kept hopen hclient hallows hevent]
      refine ⟨fun hcall ready' rest' conn hevents' _ hconn => ?_,
        fun hall => hall ready rest old hevents hj hold⟩
      rw [hevents] at hevents'
      cases hevents'
      rw [hold] at hconn
      cases hconn
      exact hcall
    · refine ⟨fun _ ready' rest' conn hevents' hi _ => ?_, fun _ conn hconn => ?_⟩
      · rw [hevents] at hevents'
        cases hevents'
        rw [hj] at hi
        cases hi
        exact absurd rfl hij
      · exact hkept conn (by simpa [State.serve, List.getElem?_set_ne hij] using hconn)

/-- Along a run in which client `i` is healthy, the server frees it if and only if a read or a
write on its socket would block. -/
theorem client_kept_iff {ls : List Label} {s : State} {i : ℕ}
    (hhealthy : Along next (OfClient i Client.Healthy) initial ls)
    (hrun : run next initial ls = some s) :
    Kept i s ↔ Along next (OfClient i Client.Ready) initial ls := by
  have hgen : ∀ (ls : List Label) (s t : State), BatchOk s →
      Along next (OfClient i Client.Healthy) s ls → run next s ls = some t → Kept i s →
      (Kept i t ↔ Along next (OfClient i Client.Ready) s ls) := by
    intro ls
    induction ls with
    | nil =>
      intro s t _ _ hrun hkept
      cases hrun
      simp [Along, hkept]
    | cons l ls ih =>
      intro s t hs hhealthy hrun hkept
      obtain ⟨u, hu, hrest⟩ := run_cons_eq_some.mp hrun
      have hstep := next_kept_iff hs hhealthy.1 hkept hu
      have hbatch := next_batchOk hs hu
      by_cases hlive : Kept i u
      · have hiff := ih u t hbatch (hhealthy.2 u hu) hrest hlive
        exact hiff.trans ⟨fun hall => .cons (hstep.mp hlive) hu hall, fun hall => hall.2 u hu⟩
      · have hlost : ¬ Kept i t :=
          (run_invariant (I := fun s => BatchOk s ∧ ¬ Kept i s)
            (fun _ _ _ h hnext => ⟨next_batchOk h.1 hnext, next_freed h.1 h.2 hnext⟩)
            ⟨hbatch, hlive⟩ hrest).2
        exact ⟨fun hkept' => absurd hkept' hlost, fun hall => absurd (hstep.mpr hall.1) hlive⟩
  exact hgen ls initial s initial_batchOk hhealthy hrun (by simp [Kept, initial])

/-- One client is accepted and sends `a`, and the write of it returns `w`. -/
def sendsA (w : WriteResult) : List Label :=
  [.wait [⟨none, ⟨true, false, false, false⟩⟩], .accept true,
    .wait [⟨some 0, ⟨true, false, false, false⟩⟩], .client (.data [97]) w]

theorem sendsA_ofClient {P : Client → Events → ReadResult → WriteResult → Prop} {w : WriteResult}
    (hP : P (initializeConnection .opened) ⟨true, false, false, false⟩ (.data [97]) w) :
    Along next (OfClient 0 P) initial (sendsA w) := by
  refine .cons trivial rfl (.cons trivial rfl (.cons trivial rfl ⟨?_, fun _ _ => trivial⟩))
  intro ready rest conn hevents _ hconn
  cases hevents
  cases hconn
  exact hP

theorem client_kept_written : ∃ s, run next initial (sendsA (.accepted 1)) = some s ∧ Kept 0 s := by
  obtain ⟨s, hrun⟩ : ∃ s, run next initial (sendsA (.accepted 1)) = some s := ⟨_, rfl⟩
  have hhealthy : Along next (OfClient 0 Client.Healthy) initial (sendsA (.accepted 1)) :=
    sendsA_ofClient ⟨rfl, rfl, by simp, by simp⟩
  exact ⟨s, hrun, (client_kept_iff hhealthy hrun).mpr (sendsA_ofClient ⟨by simp, by simp⟩)⟩

/-- The write at once after a read would block, and the server closes the connection. -/
theorem blocked_write_frees : ¬ ∀ ls s i, run next initial ls = some s →
    Along next (OfClient i Client.Healthy) initial ls → Kept i s := by
  intro hall
  obtain ⟨s, hrun, conn, hconn, hclosed⟩ : ∃ s,
      run next initial (sendsA (.failed .eagain)) = some s ∧
      ∃ conn, s.clients[0]? = some conn ∧ conn.socket = .closed :=
    ⟨_, rfl, _, rfl, rfl⟩
  have hhealthy : Along next (OfClient 0 Client.Healthy) initial (sendsA (.failed .eagain)) :=
    sendsA_ofClient ⟨rfl, rfl, by simp, by simp⟩
  exact hall _ s 0 hrun hhealthy conn hconn hclosed

end Acos.EpollServer
