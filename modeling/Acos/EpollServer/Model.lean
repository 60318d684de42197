import Acos.Lib.Transition
import Mathlib.Data.Int.Notation

/-! The event loop of `inf17-1_highload_epoll-read-write-socket/main.c`. One step is one
call of `epoll_pwait` or one event of the batch that the call returned. -/
namespace Acos.EpollServer

def MAX_EVENTS : ℕ := 10
def CONNECTIONS_LIMIT : ℤ := 1000
def REQUEST_BUFFER : ℕ := 4096

/-- The bits of an event mask. -/
structure Events where
  epollin : Bool
  epollout : Bool
  epollerr : Bool
  epollhup : Bool
  deriving DecidableEq, Repr

/-- The socket of a client: open, closed by `free_client`, or the `-1` of a failed `accept`. -/
inductive Socket where
  | opened
  | closed
  | invalid
  deriving DecidableEq, Repr

/-- A `client_unit` with its interest set in the kernel, and the bytes that have been read
from and written to its socket so far. -/
structure Client where
  buffer : List UInt8
  buffer_len : ℕ
  socket : Socket
  interest : Events
  received : List UInt8
  written : List UInt8
  deriving DecidableEq, Repr

/-- Why a call returned `-1`. -/
inductive Errno where
  | eagain
  | other
  deriving DecidableEq, Repr

inductive ReadResult where
  | failed (errno : Errno)
  | data (bytes : List UInt8)
  deriving DecidableEq, Repr

inductive WriteResult where
  | failed (errno : Errno)
  | accepted (count : ℕ)
  deriving DecidableEq, Repr

/-- `toupper` in the C locale. -/
def toupper (c : UInt8) : UInt8 := if 97 ≤ c ∧ c ≤ 122 then c - 32 else c

/-- The return value of `read` and the client after `handle_read`. -/
def handleRead (client : Client) : ReadResult → ℤ × Client
  | .failed _ => (-1, client)
  | .data bytes =>
    if bytes = [] then (0, client)
    else (bytes.length, { client with
      buffer := bytes.map toupper ++ client.buffer.drop bytes.length
      buffer_len := bytes.length
      received := client.received ++ bytes })

def handleWrite (client : Client) (result : WriteResult) : ℤ × Client :=
  if client.socket = .invalid then (-1, client)
  else if 0 < client.buffer_len then
    match result with
    | .failed _ => (-1, client)
    | .accepted bytes_wrote =>
      (client.buffer_len - bytes_wrote, { client with
        buffer_len := client.buffer_len - bytes_wrote
        written := client.written ++ client.buffer.take bytes_wrote })
  else (0, client)

/-- `initialize_connection` and the registration for reading. -/
def initializeConnection (socket : Socket) : Client where
  buffer := List.replicate REQUEST_BUFFER 0
  buffer_len := 0
  socket := socket
  interest := ⟨true, false, false, false⟩
  received := []
  written := []

def freeClient (client : Client) : Client := { client with socket := .closed }

def epollDelWrite (client : Client) (event : Events) : Client :=
  { client with interest := { event with epollout := false } }

/-- The part of the loop body from the test of `EPOLLOUT` on. -/
def writeEvent (conn : Client) (event : Events) (w : WriteResult) : Client :=
  if event.epollout then
    let (handling_status, conn) := handleWrite conn w
    if handling_status = -1 then freeClient conn
    else if conn.buffer_len = 0 then epollDelWrite conn event
    else conn
  else freeClient conn

/-- The body of the loop for a client; `epoll_add_write` sets the bit in the event that the
rest of the body tests. -/
def clientEvent (conn : Client) (event : Events) (r : ReadResult) (w : WriteResult) : Client :=
  if event.epollin then
    let (handling_status, conn) := handleRead conn r
    if handling_status = -1 then freeClient conn
    else if 0 < handling_status then
      let event := { event with epollout := true }
      writeEvent { conn with interest := event } event w
    else writeEvent conn event w
  else writeEvent conn event w

/-- An entry of `events`: the server's own unit or a client's, by its index. -/
structure Ready where
  conn : Option ℕ
  event : Events
  deriving DecidableEq, Repr

structure State where
  clients : List Client
  current_connection_count : ℤ
  events : List Ready
  running : Bool
  deriving DecidableEq, Repr

def initial : State where
  clients := []
  current_connection_count := 0
  events := []
  running := true

/-- What the kernel may report: bits of the interest set, and errors at any time. -/
def reportable (clients : List Client) (ready : Ready) : Bool :=
  match ready.conn with
  | none => ready.event.epollin || ready.event.epollerr || ready.event.epollhup
  | some i =>
    match clients[i]? with
    | none => false
    | some conn =>
      conn.socket = .opened && (!ready.event.epollin || conn.interest.epollin) &&
        (!ready.event.epollout || conn.interest.epollout) &&
        (ready.event.epollin || ready.event.epollout || ready.event.epollerr ||
          ready.event.epollhup)

/-- The read of the event delivers bytes, after which the loop body goes on to write. -/
def delivers (event : Events) (r : ReadResult) : Bool :=
  match event.epollin, r with
  | true, .data (_ :: _) => true
  | _, _ => false

/-- How many bytes `write` is offered. -/
def Client.pending (conn : Client) (event : Events) (r : ReadResult) : ℕ :=
  match event.epollin, r with
  | true, .data (b :: bs) => (b :: bs).length
  | _, _ => conn.buffer_len

/-- No call transfers more than the program asks for. -/
def Client.allows (conn : Client) (event : Events) (r : ReadResult) (w : WriteResult) : Bool :=
  (match r with
    | .data bytes => bytes.length ≤ REQUEST_BUFFER
    | .failed _ => true) &&
  match w with
  | .accepted count => count ≤ conn.pending event r
  | .failed _ => true

inductive Label where
  | wait (events : List Ready)
  | waitFailed
  | accept (ok : Bool)
  | client (r : ReadResult) (w : WriteResult)
  deriving DecidableEq, Repr

def next (s : State) (l : Label) : Option State :=
  if s.running then
    match s.events, l with
    | [], .wait events =>
      if events ≠ [] ∧ events.length ≤ MAX_EVENTS ∧ (events.map Ready.conn).Nodup ∧
          events.all (reportable s.clients) then
        some { s with events := events }
      else none
    | [], .waitFailed => some { s with running := false }
    | ready :: rest, .accept ok =>
      if ready.conn = none then
        if CONNECTIONS_LIMIT ≤ s.current_connection_count then some { s with events := rest }
        else some { s with
          clients := s.clients ++ [initializeConnection (if ok then .opened else .invalid)]
          current_connection_count := s.current_connection_count + 1
          events := rest }
      else none
    | ready :: rest, .client r w =>
      match ready.conn with
      | none => none
      | some i =>
        match s.clients[i]? with
        | none => none
        | some conn =>
          if conn.allows ready.event r w then
            let conn' := clientEvent conn ready.event r w
            some { s with
              clients := s.clients.set i conn'
              current_connection_count :=
                if conn'.socket = .closed then s.current_connection_count - 1
                else s.current_connection_count
              events := rest }
          else none
    | _, _ => none
  else none

/-- What has been written to each client is a prefix of the upper-cased bytes read from it. -/
def WritesPrefix (s : State) : Prop :=
  ∀ conn ∈ s.clients, conn.written <+: conn.received.map toupper

end Acos.EpollServer
