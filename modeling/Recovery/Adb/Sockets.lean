/-
# Sockets of the daemon (minadbd/sockets.c, adb.c, fdevent.c)

A stream of the host ends at a local socket, whose descriptor is one end of a pair and the
service has the other. The events of the loop go through `step`: a packet of the host, a
descriptor that `select` reports, the call of its function, `close_all_sockets` of the input
thread, and the removal of the transport. They may come in any order.

All packets are those of one transport, the `t` of the source: what `close_all_sockets` and
`run_transport_disconnects` look for among the sockets are all of them. A transport that is
registered before the packets of the one before are handled is left out.

A remote socket lives as long as the `peer` of its local one, which holds its id. A pointer
to a socket is its place in the order of creation. The locks and the `force_eof` that no
service of this daemon sets are left out.
-/
import Mathlib.Logic.Function.Basic
import Recovery.Lib.Pouring
import Recovery.Text

namespace Recovery
namespace Adb

open Pouring
open Zip (cstr)

def maxPayload : ℕ := 4096
def aVersion : ℕ := 0x01000000
def aSync : ℕ := 0x434e5953
def aCnxn : ℕ := 0x4e584e43
def aOpen : ℕ := 0x4e45504f
def aOkay : ℕ := 0x59414b4f
def aClse : ℕ := 0x45534c43
def aWrte : ℕ := 0x45545257

structure Apacket where
  command : ℕ
  arg0 : ℕ
  arg1 : ℕ
  data : Bytes
  deriving DecidableEq

/-! ### Descriptors -/

/-- The bits of `state` and of `events`. -/
structure Fdevent where
  read : Bool
  write : Bool
  pending : Bool
  evRead : Bool
  evWrite : Bool

def fdeventInstall : Fdevent := ⟨false, false, false, false, false⟩

/-- Of a descriptor that is pending, the events that are wanted are taken back. -/
def fdeventSet (read write : Bool) (fde : Fdevent) : Fdevent :=
  if fde.read = read ∧ fde.write = write then fde
  else if fde.pending then
    ⟨read, write, (fde.evRead && !read) || (fde.evWrite && !write), fde.evRead && !read, fde.evWrite && !write⟩
  else { fde with read := read, write := write }

def fdeventAdd (read write : Bool) (fde : Fdevent) : Fdevent := fdeventSet (fde.read || read) (fde.write || write) fde

def fdeventDel (read write : Bool) (fde : Fdevent) : Fdevent := fdeventSet (fde.read && !read) (fde.write && !write) fde

/-- `fdevent_process` for one descriptor, of which `select` says what it is ready for. -/
def fdeventProcess (read write : Bool) (fde : Fdevent) : Fdevent :=
  if (fde.read && read) || (fde.write && write) then
    { fde with pending := true, evRead := fde.evRead || (fde.read && read), evWrite := fde.evWrite || (fde.write && write) }
  else fde

def Fdevent.called (fde : Fdevent) : Fdevent := { fde with pending := false, evRead := false, evWrite := false }

/-! ### Sockets -/

/-- A local socket. `pkts` is what is left of each packet in its queue. -/
structure Asocket where
  id : ℕ
  peer : Option ℕ
  pkts : List Bytes
  closing : Bool
  fde : Fdevent

/-- What happens on a stream: its service is started, a packet or an `A_OKAY` arrives, its
descriptor takes or gives bytes or breaks, a packet is sent. -/
inductive Act
  | opened (name : Bytes)
  | arrived (data : Bytes)
  | readied
  | wrote (b : Bytes)
  | took (b : Bytes)
  | broke
  | sent (p : Apacket)
  deriving DecidableEq

/-- What a function leaves of a socket, and what it did. -/
abbrev Turn := Option Asocket × List Act

def after (acts : List Act) (t : Turn) : Turn := (t.1, acts ++ t.2)

/-- `remote_socket_close` of the peer. The peer has been told that it has no local socket,
so it sends no id of one. -/
def closePeer (s : Asocket) : List Act := s.peer.toList.map fun rid => .sent ⟨aClse, 0, rid, []⟩

/-- `local_socket_close_locked`. `remove_socket` has set the id of a socket on the closing
list to 0. -/
def localSocketClose (s : Asocket) : Turn :=
  if s.closing || s.pkts.isEmpty then (none, closePeer s)
  else (some { s with id := 0, peer := none, closing := true, fde := fdeventDel true false s.fde }, closePeer s)

def remoteSocketDisconnect (s : Asocket) : Turn := localSocketClose { s with peer := none }

def Asocket.queue (data : Bytes) (s : Asocket) : Asocket :=
  { s with pkts := s.pkts ++ [data], fde := fdeventAdd false true s.fde }

/-- The socket, and whether it is ready for more data. -/
def localSocketEnqueue (data : Bytes) (answers : List (Answer ℕ)) (s : Asocket) : Turn × Bool :=
  if !s.pkts.isEmpty then ((some (s.queue data), []), false)
  else
    let p := pour false answers data
    match p.outcome with
    | .done => ((some s, [.wrote p.written]), true)
    | .blocked => ((some (s.queue p.left), [.wrote p.written]), false)
    | .broken => (after [.wrote p.written, .broke] (localSocketClose s), false)

def localSocketReady (s : Asocket) : Asocket := { s with fde := fdeventAdd true false s.fde }

/-- `FDE_WRITE`, and whether the function goes on with `FDE_READ`. -/
def writable (answers : List (Answer ℕ)) (s : Asocket) : Except Stop (Turn × Bool) :=
  let d := drain answers s.pkts
  let s' := { s with pkts := d.left }
  match d.outcome with
  | .blocked => .ok ((some s', [.wrote d.written]), false)
  | .broken => .ok (after [.wrote d.written, .broke] (localSocketClose s'), false)
  | .done =>
    if s.closing then .ok (after [.wrote d.written] (localSocketClose s'), false)
    else match s.peer with
      | none => .error .fault
      | some rid =>
        .ok ((some { s' with fde := fdeventDel false true s.fde }, [.wrote d.written, .sent ⟨aOkay, s.id, rid, []⟩]), true)

/-- What is read goes to the peer, which takes one packet and then wants to be asked. -/
def passOn (b : Bytes) (s : Asocket) : Asocket × List Act :=
  match s.peer with
  | none => (s, [])
  | some rid =>
    if b.isEmpty then (s, [])
    else ({ s with fde := fdeventDel true false s.fde }, [.sent ⟨aWrte, s.id, rid, b⟩])

/-- `FDE_READ`. -/
def readable (answers : List (Answer Bytes)) (s : Asocket) : Turn :=
  let g := gather maxPayload answers
  let p := passOn g.1 s
  if g.2 then after (.took g.1 :: p.2 ++ [.broke]) (localSocketClose p.1) else (some p.1, .took g.1 :: p.2)

def localSocketEventFunc (evRead evWrite : Bool) (writes : List (Answer ℕ)) (reads : List (Answer Bytes)) (s : Asocket) :
    Except Stop Turn := do
  let (t, goesOn) ← if evWrite then writable writes s else .ok ((some s, []), true)
  match t.1 with
  | some s' => if goesOn && evRead then .ok (after t.2 (readable reads s')) else .ok t
  | none => .ok t

def fdeventCallFdfunc (writes : List (Answer ℕ)) (reads : List (Answer Bytes)) (s : Asocket) : Except Stop Turn :=
  if s.fde.pending then localSocketEventFunc s.fde.evRead s.fde.evWrite writes reads { s with fde := s.fde.called }
  else .ok (some { s with fde := s.fde.called }, [])

/-! ### The daemon -/

inductive ConnectionState
  | offline
  | bootloader
  | device
  | host
  | recovery
  | sideload
  deriving DecidableEq

/-- The daemon, with the number of sockets that were created and all that has happened on
them; the acts of no socket are those of the connection. -/
structure Adbd where
  connectionState : ConnectionState
  nextId : ℕ
  count : ℕ
  socks : ℕ → Option Asocket
  log : List (Option ℕ × Act)

def Adbd.initial : Adbd := ⟨.offline, 1, 0, fun _ => none, []⟩

def Adbd.send (p : Apacket) (a : Adbd) : Adbd := { a with log := a.log ++ [(none, .sent p)] }

def Adbd.leave (r : ℕ) (t : Turn) (a : Adbd) : Adbd :=
  { a with socks := Function.update a.socks r t.1, log := a.log ++ t.2.map fun x => (some r, x) }

def Adbd.on (r : ℕ) (f : Asocket → Turn) (a : Adbd) : Adbd := (a.socks r).elim a fun s => a.leave r (f s)

/-- The first of the sockets that are not closing. They are in the order of their creation. -/
def findLocalSocket (id : ℕ) (a : Adbd) : Option ℕ :=
  (List.range a.count).find? fun r => (a.socks r).any fun s => !s.closing && s.id == id

def ifOpen (f : Asocket → Turn) (s : Asocket) : Turn := if s.closing || s.peer.isNone then (some s, []) else f s

/-- Every socket that is not closing and has a peer. -/
def Adbd.onAll (f : Asocket → Turn) (a : Adbd) : Adbd := (List.range a.count).foldl (fun a r => a.on r (ifOpen f)) a

/-- Every socket is one of the transport. -/
def closeAllSockets : Adbd → Adbd := Adbd.onAll localSocketClose

def runTransportDisconnects : Adbd → Adbd := Adbd.onAll remoteSocketDisconnect

def handleOffline (a : Adbd) : Adbd := runTransportDisconnects { a with connectionState := .offline }

def parseBanner (banner : Bytes) : ConnectionState :=
  let type := (cstr banner).takeWhile (· ≠ 0x3a)
  if type = lit "bootloader" then .bootloader
  else if type = lit "device" then .device
  else if type = lit "recovery" then .recovery
  else if type = lit "sideload" then .sideload
  else .host

/-- `send_connect`, with the banner of this daemon. -/
def sendConnect : Adbd → Adbd := Adbd.send ⟨aCnxn, aVersion, maxPayload, lit "sideload::" ++ [0]⟩

def createSocket (id rid : ℕ) : Asocket := localSocketReady ⟨id, some rid, [], false, fdeventInstall⟩

/-- `A_OPEN`. The one service is `sideload`; `spawned` is whether its thread and its pair of
sockets could be made. -/
def openService (p : Apacket) (spawned : Bool) (a : Adbd) : Adbd :=
  let name := cstr p.data.dropLast
  if (lit "sideload:").isPrefixOf name && spawned then
    Adbd.leave a.count
      (some (createSocket a.nextId p.arg0), [.opened name, .sent ⟨aOkay, a.nextId, p.arg0, []⟩])
      { a with nextId := (a.nextId + 1) % 2 ^ 32, count := a.count + 1 }
  else a.send ⟨aClse, 0, p.arg0, []⟩

/-- `A_OKAY`. -/
def handleOkay (rid : ℕ) (s : Asocket) : Turn :=
  (some (localSocketReady { s with peer := s.peer.or (some rid) }), [.readied])

/-- `A_WRTE`. -/
def handleWrte (rid : ℕ) (data : Bytes) (answers : List (Answer ℕ)) (s : Asocket) : Turn :=
  let e := localSocketEnqueue data answers s
  (e.1.1, .arrived data :: e.1.2 ++ if e.2 then [.sent ⟨aOkay, s.id, rid, []⟩] else [])

/-- `A_OKAY`, `A_CLSE` and `A_WRTE`, for the socket that they name. -/
def handleStream (p : Apacket) (answers : List (Answer ℕ)) (r : ℕ) (a : Adbd) : Adbd :=
  if p.command = aOkay then a.on r (handleOkay p.arg0)
  else if p.command = aClse then a.on r localSocketClose
  else if p.command = aWrte then a.on r (handleWrte p.arg0 p.data answers)
  else a

def handlePacket (p : Apacket) (spawned : Bool) (answers : List (Answer ℕ)) (a : Adbd) : Adbd :=
  if p.command = aSync then
    if p.arg0 ≠ 0 then a.send p else (handleOffline a).send p
  else if p.command = aCnxn then
    sendConnect { (if a.connectionState ≠ .offline then handleOffline a else a) with connectionState := parseBanner p.data }
  else if a.connectionState = .offline then a
  else if p.command = aOpen then openService p spawned a
  else (findLocalSocket p.arg1 a).elim a fun r => handleStream p answers r a

/-! ### The loop -/

inductive Event
  | packet (p : Apacket) (spawned : Bool) (answers : List (Answer ℕ))
  | select (r : ℕ) (read write : Bool)
  | call (r : ℕ) (writes : List (Answer ℕ)) (reads : List (Answer Bytes))
  | closeAll
  | removeTransport

def step (a : Adbd) : Event → Except Stop Adbd
  | .packet p spawned answers => .ok (handlePacket p spawned answers a)
  | .select r read write => .ok (a.on r fun s => (some { s with fde := fdeventProcess read write s.fde }, []))
  | .call r writes reads => (a.socks r).elim (.ok a) fun s => do .ok (a.leave r (← fdeventCallFdfunc writes reads s))
  | .closeAll => .ok (closeAllSockets a)
  | .removeTransport => .ok (handleOffline a)

def run : Adbd → List Event → Except Stop Adbd
  | a, [] => .ok a
  | a, ev :: evs => do run (← step a ev) evs

/-- What has happened on a stream. -/
def Adbd.history (r : ℕ) (a : Adbd) : List Act := (a.log.filter fun x => x.1 = some r).map Prod.snd

end Adb
end Recovery
