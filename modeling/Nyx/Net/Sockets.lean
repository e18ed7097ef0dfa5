import Nyx.Net.Tcp

/-! The socket layer of `net.c`, and its echo service.

A socket is a handle that refers to a connection by its index. The blocking calls poll the network
between attempts; here each attempt is an operation of its own, so anything may come between
two. -/
namespace Nyx.Net

abbrev maxSockets : Nat := 32
abbrev echoMax : Nat := 16
def echoPort : BitVec 16 := 7#16

abbrev SockId : Type := Fin maxSockets
abbrev EchoId : Type := Fin echoMax

inductive SockType
  | stream
  | dgram
deriving DecidableEq, Repr

/-- `since` is not in the source: it counts how often the entry `tcpConn` of the connection table
had been opened when the socket was given it. -/
structure NSock where
  inUse : Bool
  type : SockType
  tcpConn : Option ConnId
  localPort : BitVec 16
  listening : Bool
  since : Nat
deriving DecidableEq, Repr

structure Host where
  stack : Stack
  socks : SockId → NSock
  ephemeral : BitVec 16
  echoListen : Option ConnId
  echoConns : EchoId → Option ConnId

def Event.opens : Event → Bool
  | .connect _ | .listen _ | .spawn _ _ => true
  | .accept _ | .close _ => false

def births (log : List Event) (i : ConnId) : Nat := log.countP fun e => e.opens && e.conn == i

namespace Host

def setSock (h : Host) (k : SockId) (sock : NSock) : Host :=
  {h with socks := Function.update h.socks k sock}

@[simp] theorem setSock_self (h : Host) (k : SockId) (sock : NSock) :
    (h.setSock k sock).socks k = sock := by
  rw [setSock]
  exact Function.update_self k sock h.socks

theorem setSock_of_ne (h : Host) {k k' : SockId} (sock : NSock) (hk : k' ≠ k) :
    (h.setSock k sock).socks k' = h.socks k' := by
  rw [setSock]
  exact Function.update_of_ne hk sock h.socks

/-- The first unused entry of the socket table. -/
def freeSock (h : Host) : Option SockId :=
  (List.finRange maxSockets).find? fun k => !(h.socks k).inUse

def attach (h : Host) (k : SockId) (sock : NSock) (c : ConnId) : Host :=
  h.setSock k {sock with tcpConn := some c, since := births h.stack.log c}

/-! ### Sockets -/

/-- The receive ring of a datagram socket may not be had; then the entry stays free. -/
def nsockCreate (h : Host) (type : SockType) : Host × Option SockId :=
  match h.freeSock with
  | none => (h, none)
  | some k =>
    let (stack, ok) := if type = .dgram then h.stack.kmalloc else (h.stack, true)
    let h := {h with stack}
    let sock : NSock := {h.socks k with type, tcpConn := none, localPort := 0#16, listening := false}
    if ok then (h.setSock k {sock with inUse := true}, some k) else (h.setSock k sock, none)

/-- `nsock_connect` up to the point where it waits for the handshake. -/
def nsockConnect (h : Host) (k : SockId) (ip : BitVec 32) (port : BitVec 16) : Host :=
  if !(h.socks k).inUse || (h.socks k).type != .stream then h
  else
    let sport := h.ephemeral
    let next := sport + 1#16
    let h := {h with ephemeral := if 60000#16 ≤ next then 40000#16 else next}
    let (stack, c) := h.stack.tcpConnect ip port sport
    let h := {h with stack}
    match c with
    | none => h
    | some c => h.attach k (h.socks k) c

def nsockBind (h : Host) (k : SockId) (port : BitVec 16) : Host :=
  if !(h.socks k).inUse then h else h.setSock k {h.socks k with localPort := port}

def nsockListen (h : Host) (k : SockId) : Host :=
  if !(h.socks k).inUse || (h.socks k).localPort == 0#16 then h
  else
    let (stack, l) := h.stack.tcpListen (h.socks k).localPort
    let h := {h with stack}
    match l with
    | none => h
    | some l => h.attach k {h.socks k with listening := true} l

/-- One attempt of `nsock_accept`. When the socket table is full the connection has been accepted
all the same. -/
def nsockAccept (h : Host) (k : SockId) : Host × Option SockId :=
  match (h.socks k).tcpConn with
  | none => (h, none)
  | some l =>
    if !(h.socks k).inUse || !(h.socks k).listening then (h, none)
    else
      let (stack, child) := h.stack.tcpAccept l
      let h := {h with stack}
      match child, h.freeSock with
      | some c, some j =>
        let sock := {h.socks j with
          inUse := true, type := .stream, localPort := (h.socks k).localPort, listening := false}
        (h.attach j sock c, some j)
      | _, _ => (h, none)

def nsockSend (h : Host) (k : SockId) (data : List Byte) : Host × Bool :=
  match (h.socks k).tcpConn with
  | none => (h, false)
  | some c =>
    if !(h.socks k).inUse then (h, false)
    else
      let (stack, ok) := h.stack.tcpSend c data
      ({h with stack}, ok)

/-- One attempt of `nsock_recv`. -/
def nsockRecv (h : Host) (k : SockId) (len : Nat) : Host × Option (List Byte) :=
  match (h.socks k).tcpConn with
  | none => (h, none)
  | some c =>
    if !(h.socks k).inUse || len == 0 then (h, none)
    else
      let (stack, data) := h.stack.tcpRecv c len
      ({h with stack}, data)

def nsockClose (h : Host) (k : SockId) : Host :=
  if !(h.socks k).inUse then h
  else
    let stack :=
      match (h.socks k).tcpConn with
      | none => h.stack
      | some c => h.stack.tcpClose c
    {h with stack}.setSock k {h.socks k with inUse := false, tcpConn := none}

/-! ### The echo service -/

def freeEcho (h : Host) : Option EchoId :=
  (List.finRange echoMax).find? fun e => (h.echoConns e).isNone

/-- The listener's next child is taken over, and forgotten if there is no entry for it. -/
def echoAdopt (h : Host) (l : ConnId) : Host × Bool :=
  let (stack, child) := h.stack.tcpAccept l
  let h := {h with stack}
  match child with
  | none => (h, false)
  | some c =>
    match h.freeEcho with
    | none => (h, true)
    | some e => ({h with echoConns := Function.update h.echoConns e (some c)}, true)

/-- What was received is sent back. -/
def echoServe (h : Host) (e : EchoId) : Host :=
  match h.echoConns e with
  | none => h
  | some c =>
    if h.stack.tcpState c = .closed then
      {h with echoConns := Function.update h.echoConns e none}
    else
      let (stack, data) := h.stack.tcpRecv c 512
      let data := data.getD []
      {h with stack := if data ≠ [] then (stack.tcpSend c data).1 else stack}

/-- The loop over `tcp_accept`. Every turn accepts a connection that was not accepted, so there
are at most as many as there are connections. -/
def echoAdoptAll (h : Host) (l : ConnId) : Nat → Host
  | 0 => h
  | fuel + 1 => if (h.echoAdopt l).2 then (h.echoAdopt l).1.echoAdoptAll l fuel else (h.echoAdopt l).1

def tcpEchoPoll (h : Host) : Host :=
  match h.echoListen with
  | none => h
  | some l => (List.finRange echoMax).foldl echoServe (h.echoAdoptAll l (tcpMaxConns + 1))

/-- The host after `tcp_init` and `tcp_echo_init`. -/
def boot (nics : List (BitVec 32)) (resolves : BitVec 32 → Bool) (memory : Nat → Bool) : Host :=
  let (stack, l) := (Stack.boot nics resolves memory).tcpListen echoPort
  ⟨stack, fun _ => ⟨false, .stream, some 0, 0#16, false, 0⟩, 40000#16, l, fun _ => none⟩

end Host

/-! ### Runs -/

/-- The system calls, the echo service and what comes from outside: packets from the cards and
from the loopback ring, and the clock. -/
inductive HostOp
  | socket (type : SockType)
  | connect (k : SockId) (ip : BitVec 32) (port : BitVec 16)
  | bind (k : SockId) (port : BitVec 16)
  | listen (k : SockId)
  | accept (k : SockId)
  | send (k : SockId) (data : List Byte)
  | recv (k : SockId) (len : Nat)
  | close (k : SockId)
  | echoAdopt
  | echoServe (e : EchoId)
  | tick
  | clock (now : BitVec 32)
  | packet (d : Datagram)
  | deliver
  | debugDrop (n : Nat)

namespace Host

def onStack (h : Host) (op : Op) : Host := {h with stack := h.stack.step op}

def step (h : Host) : HostOp → Host
  | .socket type => (h.nsockCreate type).1
  | .connect k ip port => h.nsockConnect k ip port
  | .bind k port => h.nsockBind k port
  | .listen k => h.nsockListen k
  | .accept k => (h.nsockAccept k).1
  | .send k data => (h.nsockSend k data).1
  | .recv k len => (h.nsockRecv k len).1
  | .close k => h.nsockClose k
  | .echoAdopt => h.echoListen.elim h fun l => (h.echoAdopt l).1
  | .echoServe e => h.echoServe e
  | .tick => h.onStack .tick
  | .clock now => h.onStack (.clock now)
  | .packet d => h.onStack (.packet d)
  | .deliver => h.onStack .deliver
  | .debugDrop n => h.onStack (.debugDrop n)

end Host

end Nyx.Net
