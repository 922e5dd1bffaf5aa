import Mathlib

namespace Mos.Arp

abbrev Mac := Vector UInt8 6

def htons (n : UInt16) : UInt16 := n <<< 8 ||| n >>> 8

def htonl (l : UInt32) : UInt32 :=
  (l &&& 0xFF) <<< 24 ||| (l &&& 0xFF00) <<< 8 ||| (l &&& 0xFF0000) >>> 8 |||
    (l &&& 0xFF000000) >>> 24

def netdevStateOff : UInt32 := 1
def nudReachable : UInt8 := 0x02
def arpReply : UInt16 := 2

structure NetDevice where
  state : UInt32 := 0
  devAddr : Mac
  broadcastAddr : Mac
  zeroAddr : Mac
  routerAddr : Mac
  localIp : UInt32
  subnetMask : UInt32
  deriving DecidableEq, Repr

/-- `struct neighbour`, with its address and the number of its device. -/
structure Neighbour where
  addr : Nat
  ha : Mac
  ip : UInt32
  nudState : UInt8
  dev : Nat
  deriving DecidableEq, Repr

/-- `struct arp_packet`: the fields of more than one byte are as they are on the wire. -/
structure ArpPacket where
  htype : UInt16
  ptype : UInt16
  hlen : UInt8
  plen : UInt8
  oper : UInt16
  sha : Mac
  spa : UInt32
  tha : Mac
  tpa : UInt32
  deriving DecidableEq, Repr

/-- A call of `lookup_mac_addr_from_ip` that waits for a reply on its own socket. `router`
is the router's address when the caller's address is not on the local subnet. -/
structure Query where
  ip : UInt32
  dev : Nat
  router : Option Mac
  deriving DecidableEq, Repr

/-- What a lookup returned, and what it should have returned; none is the null pointer. -/
structure Answer where
  got : Option Mac
  expected : Option Mac
  deriving DecidableEq, Repr

/-- The neighbours, the devices and the calls that wait. `next` is where the next neighbour
is allocated. No code reads the last two fields: the hardware addresses learned so far with
the protocol address on the wire, the latest first, and the answers given. -/
structure Stack where
  devs : Nat → NetDevice
  currentNetdev : Nat := 0
  lneighbour : List Neighbour := []
  next : Nat := 1
  waiting : List Query := []
  learned : List (UInt32 × Mac) := []
  answers : List Answer := []

namespace Stack

def netdev (s : Stack) : NetDevice := s.devs s.currentNetdev

def recent (s : Stack) (ip : UInt32) : Option Mac :=
  (s.learned.find? (fun l => l.1 == htonl ip)).map Prod.snd

end Stack

def reachable (nb : Neighbour) : Bool := nb.nudState &&& nudReachable != 0

def getMacAddrFromIp (s : Stack) (ip : UInt32) : Option Mac :=
  (s.lneighbour.find? fun nb => nb.ip == ip && reachable nb).map fun nb => (s.devs nb.dev).devAddr

/-- What a lookup comes to before it waits: it returns, or it sends a request. -/
inductive Lookup where
  | returns (ha : Option Mac)
  | asks
  deriving DecidableEq, Repr

def lookupMacAddrFromIp (s : Stack) (ip : UInt32) : Lookup :=
  match getMacAddrFromIp s ip with
  | some maddr => .returns (some maddr)
  | none => if s.netdev.state &&& netdevStateOff != 0 then .returns none else .asks

/-- The test of `lookup_mac_addr_for_ethernet`, whose right side is 0 or 1. -/
def isNeighbour (d : NetDevice) (ip : UInt32) : Bool :=
  d.subnetMask &&& ip == if d.localIp != 0 && d.subnetMask != 0 then 1 else 0

def lookupMacAddrForEthernet (s : Stack) (d : NetDevice) (ip : UInt32) : Lookup :=
  if isNeighbour d ip then lookupMacAddrFromIp s ip else .returns (some d.routerAddr)

def replies (ip : UInt32) (rarp : ArpPacket) : Bool :=
  rarp.oper == htons arpReply && rarp.spa == htonl ip

def Stack.listAddTail (s : Stack) (ha : Mac) (ip : UInt32) (dev : Nat) : Stack :=
  { s with
    lneighbour := s.lneighbour ++ [{ addr := s.next, ha, ip, nudState := nudReachable, dev }]
    next := s.next + 1
    learned := (ip, ha) :: s.learned }

/-- `list_del` of the neighbour at an address; none where there is no neighbour there. -/
def listDel (l : List Neighbour) (addr : Nat) : Option (List Neighbour) :=
  if l.any (·.addr == addr) then some (l.eraseP (·.addr == addr)) else none

def deletePrev (l : List Neighbour) : Option Nat → Option (List Neighbour)
  | none => some l
  | some prevNb => listDel l prevNb

def replaced (macAddress : Mac) (ip : UInt32) (nb : Neighbour) : Bool :=
  (nb.ip == ip || nb.ha == macAddress) && reachable nb

/-- The loop of `neighbour_update_mapping` over the neighbours still to come, and the
deletion behind it; `l` is the list as it is by now. -/
def updateLoop (macAddress : Mac) (ip : UInt32) :
    List Neighbour → Option Nat → List Neighbour → Option (List Neighbour)
  | [], prevNb, l => deletePrev l prevNb
  | nbIter :: rest, prevNb, l => do
    let l ← deletePrev l prevNb
    updateLoop macAddress ip rest (if replaced macAddress ip nbIter then some nbIter.addr else none) l

/-- `neighbour_update_mapping`. Nothing sets `prev_nb` before the loop: what is on the stack is
deleted in the first round, or behind the loop if there is none. The first neighbour must not
be the one, for the loop goes on from it. -/
def neighbourUpdateMapping (s : Stack) (prevNb : Option Nat) (macAddress : Mac) (ip : UInt32) :
    Option Stack := do
  let l ← deletePrev s.lneighbour prevNb
  if prevNb ≠ none ∧ prevNb = s.lneighbour.head?.map Neighbour.addr then none
  else
    let l ← updateLoop macAddress ip l none l
    pure ({ s with lneighbour := l }.listAddTail macAddress ip s.currentNetdev)

def arpValidatePacket (ap : ArpPacket) : Bool :=
  ap.htype == htons 1 && ap.ptype == htons 0x0800 && ap.hlen == 6 && ap.plen == 4

def isBroadcastMacAddress (s : Stack) (maddr : Mac) : Bool :=
  s.netdev.broadcastAddr == maddr || s.netdev.zeroAddr == maddr

/-- What `net_default_rx_handler` does with an ARP frame to the neighbours. -/
def netDefaultRxHandler (s : Stack) (prevNb : Option Nat) (ap : ArpPacket) : Option Stack :=
  if !arpValidatePacket ap then some s
  else if ap.tpa == htonl s.netdev.localIp then some s
  else if ap.tpa == ap.spa && isBroadcastMacAddress s ap.tha then
    neighbourUpdateMapping s prevNb ap.sha ap.spa
  else some s

inductive Event where
  | lookup (dev : Nat) (ip : UInt32)
  /-- The `k`-th waiting call receives a packet. -/
  | recvmsg (k : Nat) (rarp : ArpPacket)
  /-- A frame is handled, with what is on the stack where `prev_nb` is. -/
  | frame (prevNb : Option Nat) (ap : ArpPacket)
  | configure (dev : Nat) (d : NetDevice)
  deriving DecidableEq

def onSubnet (d : NetDevice) (ip : UInt32) : Bool := d.subnetMask &&& ip == d.subnetMask &&& d.localIp

def Stack.answer (s : Stack) (got expected : Option Mac) : Stack :=
  { s with answers := s.answers ++ [{ got, expected }] }

/-- The router's address where it is the one a lookup should give. -/
def routerFor (d : NetDevice) (ip : UInt32) : Option Mac :=
  if onSubnet d ip then none else some d.routerAddr

def step (s : Stack) : Event → Option Stack
  | .lookup dev ip =>
    let router := routerFor (s.devs dev) ip
    match lookupMacAddrForEthernet s (s.devs dev) ip with
    | .returns ha => some (s.answer ha (router <|> s.recent ip))
    | .asks => some { s with waiting := s.waiting ++ [{ ip, dev := s.currentNetdev, router }] }
  | .recvmsg k rarp => do
    let q ← s.waiting[k]?
    if replies q.ip rarp then
      let s := { s with waiting := s.waiting.eraseIdx k }.listAddTail rarp.sha rarp.spa q.dev
      pure (s.answer (some rarp.sha) (q.router <|> s.recent q.ip))
    else pure s
  | .frame prevNb ap => netDefaultRxHandler s prevNb ap
  | .configure dev d => some { s with devs := Function.update s.devs dev d }

end Mos.Arp
