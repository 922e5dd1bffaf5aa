import Mos.Machine.Bytes
import Mos.Net.Headers

namespace Mos.Dhcp
open Machine Arp

def maxPacketLen : Nat := 576
def defaultMtu : UInt16 := 1500
def dhcpMagic : UInt32 := 0x63825363

/-- A frame that `packet_recvmsg` returns, and what the kernel heap has behind the buffer
that the frame is copied to. -/
structure Receipt where
  frame : List UInt8
  behind : Bytes

/-- `received_eh`: the buffer is cleared, and gets as much of the frame as it has room for. -/
def receivedEh (r : Receipt) : Bytes := fun x =>
  if x < maxPacketLen then r.frame.getD x 0 else r.behind x

def slice (buf : Bytes) (i n : Nat) : List UInt8 := (List.range n).map fun k => buf (i + k)

/-- `ip4_validate_header` of the header behind the Ethernet header. -/
def ip4ValidateHeader (eh : Bytes) (protocal : UInt8) : Bool :=
  Headers.ip4ValidateHeader (slice eh 14 20) protocal

/-- `udp_validate_header` of what is behind the IP header, as far as its length field goes. -/
def udpValidateHeader (eh : Bytes) : Bool :=
  Headers.udpValidateHeader (slice eh 34 (max 8 (htons (eh.half 38)).toNat)) (htonl (eh.word 26))
    (htonl (eh.word 30))

/-- `struct dhcp_packet` has `op` at offset 0, `htype` at 1, `hlen` at 2, `xip` at 4, `yiaddr` at
16, `siaddr` at 20, `magic` at 236 and `options` at 240. -/
def dhcpValidateHeader (dhcp : Bytes) : Bool :=
  dhcp 1 == 1 && dhcp 2 == 6 && dhcp.word 236 == htonl dhcpMagic

def dhcpParseFromEhPacket (eh : Bytes) : Option Bytes :=
  if ip4ValidateHeader eh 17 && udpValidateHeader eh && dhcpValidateHeader (eh.view 42) then
    some (eh.view 42)
  else none

/-- The loop over the options, up to the one with the code 0xFF; none if it does not come to
one as long as `i` is an `int`. -/
def walkOptions {α : Type} (option : Nat → α → α) (options : Bytes) : Nat → Nat → α → Option α
  | 0, _, _ => none
  | rounds + 1, i, found =>
    if options i = 0xFF then some found
    else walkOptions option options rounds (i + 2 + (options (i + 1)).toNat) (option i found)

def optionRounds : Nat := 2 ^ 31

structure OfferOptions where
  messageType : UInt8 := 0
  dhcpServerIp : UInt32 := 0

def offerOption (options : Bytes) (i : Nat) (o : OfferOptions) : OfferOptions :=
  if options i = 53 then { o with messageType := options (i + 2) }
  else if options i = 54 then { o with dhcpServerIp := options.word (i + 2) }
  else o

/-- The outer `none` is a loop without an end, the inner one `-EPROTO`. -/
def dhcpOfferParseOptions (options : Bytes) : Option (Option UInt32) :=
  (walkOptions (offerOption options) options optionRounds 0 {}).map fun o =>
    if o.messageType = 2 then some (htonl o.dhcpServerIp) else none

structure AckOptions where
  subnetMask : UInt32 := 0
  routerIp : UInt32 := 0
  leaseTime : UInt32 := 0
  dhcpServerIp : UInt32 := 0
  dnsServerIp : UInt32 := 0
  mtu : UInt16 := htons defaultMtu
  messageType : UInt8 := 0

def ackOption (options : Bytes) (i : Nat) (o : AckOptions) : AckOptions :=
  if options i = 1 then { o with subnetMask := options.word (i + 2) }
  else if options i = 3 then { o with routerIp := options.word (i + 2) }
  else if options i = 6 then { o with dnsServerIp := options.word (i + 2) }
  else if options i = 26 then { o with mtu := options.half (i + 2) }
  else if options i = 51 then { o with leaseTime := options.word (i + 2) }
  else if options i = 53 then { o with messageType := options (i + 2) }
  else if options i = 54 then { o with dhcpServerIp := options.word (i + 2) }
  else o

structure Lease where
  localIp : UInt32 := 0
  subnetMask : UInt32 := 0
  routerIp : UInt32 := 0
  leaseTime : UInt32 := 0
  dhcpServerIp : UInt32 := 0
  dnsServerIp : UInt32 := 0
  mtu : UInt16 := 0
  deriving DecidableEq, Repr

/-- `dhcp_ack_parse_options`, with the values as they are written later; `yiaddr` is that of
the packet. -/
def dhcpAckParseOptions (options : Bytes) (yiaddr : UInt32) : Option (Option Lease) :=
  (walkOptions (ackOption options) options optionRounds 0 {}).map fun o =>
    if o.messageType ≠ 5 ∧ o.messageType ≠ 6 then none
    else some
      { localIp := htonl yiaddr
        subnetMask := htonl o.subnetMask
        routerIp := htonl o.routerIp
        leaseTime := htonl o.leaseTime
        dhcpServerIp := htonl o.dhcpServerIp
        dnsServerIp := htonl o.dnsServerIp
        mtu := htons o.mtu }

inductive Sent where
  | discovery (xip : UInt32)
  | request (xip requestedIp serverIp : UInt32)
  deriving DecidableEq, Repr

/-- Where `dhcp_setup` waits: in the first loop, with `attempt_discovery`, or in the second one;
or it has left the second loop, or reads options for ever. -/
inductive Phase where
  | offer (attempt : UInt8)
  | ack
  | done
  | stuck
  deriving DecidableEq, Repr

structure Client where
  dev : Lease
  xip : UInt32
  phase : Phase := .offer 0
  sent : List Sent := []

/-- `dhcp_setup` up to the first `recvmsg`; `-EBUSY` when the device is off. -/
def dhcpSetup (state : UInt32) (dev : Lease) (xip : UInt32) : Option Client :=
  if state &&& netdevStateOff ≠ 0 then none
  else some { dev, xip, sent := [.discovery xip] }

def discoverAgain (c : Client) (attempt : UInt8) : Client :=
  { c with
    phase := .offer attempt
    sent := if attempt % 5 = 0 then .discovery c.xip :: c.sent else c.sent }

def offerRound (c : Client) (attempt : UInt8) (eh : Bytes) : Client :=
  match dhcpParseFromEhPacket eh with
  | none => discoverAgain c (attempt + 1)
  | some dhcp =>
    match dhcpOfferParseOptions (dhcp.view 240) with
    | none => { c with phase := .stuck }
    | some none => discoverAgain c (attempt + 1)
    | some (some _) =>
      { c with
        phase := .ack
        sent := .request c.xip (htonl (dhcp.word 16)) (htonl (dhcp.word 20)) :: c.sent }

def ackRound (c : Client) (eh : Bytes) : Client :=
  match dhcpParseFromEhPacket eh with
  | none => c
  | some dhcp =>
    match dhcpAckParseOptions (dhcp.view 240) (dhcp.word 16) with
    | none => { c with phase := .stuck }
    | some none => c
    | some (some lease) => { c with dev := lease, phase := .done }

def step (c : Client) (r : Receipt) : Option Client :=
  match c.phase with
  | .offer attempt => some (offerRound c attempt (receivedEh r))
  | .ack => some (ackRound c (receivedEh r))
  | .done | .stuck => none

end Mos.Dhcp
