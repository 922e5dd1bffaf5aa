import Mos.Machine.OnesComplement
import Mos.Net.Frames

namespace Mos.Headers
open Machine Arp Frames

def halfBytes (x : UInt16) : List UInt8 := [x.toUInt8, (x >>> 8).toUInt8]

def wordBytes (x : UInt32) : List UInt8 :=
  [x.toUInt8, (x >>> 8).toUInt8, (x >>> 16).toUInt8, (x >>> 24).toUInt8]

def singularChecksum (packet : List UInt8) : UInt16 := (packetChecksumStart packet).toUInt16 ^^^ 0xFFFF

/-! ### `struct ip4_packet`

It has 20 bytes; `header_checksum` is at offset 10, the word 5. -/

def ip4ValidateHeader (ip : List UInt8) (protocal : UInt8) : Bool :=
  let receivedChecksum := halfAt ip 5
  let ip := setHalfAt ip 5 0
  let packetChecksum := singularChecksum (ip.take 20)
  !(ip.getD 0 0 >>> 4 != 4 || ip.getD 0 0 &&& 0x0F != 5 || ip.getD 9 0 != protocal ||
    receivedChecksum != packetChecksum.toNat)

/-- The stores of `ip4_build_header` before the checksum, which stays what it was in the
buffer. `identification` has 16 bits. -/
def ip4Fields (packet : List UInt8) (packetSize : UInt16) (protocal : UInt8)
    (sourceIp destIp identification : UInt32) : List UInt8 :=
  [0x45, 0] ++ halfBytes (htons packetSize) ++ halfBytes (htonl identification).toUInt16 ++
    [0, 0, 0x80, protocal, packet.getD 10 0, packet.getD 11 0] ++ wordBytes (htonl sourceIp) ++
    wordBytes (htonl destIp)

def ip4BuildHeader (packet : List UInt8) (packetSize : UInt16) (protocal : UInt8)
    (sourceIp destIp identification : UInt32) : List UInt8 :=
  let fields := ip4Fields packet packetSize protocal sourceIp destIp identification
  setHalfAt (fields ++ packet.drop 20) 5 (singularChecksum fields)

/-! ### `struct tcp_packet`

It has 20 bytes and the options behind them; `checksum` is at offset 16, the word 8. -/

def tcpCalculateChecksum (tcp : List UInt8) (tcpLen : UInt16) (sourceIp destIp : UInt32) : UInt16 :=
  transportCalculateChecksum ((setHalfAt tcp 8 0).take tcpLen.toNat) 6
    (wordBytes (htonl sourceIp) ++ wordBytes (htonl destIp))

def tcpValidateHeader (tcp : List UInt8) (tcpLen : UInt16) (sourceIp destIp : UInt32) : Bool :=
  halfAt tcp 8 == (tcpCalculateChecksum tcp tcpLen sourceIp destIp).toNat

/-- The stores of `tcp_build_header` before the checksum. The bits `ns`, `reserved`, `ece` and
`cwr` stay what they were in the buffer; the others stand in the order of `TCPCB_FLAG_*`. -/
def tcpFields (tcp : List UInt8) (sourcePort destPort : UInt16) (seqNumber ackNumber : UInt32)
    (flags window : UInt16) (options : List UInt8) : List UInt8 :=
  let dataOffset := UInt8.ofNat ((20 + options.length) / 4)
  halfBytes (htons sourcePort) ++ halfBytes (htons destPort) ++ wordBytes (htonl seqNumber) ++
    wordBytes (htonl ackNumber) ++
    [(tcp.getD 12 0 &&& (0x0F : UInt8)) ||| dataOffset <<< 4,
      (tcp.getD 13 0 &&& (0xC0 : UInt8)) ||| (flags.toUInt8 &&& (0x3F : UInt8))] ++
    halfBytes (htons window) ++ [0, 0, 0, 0] ++ options

/-- `tcp_build_header` in a buffer that holds the payload; `none` if the assertion on the
length of the options fails. -/
def tcpBuildHeader (tcp : List UInt8) (sourceIp : UInt32) (sourcePort : UInt16) (destIp : UInt32)
    (destPort : UInt16) (seqNumber ackNumber : UInt32) (flags window : UInt16)
    (options : List UInt8) (packetLen : UInt32) : Option (List UInt8) :=
  if options.length % 4 = 0 then
    let fields := tcpFields tcp sourcePort destPort seqNumber ackNumber flags window options
    let tcp := fields ++ tcp.drop (20 + options.length)
    some (setHalfAt tcp 8 (tcpCalculateChecksum tcp packetLen.toUInt16 sourceIp destIp))
  else none

/-! ### `struct udp_packet`

It has 8 bytes; `length` is the word 2 and `checksum` the word 3. -/

def udpCalculateChecksum (udp : List UInt8) (packetLen : UInt16) (sourceIp destIp : UInt32) : UInt16 :=
  transportCalculateChecksum ((setHalfAt udp 3 0).take packetLen.toNat) 17
    (wordBytes (htonl sourceIp) ++ wordBytes (htonl destIp))

def udpValidateHeader (udp : List UInt8) (sourceIp destIp : UInt32) : Bool :=
  let receivedChecksum := halfAt udp 3
  let packetLen := htons (UInt16.ofNat (halfAt udp 2))
  receivedChecksum == 0 ||
    receivedChecksum == (udpCalculateChecksum udp packetLen sourceIp destIp).toNat

/-- The stores of `udp_build_header` before the checksum, which stays what it was in the
buffer. -/
def udpFields (udp : List UInt8) (packetLen sourcePort destPort : UInt16) : List UInt8 :=
  halfBytes (htons sourcePort) ++ halfBytes (htons destPort) ++ halfBytes (htons packetLen) ++
    [udp.getD 6 0, udp.getD 7 0]

def udpBuildHeader (udp : List UInt8) (packetLen : UInt16) (sourceIp : UInt32) (sourcePort : UInt16)
    (destIp : UInt32) (destPort : UInt16) : List UInt8 :=
  let udp := udpFields udp packetLen sourcePort destPort ++ udp.drop 8
  setHalfAt udp 3 (udpCalculateChecksum udp packetLen sourceIp destIp)

end Mos.Headers
