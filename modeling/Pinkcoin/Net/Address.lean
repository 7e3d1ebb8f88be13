/-
Network addresses: the 16 bytes of `CNetAddr`, which of them are routable,
and the group and the key the address manager hashes.
-/
import Pinkcoin.Wire

namespace Pinkcoin

/-- `CNetAddr`. IPv4 addresses are mapped into IPv6. -/
structure CNetAddr where
  ip : Vector UInt8 16
  deriving DecidableEq

namespace CNetAddr

/-- `memcmp(ip, pch, sizeof(pch)) == 0`. -/
def startsWith (a : CNetAddr) (pch : List UInt8) : Bool := a.ip.toList.take pch.length == pch

def pchIPv4 : List UInt8 := [0, 0, 0, 0, 0, 0, 0, 0, 0, 0, 0xff, 0xff]
def pchOnionCat : List UInt8 := [0xFD, 0x87, 0xD8, 0x7E, 0xEB, 0x43]
def pchGarliCat : List UInt8 := [0xFD, 0x60, 0xDB, 0x4D, 0xDD, 0xB5]

/-- `GetByte`, from the end. -/
def getByte (a : CNetAddr) (n : Nat) : Nat := (a.ip.toList.getD (15 - n) 0).toNat

def isIPv4 (a : CNetAddr) : Bool := a.startsWith pchIPv4

def isRFC1918 (a : CNetAddr) : Bool :=
  a.isIPv4 &&
    (a.getByte 3 == 10 || (a.getByte 3 == 192 && a.getByte 2 == 168) ||
      (a.getByte 3 == 172 && (16 ≤ a.getByte 2 && a.getByte 2 ≤ 31)))

def isRFC3927 (a : CNetAddr) : Bool := a.isIPv4 && (a.getByte 3 == 169 && a.getByte 2 == 254)

def isRFC3849 (a : CNetAddr) : Bool :=
  a.getByte 15 == 0x20 && a.getByte 14 == 0x01 && a.getByte 13 == 0x0D && a.getByte 12 == 0xB8

def isRFC3964 (a : CNetAddr) : Bool := a.getByte 15 == 0x20 && a.getByte 14 == 0x02

def isRFC6052 (a : CNetAddr) : Bool := a.startsWith [0, 0x64, 0xFF, 0x9B, 0, 0, 0, 0, 0, 0, 0, 0]

def isRFC4380 (a : CNetAddr) : Bool :=
  a.getByte 15 == 0x20 && a.getByte 14 == 0x01 && a.getByte 13 == 0 && a.getByte 12 == 0

def isRFC4862 (a : CNetAddr) : Bool := a.startsWith [0xFE, 0x80, 0, 0, 0, 0, 0, 0]

def isRFC4193 (a : CNetAddr) : Bool := a.getByte 15 &&& 0xFE == 0xFC

def isRFC6145 (a : CNetAddr) : Bool := a.startsWith [0, 0, 0, 0, 0, 0, 0, 0, 0xFF, 0xFF, 0, 0]

def isRFC4843 (a : CNetAddr) : Bool :=
  a.getByte 15 == 0x20 && a.getByte 14 == 0x01 && a.getByte 13 == 0x00 && a.getByte 12 &&& 0xF0 == 0x10

def isTor (a : CNetAddr) : Bool := a.startsWith pchOnionCat

def isI2P (a : CNetAddr) : Bool := a.startsWith pchGarliCat

def isLocal (a : CNetAddr) : Bool :=
  (a.isIPv4 && (a.getByte 3 == 127 || a.getByte 3 == 0)) ||
    a.startsWith [0, 0, 0, 0, 0, 0, 0, 0, 0, 0, 0, 0, 0, 0, 0, 1]

def isValid (a : CNetAddr) : Bool :=
  if a.startsWith (pchIPv4.drop 3) then false
  else if a.startsWith (List.replicate 16 0) then false
  else if a.isRFC3849 then false
  else if a.isIPv4 then !(a.ip.toList.drop 12 == [0xff, 0xff, 0xff, 0xff] || a.ip.toList.drop 12 == [0, 0, 0, 0])
  else true

def isRoutable (a : CNetAddr) : Bool :=
  a.isValid &&
    !(a.isRFC1918 || a.isRFC3927 || a.isRFC4862 || (a.isRFC4193 && !a.isTor && !a.isI2P) || a.isRFC4843 || a.isLocal)

/-- `enum Network`. -/
def NET_UNROUTABLE : Nat := 0
def NET_IPV4 : Nat := 1
def NET_IPV6 : Nat := 2
def NET_TOR : Nat := 3
def NET_I2P : Nat := 4

/-- The end of `GetGroup`: the class, and `nBits` bits from `nStartByte` on. -/
def groupBytes (a : CNetAddr) (nClass nStartByte nBits : Nat) : List UInt8 :=
  let whole := (List.range (nBits / 8)).map fun i => UInt8.ofNat (a.getByte (15 - (nStartByte + i)))
  let last := a.getByte (15 - (nStartByte + nBits / 8)) ||| (2 ^ (nBits % 8) - 1)
  UInt8.ofNat nClass :: whole ++ if 0 < nBits % 8 then [UInt8.ofNat last] else []

/-- `GetGroup`. The class of local addresses is overwritten: they are not
routable. -/
def getGroup (a : CNetAddr) : List UInt8 :=
  if !a.isRoutable then a.groupBytes NET_UNROUTABLE 0 0
  else if a.isIPv4 || a.isRFC6145 || a.isRFC6052 then a.groupBytes NET_IPV4 12 16
  else if a.isRFC3964 then a.groupBytes NET_IPV4 2 16
  else if a.isRFC4380 then
    [UInt8.ofNat NET_IPV4, UInt8.ofNat (a.getByte 3 ^^^ 0xFF), UInt8.ofNat (a.getByte 2 ^^^ 0xFF)]
  else if a.isTor then a.groupBytes NET_TOR 6 4
  else if a.isI2P then a.groupBytes NET_I2P 6 4
  else if a.getByte 15 == 0x20 && a.getByte 14 == 0x11 && a.getByte 13 == 0x04 && a.getByte 12 == 0x70 then
    a.groupBytes NET_IPV6 0 36
  else a.groupBytes NET_IPV6 0 32

end CNetAddr

/-- `CService`. -/
structure CService where
  addr : CNetAddr
  port : UInt16
  deriving DecidableEq

/-- `CService::GetKey`. -/
def CService.getKey (s : CService) : List UInt8 :=
  s.addr.ip.toList ++ [UInt8.ofNat (s.port.toNat / 0x100), UInt8.ofNat (s.port.toNat &&& 0x0FF)]

/-- `CAddress`. Its `nLastTry`, memory only, is with `CAddrInfo`. -/
structure CAddress where
  service : CService
  nServices : UInt64
  nTime : UInt32
  deriving DecidableEq

def NODE_NETWORK : UInt64 := 1

/-- `CAddress()`. -/
def CAddress.init : CAddress := ⟨⟨⟨Vector.replicate 16 0⟩, 0⟩, NODE_NETWORK, 100000000⟩

end Pinkcoin
