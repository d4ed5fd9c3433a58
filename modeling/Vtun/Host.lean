/-
Session records and their flags (`vtun.h`).

A `VtunHost` holds the fields of `struct vtun_host` that the modelled functions
read.  The flag word is a 32-bit vector and the numbers are C `int`s.
-/
import Vtun.Io

namespace Vtun

/-! ### Flags -/

/-! The bits of `VTUN_ZLIB` and so on, under these names without the prefix. -/

namespace Flag

def zlib : BitVec 32 := 0x0001
def lzo : BitVec 32 := 0x0002
def shape : BitVec 32 := 0x0004
def encrypt : BitVec 32 := 0x0008
def tcp : BitVec 32 := 0x0010
def udp : BitVec 32 := 0x0020
def protMask : BitVec 32 := tcp ||| udp
def keepAlive : BitVec 32 := 0x0040
def tty : BitVec 32 := 0x0100
def pipe : BitVec 32 := 0x0200
def ether : BitVec 32 := 0x0400
def tun : BitVec 32 := 0x0800
def typeMask : BitVec 32 := tty ||| pipe ||| ether ||| tun

/-- `VTUN_CLNT_MASK`: the flags a server never supplies. -/
def clntMask : BitVec 32 := 0xf000

def stat : BitVec 32 := 0x1000
def natHackMask : BitVec 32 := 0xc000

end Flag

/-- `VTUN_LEGACY_ENCRYPT`. -/
def legacyEncrypt : Int32 := 999

/-- `host->flags & bit`, as a condition. -/
def hasFlag (flags bit : BitVec 32) : Bool := flags &&& bit != 0

/-! ### Session records -/

/-- `VTUN_MULTI_DENY`, `VTUN_MULTI_ALLOW` and `VTUN_MULTI_KILL`. -/
inductive Multi
  | deny
  | allow
  | kill
  deriving DecidableEq, Repr

/-- `struct vtun_host`. -/
structure VtunHost where
  host : List Byte
  passwd : List Byte
  flags : BitVec 32
  spdIn : Int32
  spdOut : Int32
  zlevel : Int32
  cipher : Int32
  multi : Multi
  deriving DecidableEq, Repr

end Vtun
