import HorizonOs.Constellation.Registry
import HorizonOs.Constellation.Wire

/-!
# Rendezvous messages

What a peer asks a rendezvous and what it is answered: a tag byte, then length-prefixed
fingerprints and socket addresses. An address is written as its family, its octets and its port.
-/

namespace HorizonOs.Constellation

open HorizonOs.Lib.ByteCodec

set_option autoImplicit false

/-! ## Addresses -/

inductive IpAddr where
  | v4 (octets : FixedBytes 4)
  | v6 (octets : FixedBytes 16)
  deriving DecidableEq

def SocketAddr.ip : SocketAddr → IpAddr
  | .v4 ip _ => .v4 ip
  | .v6 ip _ _ _ => .v6 ip

def SocketAddr.port : SocketAddr → UInt16
  | .v4 _ port => port
  | .v6 _ port _ _ => port

/-- `SocketAddr::new`: no flow information and no scope. -/
def SocketAddr.new (ip : IpAddr) (port : UInt16) : SocketAddr :=
  match ip with
  | .v4 octets => .v4 octets port
  | .v6 octets => .v6 octets port 0 0

@[simp] theorem ip_new (ip : IpAddr) (port : UInt16) : (SocketAddr.new ip port).ip = ip := by
  cases ip <;> rfl

@[simp] theorem port_new (ip : IpAddr) (port : UInt16) : (SocketAddr.new ip port).port = port := by
  cases ip <;> rfl

namespace Rendezvous

/-! ## Messages -/

inductive Req where
  | register (fp : String) (port : UInt16)
  | unregister (fp : String) (port : UInt16)
  | lookup (fp : String)
  /-- A serving peer offers itself to be hole-punched. -/
  | punchWait (fp : String)
  /-- A dialer asks for a punch to a peer of a fingerprint. -/
  | punchConnect (fp : String)
  deriving DecidableEq

inductive Resp where
  /-- How the registrant is seen. -/
  | registered (addr : SocketAddr)
  | ok
  | addrs (found : List SocketAddr)
  | err (message : String)
  | punchWaiting
  | punchGo (addr : SocketAddr)
  | punchNoPeer
  deriving DecidableEq

def putU16 (value : UInt16) : Bytes := encodeU16 value

def putAddr (addr : SocketAddr) : Bytes :=
  (match addr.ip with
    | .v4 octets => [4] ++ octets.bytes
    | .v6 octets => [6] ++ octets.bytes) ++ putU16 addr.port

def Req.encode : Req → Bytes
  | .register fp port => [1] ++ (putStr fp ++ putU16 port)
  | .unregister fp port => [2] ++ (putStr fp ++ putU16 port)
  | .lookup fp => [3] ++ putStr fp
  | .punchWait fp => [4] ++ putStr fp
  | .punchConnect fp => [5] ++ putStr fp

def Resp.encode : Resp → Bytes
  | .registered addr => [1] ++ putAddr addr
  | .ok => [2]
  | .addrs found => [3] ++ (putU32 found.length ++ (found.map putAddr).flatten)
  | .err message => [4] ++ putStr message
  | .punchWaiting => [5]
  | .punchGo addr => [6] ++ putAddr addr
  | .punchNoPeer => [7]

/-! ## Reading -/

def getIp (tag : UInt8) : Reader Error IpAddr :=
  if tag = 4 then do
    let octets ← takeFixed shortFrame 4
    pure (.v4 octets)
  else if tag = 6 then do
    let octets ← takeFixed shortFrame 16
    pure (.v6 octets)
  else throw (.net s!"bad address family {tag}")

def getAddr : Reader Error SocketAddr := do
  let tag ← takeU8 shortFrame
  let ip ← getIp tag
  let port ← takeU16 shortFrame
  pure (SocketAddr.new ip port)

def readPort (rt : Runtime) (make : String → UInt16 → Req) : Reader Error Req := do
  let fp ← readString rt
  let port ← takeU16 shortFrame
  pure (make fp port)

def readFp (rt : Runtime) (make : String → Req) : Reader Error Req := do
  let fp ← readString rt
  pure (make fp)

def readReqBody (rt : Runtime) (tag : UInt8) : Reader Error Req :=
  if tag = 1 then readPort rt .register
  else if tag = 2 then readPort rt .unregister
  else if tag = 3 then readFp rt .lookup
  else if tag = 4 then readFp rt .punchWait
  else if tag = 5 then readFp rt .punchConnect
  else throw (.net s!"bad rendezvous request tag {tag}")

def readReq (rt : Runtime) : Reader Error Req := do
  let tag ← takeU8 shortFrame
  readReqBody rt tag

/-- `Req::decode`: what stands behind the request is not looked at. -/
def Req.decode (rt : Runtime) (buffer : Bytes) : Except Error Req :=
  (readReq rt buffer).map Prod.fst

def readRespBody (rt : Runtime) (tag : UInt8) : Reader Error Resp :=
  if tag = 1 then do
    let addr ← getAddr
    pure (.registered addr)
  else if tag = 2 then pure .ok
  else if tag = 3 then do
    let count ← takeU32 shortFrame
    let addrs ← takeMany getAddr count.toNat
    pure (.addrs addrs)
  else if tag = 4 then do
    let message ← readString rt
    pure (.err message)
  else if tag = 5 then pure .punchWaiting
  else if tag = 6 then do
    let addr ← getAddr
    pure (.punchGo addr)
  else if tag = 7 then pure .punchNoPeer
  else throw (.net s!"bad rendezvous response tag {tag}")

def readResp (rt : Runtime) : Reader Error Resp := do
  let tag ← takeU8 shortFrame
  readRespBody rt tag

def Resp.decode (rt : Runtime) (buffer : Bytes) : Except Error Resp :=
  (readResp rt buffer).map Prod.fst

/-! ## What is read back -/

/-- An address is read back without its flow information and its scope. -/
def plain (addr : SocketAddr) : SocketAddr := SocketAddr.new addr.ip addr.port

@[simp] theorem plain_new (ip : IpAddr) (port : UInt16) :
    plain (SocketAddr.new ip port) = SocketAddr.new ip port := by
  rw [plain, ip_new, port_new]

/-- The fingerprint of a request. -/
def Req.fp : Req → String
  | .register fp _ => fp
  | .unregister fp _ => fp
  | .lookup fp => fp
  | .punchWait fp => fp
  | .punchConnect fp => fp

theorem decodes_req (rt : Runtime) (req : Req) (fits : StrFits req.fp) :
    Decodes (readReq rt) req.encode req := by
  have string := decodes_string rt req.fp fits
  cases req with
  | register fp port =>
      exact (decodes_u8 shortFrame 1).bind (string.bind
        ((decodes_u16 shortFrame port).map (Req.register fp)))
  | unregister fp port =>
      exact (decodes_u8 shortFrame 2).bind (string.bind
        ((decodes_u16 shortFrame port).map (Req.unregister fp)))
  | lookup fp => exact (decodes_u8 shortFrame 3).bind (string.map Req.lookup)
  | punchWait fp => exact (decodes_u8 shortFrame 4).bind (string.map Req.punchWait)
  | punchConnect fp => exact (decodes_u8 shortFrame 5).bind (string.map Req.punchConnect)

theorem decodes_addr (addr : SocketAddr) : Decodes getAddr (putAddr addr) (plain addr) := by
  cases addr with
  | v4 ip port =>
      exact (decodes_u8 shortFrame 4).bind (((decodes_fixed shortFrame ip).map IpAddr.v4).bind
        ((decodes_u16 shortFrame port).map (SocketAddr.new (.v4 ip))))
  | v6 ip port flowinfo scopeId =>
      exact (decodes_u8 shortFrame 6).bind (((decodes_fixed shortFrame ip).map IpAddr.v6).bind
        ((decodes_u16 shortFrame port).map (SocketAddr.new (.v6 ip))))

theorem decodes_addrs (rt : Runtime) (addrs : List SocketAddr) (few : addrs.length < 2 ^ 32) :
    Decodes (readResp rt) (Resp.addrs addrs).encode (.addrs (addrs.map plain)) := by
  refine (decodes_u8 shortFrame 3).bind ((decodes_u32 shortFrame _).bind ?_)
  rw [put_u32_to_nat few]
  have read : ∀ addrs : List SocketAddr,
      Decodes (takeMany getAddr addrs.length) (addrs.map putAddr).flatten (addrs.map plain) := by
    intro addrs
    induction addrs with
    | nil => exact Decodes.pure []
    | cons addr rest ih => exact (decodes_addr addr).bind (ih.map (plain addr :: ·))
  exact (read addrs).map Resp.addrs

/-! ## Sizes -/

/-- The bytes of an address in a message. -/
def addrSize : SocketAddr → Nat
  | .v4 _ _ => 7
  | .v6 _ _ _ _ => 19

theorem length_put_u16 (value : UInt16) : (putU16 value).length = 2 := encode_be_length _ _

theorem put_addr_size (addr : SocketAddr) : (putAddr addr).length = addrSize addr := by
  cases addr with
  | v4 ip port =>
      simp only [putAddr, SocketAddr.ip, SocketAddr.port, List.length_append, length_put_u16, ip.size,
        List.length_singleton, addrSize]
  | v6 ip port flowinfo scopeId =>
      simp only [putAddr, SocketAddr.ip, SocketAddr.port, List.length_append, length_put_u16, ip.size,
        List.length_singleton, addrSize]

theorem addrs_size (addrs : List SocketAddr) :
    (Resp.addrs addrs).encode.length = 5 + (addrs.map addrSize).sum := by
  have sizes : (addrs.map putAddr).map List.length = addrs.map addrSize := by
    rw [List.map_map]
    exact List.map_congr_left fun addr _ => put_addr_size addr
  rw [Resp.encode, List.length_append, List.length_append, List.length_flatten, sizes, length_put_u32,
    List.length_singleton]
  omega

theorem seven_le_size (addr : SocketAddr) : 7 ≤ addrSize addr := by
  cases addr with
  | v4 ip port => exact le_rfl
  | v6 ip port flowinfo scopeId => exact (by decide : 7 ≤ 19)

theorem seven_mul_le (addrs : List SocketAddr) : 7 * addrs.length ≤ (addrs.map addrSize).sum := by
  induction addrs with
  | nil => exact le_rfl
  | cons addr rest ih =>
      have first := seven_le_size addr
      rw [List.length_cons, List.map_cons, List.sum_cons]
      omega

end Rendezvous

end HorizonOs.Constellation
