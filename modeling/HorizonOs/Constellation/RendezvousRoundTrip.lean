import HorizonOs.Constellation.RendezvousMessages

/-!
# Rendezvous messages read back

A request comes back as it was written. A response does up to its addresses, of which a message
has the octets and the port and nothing else.
-/

namespace HorizonOs.Constellation

open HorizonOs.Lib.ByteCodec

set_option autoImplicit false

/-- An address with nothing that a message leaves out. -/
def SocketAddr.Bare : SocketAddr → Prop
  | .v4 _ _ => True
  | .v6 _ _ flowinfo scopeId => flowinfo = 0 ∧ scopeId = 0

namespace Rendezvous

theorem plain_eq_iff (addr : SocketAddr) : plain addr = addr ↔ addr.Bare := by
  cases addr with
  | v4 ip port => exact iff_of_true rfl trivial
  | v6 ip port flowinfo scopeId =>
      constructor
      · intro same
        injection same with _ _ flow scope
        exact ⟨flow.symm, scope.symm⟩
      · rintro ⟨rfl, rfl⟩
        rfl

/-! ## Responses -/

/-- The addresses that a response carries. -/
def Resp.addresses : Resp → List SocketAddr
  | .registered addr => [addr]
  | .addrs found => found
  | .punchGo addr => [addr]
  | _ => []

/-- The response with its addresses as a message has them. -/
def Resp.plain : Resp → Resp
  | .registered addr => .registered (Rendezvous.plain addr)
  | .addrs found => .addrs (found.map Rendezvous.plain)
  | .punchGo addr => .punchGo (Rendezvous.plain addr)
  | other => other

/-- Every length in the response is one that its prefix can hold. -/
def Resp.Fits : Resp → Prop
  | .addrs found => found.length < 2 ^ 32
  | .err message => StrFits message
  | _ => True

theorem map_plain_eq_iff (found : List SocketAddr) :
    found.map plain = found ↔ ∀ addr ∈ found, addr.Bare := by
  induction found with
  | nil => exact iff_of_true rfl (List.forall_mem_nil _)
  | cons addr rest ih =>
      rw [List.map_cons, List.cons.injEq, List.forall_mem_cons, plain_eq_iff, ih]

theorem resp_plain_eq_iff (resp : Resp) :
    resp.plain = resp ↔ ∀ addr ∈ resp.addresses, addr.Bare := by
  cases resp with
  | registered addr =>
      rw [Resp.plain, Resp.addresses, Resp.registered.injEq, plain_eq_iff, List.forall_mem_singleton]
  | addrs found => rw [Resp.plain, Resp.addresses, Resp.addrs.injEq, map_plain_eq_iff]
  | punchGo addr =>
      rw [Resp.plain, Resp.addresses, Resp.punchGo.injEq, plain_eq_iff, List.forall_mem_singleton]
  | ok => exact iff_of_true rfl (List.forall_mem_nil _)
  | err message => exact iff_of_true rfl (List.forall_mem_nil _)
  | punchWaiting => exact iff_of_true rfl (List.forall_mem_nil _)
  | punchNoPeer => exact iff_of_true rfl (List.forall_mem_nil _)

theorem decodes_resp (rt : Runtime) (resp : Resp) (fits : resp.Fits) :
    Decodes (readResp rt) resp.encode resp.plain := by
  cases resp with
  | registered addr =>
      exact (decodes_u8 shortFrame 1).bind ((decodes_addr addr).map Resp.registered)
  | ok => exact (decodes_u8 shortFrame 2).bind (Decodes.pure Resp.ok)
  | addrs found => exact decodes_addrs rt found fits
  | err message =>
      exact (decodes_u8 shortFrame 4).bind ((decodes_string rt message fits).map Resp.err)
  | punchWaiting => exact (decodes_u8 shortFrame 5).bind (Decodes.pure Resp.punchWaiting)
  | punchGo addr => exact (decodes_u8 shortFrame 6).bind ((decodes_addr addr).map Resp.punchGo)
  | punchNoPeer => exact (decodes_u8 shortFrame 7).bind (Decodes.pure Resp.punchNoPeer)

/-! ## Round trips -/

/-- Requests come back as they are, and responses without the flow information and the scope of
their addresses. -/
theorem messages_read_back (rt : Runtime) :
    (∀ req : Req, StrFits req.fp → Req.decode rt req.encode = .ok req) ∧
      ∀ resp : Resp, resp.Fits → Resp.decode rt resp.encode = .ok resp.plain ∧
        (Resp.decode rt resp.encode = .ok resp ↔ ∀ addr ∈ resp.addresses, addr.Bare) := by
  constructor
  · intro req fits
    exact decode_whole (decodes_req rt req fits)
  · intro resp fits
    have decoded : Resp.decode rt resp.encode = .ok resp.plain :=
      decode_whole (decodes_resp rt resp fits)
    refine ⟨decoded, ?_⟩
    rw [decoded, Except.ok.injEq, resp_plain_eq_iff]

/-- A link-local address, which stands for another host on each link. -/
def linkLocal : SocketAddr :=
  .v6 (FixedBytes.ofBytes 16 (0xFE :: 0x80 :: List.replicate 13 0 ++ [1])) 7777 0 3

theorem link_local_read_back :
    Req.decode sampleRuntime (Req.register "fp" 7777).encode = .ok (.register "fp" 7777) ∧
      Resp.decode sampleRuntime (Resp.punchGo linkLocal).encode =
        .ok (Resp.punchGo linkLocal).plain :=
  ⟨(messages_read_back sampleRuntime).1 _ (by decide),
    ((messages_read_back sampleRuntime).2 (.punchGo linkLocal) trivial).1⟩

/-- The peer is sent an address without the link that it is on. -/
theorem link_local_scope_lost :
    Resp.decode sampleRuntime (Resp.punchGo linkLocal).encode =
        .ok (.punchGo (.v6 (FixedBytes.ofBytes 16 (0xFE :: 0x80 :: List.replicate 13 0 ++ [1]))
          7777 0 0)) ∧
      Resp.decode sampleRuntime (Resp.punchGo linkLocal).encode ≠ .ok (.punchGo linkLocal) := by
  have decoded : Resp.decode sampleRuntime (Resp.punchGo linkLocal).encode =
      .ok (Resp.punchGo linkLocal).plain := decode_whole (decodes_resp sampleRuntime _ trivial)
  refine ⟨decoded, ?_⟩
  rw [decoded]
  intro same
  injection same with same
  exact absurd ((resp_plain_eq_iff _).mp same linkLocal (List.mem_singleton_self _)).2 (by decide)

end Rendezvous

end HorizonOs.Constellation
