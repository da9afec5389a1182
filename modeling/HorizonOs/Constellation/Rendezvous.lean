import HorizonOs.Constellation.RendezvousMessages
import Mathlib.Algebra.Order.BigOperators.Group.List

/-!
# What a rendezvous answers

A peer registers a port for the address it is seen at, under any fingerprint it names. Both ends
read no more than `maxMsg` bytes, and only the reader looks at the size of a reply.
-/

namespace HorizonOs.Constellation.Rendezvous

open HorizonOs.Lib.ByteCodec HorizonOs.Lib.HashTable HorizonOs.Lib.Runs HorizonOs.Lib.Text

set_option autoImplicit false

def maxMsg : Nat := 64 * 1024

/-- The bytes that are left for addresses in a reply to a lookup. -/
def addrRoom : Nat := maxMsg - 5

/-- One stream: whom it comes from, when, and what was written on it. -/
structure Request where
  observed : SocketAddr
  now : Nat
  bytes : Bytes

/-- A registry call's reply, and none where the punch broker answers. -/
def answer (reg : Registry) (observed : SocketAddr) (now : Nat) : Req → Option Resp × Registry
  | .register fp port =>
      (some (.registered observed), reg.register fp (SocketAddr.new observed.ip port) now)
  | .unregister fp port => (some .ok, reg.unregister fp (SocketAddr.new observed.ip port))
  | .lookup fp => (some (.addrs (reg.lookup fp now).1), (reg.lookup fp now).2)
  | .punchWait _ => (none, reg)
  | .punchConnect _ => (none, reg)

section Service

variable (rt : Runtime) (tooLong : String)

/-- `read_to_end` with the bound of the protocol. -/
def readToEnd (bytes : Bytes) : Except Error Bytes :=
  if maxMsg < bytes.length then .error (.net tooLong) else .ok bytes

def readMessage (bytes : Bytes) : Except Error Req := do
  let buf ← readToEnd tooLong bytes
  Req.decode rt buf

/-- `serve_stream`. -/
def serveStream (reg : Registry) (request : Request) :
    Except Error (Option Resp × Registry) := do
  let req ← readMessage rt tooLong request.bytes
  pure (answer reg request.observed request.now req)

/-- The registry behind a stream: a request that cannot be read leaves it. -/
def serve (reg : Registry) (request : Request) : Registry :=
  match serveStream rt tooLong reg request with
  | .ok (_, after) => after
  | .error _ => reg

def unexpected : Resp → Error
  | .err message => .net message
  | _ => .net "unexpected reply from rendezvous"

/-- What `RendezvousClient::lookup` makes of the reply it is sent. -/
def lookedUp (reply : Bytes) : Except Error (List SocketAddr) := do
  let bytes ← readToEnd tooLong reply
  let resp ← Resp.decode rt bytes
  match resp with
  | .addrs found => pure found
  | other => throw (unexpected other)

/-- The reply to a lookup is of the protocol and tells the client the addresses. -/
def Answered (reg : Registry) (fp : String) (now : Nat) : Prop :=
  let found := (reg.lookup fp now).1
  (Resp.addrs found).encode.length ≤ maxMsg ∧
    lookedUp rt tooLong (Resp.addrs found).encode = .ok found

/-! ## How large an entry is -/

def bucketSize (bucket : Leases) : Nat := (bucket.entries.map fun entry => addrSize entry.1).sum

def leasesOf (reg : Registry) (fp : String) : Leases := (reg.byFp.lookup fp).getD ∅

/-- The bytes that the live addresses under a fingerprint take. -/
def liveSize (reg : Registry) (fp : String) (now : Nat) : Nat :=
  bucketSize (retain (isLive now) (leasesOf reg fp))

/-- The same without one of the addresses. -/
def othersSize (reg : Registry) (fp : String) (addr : SocketAddr) (now : Nat) : Nat :=
  bucketSize (retain (isLive now) ((leasesOf reg fp).erase addr))

/-- Where the request registers an address, there is room for it beside the live ones. -/
def HasRoom (reg : Registry) (request : Request) : Prop :=
  ∀ fp port, readMessage rt tooLong request.bytes = .ok (.register fp port) →
    let addr := SocketAddr.new request.observed.ip port
    addrSize addr + othersSize reg fp addr request.now ≤ addrRoom

theorem size_of_sublist {fewer more : Leases} (sub : fewer.entries.Sublist more.entries) :
    bucketSize fewer ≤ bucketSize more :=
  (sub.map _).sum_le_sum fun _ _ => Nat.zero_le _

theorem retain_size_le (keep : SocketAddr → Nat → Bool) (bucket : Leases) :
    bucketSize (retain keep bucket) ≤ bucketSize bucket :=
  size_of_sublist List.filter_sublist

theorem erase_size_le (addr : SocketAddr) (bucket : Leases) :
    bucketSize (bucket.erase addr) ≤ bucketSize bucket :=
  size_of_sublist (List.kerase_sublist addr bucket.entries)

theorem lookup_size (reg : Registry) (fp : String) (now : Nat) :
    ((reg.lookup fp now).1.map addrSize).sum = liveSize reg fp now := by
  rw [Registry.lookup, liveSize, leasesOf]
  cases reg.byFp.lookup fp with
  | none => rfl
  | some bucket =>
      have sizes := ((List.mergeSort_perm (retain (isLive now) bucket).keys (· ≤ ·)).map
        addrSize).sum_nat
      rw [Option.getD_some]
      refine sizes.trans ?_
      rw [AList.keys, List.keys, List.map_map, bucketSize]
      rfl

/-! ## One reply -/

/-- Every registered address is as `SocketAddr::new` makes it. -/
def AllPlain (reg : Registry) : Prop :=
  ∀ fp addr expiry, reg.find fp addr = some expiry → plain addr = addr

theorem looked_up_addrs (found : List SocketAddr) (few : found.length < 2 ^ 32)
    (plains : ∀ addr ∈ found, plain addr = addr)
    (short : (Resp.addrs found).encode.length ≤ maxMsg) :
    lookedUp rt tooLong (Resp.addrs found).encode = .ok found := by
  have decoded : Resp.decode rt (Resp.addrs found).encode = .ok (.addrs (found.map plain)) :=
    decode_whole (decodes_addrs rt found few)
  have same : found.map plain = found := (List.map_congr_left plains).trans (List.map_id found)
  have read : readToEnd tooLong (Resp.addrs found).encode = .ok (Resp.addrs found).encode :=
    if_neg (Nat.not_lt.mpr short)
  rw [same] at decoded
  exact bind_ok read (bind_ok decoded rfl)

/-- A lookup is answered exactly where its addresses leave the room. -/
theorem answered_iff (reg : Registry) (plains : AllPlain reg) (fp : String) (now : Nat) :
    Answered rt tooLong reg fp now ↔ liveSize reg fp now ≤ addrRoom := by
  have size := addrs_size (reg.lookup fp now).1
  rw [lookup_size] at size
  have room : addrRoom + 5 = maxMsg := Nat.sub_add_cancel (by decide)
  constructor
  · rintro ⟨short, _⟩
    omega
  · intro fits
    have short : (Resp.addrs (reg.lookup fp now).1).encode.length ≤ maxMsg := by omega
    refine ⟨short, looked_up_addrs rt tooLong _ ?_ ?_ short⟩
    · have count := seven_mul_le (reg.lookup fp now).1
      rw [lookup_size] at count
      have bound : maxMsg = 65536 := by decide
      omega
    · intro addr member
      obtain ⟨expiry, there, _⟩ := (mem_lookup_iff reg fp now addr).mp member
      exact plains fp addr expiry there

/-! ## Any requests -/

theorem serve_cases (reg : Registry) (request : Request) :
    serve rt tooLong reg request = reg ∨
      ∃ req, readMessage rt tooLong request.bytes = .ok req ∧
        serve rt tooLong reg request = (answer reg request.observed request.now req).2 := by
  rw [serve, serveStream]
  cases read : readMessage rt tooLong request.bytes with
  | error error => exact .inl rfl
  | ok req => exact .inr ⟨req, rfl, rfl⟩

theorem plain_serve (reg : Registry) (request : Request) (plains : AllPlain reg) :
    AllPlain (serve rt tooLong reg request) := by
  rcases serve_cases rt tooLong reg request with same | ⟨req, _, served⟩
  · rwa [same]
  · rw [served]
    intro fp addr expiry there
    cases req with
    | register other port =>
        have cases_ := (find_register_iff reg other _ _ fp addr expiry).mp there
        by_cases this : fp = other ∧ addr = SocketAddr.new request.observed.ip port
        · rw [this.2, plain_new]
        · rw [if_neg this] at cases_
          exact plains fp addr expiry cases_.1
    | unregister other port =>
        have cases_ := (find_unregister_iff reg other _ fp addr expiry).mp there
        by_cases this : fp = other ∧ addr = SocketAddr.new request.observed.ip port
        · rw [if_pos this] at cases_
          exact cases_.elim
        · rw [if_neg this] at cases_
          exact plains fp addr expiry cases_
    | lookup other => exact plains fp addr expiry ((find_lookup_iff reg other _ _ _ _).mp there).1
    | punchWait other => exact plains fp addr expiry there
    | punchConnect other => exact plains fp addr expiry there

theorem plain_run (requests : List Request) :
    AllPlain (run (serve rt tooLong) Registry.default requests) := by
  refine run_invariant (serve rt tooLong) AllPlain (plain_serve rt tooLong) _ requests ?_
  intro fp addr expiry there
  cases there

/-! ## Requests that find room -/

/-- No entry is larger than a reply may be. -/
def AllSmall (reg : Registry) : Prop :=
  ∀ fp bucket, reg.byFp.lookup fp = some bucket → bucketSize bucket ≤ addrRoom

theorem small_keep (reg : Registry) (fp : String) (bucket : Leases) (small : AllSmall reg)
    (size : bucketSize bucket ≤ addrRoom) : AllSmall (reg.keep fp bucket) := by
  intro other found there
  rw [Registry.keep] at there
  by_cases same : other = fp
  · subst same
    split_ifs at there
    · rw [AList.lookup_erase] at there
      cases there
    · rw [AList.lookup_insert] at there
      cases there
      exact size
  · split_ifs at there
    · rw [AList.lookup_erase_ne same] at there
      exact small other found there
    · rw [AList.lookup_insert_ne same] at there
      exact small other found there

theorem register_size (reg : Registry) (fp : String) (addr : SocketAddr) (now : Nat) :
    bucketSize (retain (isLive now) ((leasesOf reg fp).insert addr (now + lease))) =
      addrSize addr + othersSize reg fp addr now := by
  have lasts : isLive now addr (now + lease) = true :=
    decide_eq_true (Nat.lt_add_of_pos_right (by decide))
  rw [othersSize, bucketSize, bucketSize, entries_retain_insert lasts, List.map_cons,
    List.sum_cons]

theorem small_serve (reg : Registry) (request : Request) (small : AllSmall reg)
    (room : HasRoom rt tooLong reg request) : AllSmall (serve rt tooLong reg request) := by
  rcases serve_cases rt tooLong reg request with same | ⟨req, read, served⟩
  · rwa [same]
  · rw [served]
    cases req with
    | register fp port =>
        intro other found there
        by_cases same : other = fp
        · subst same
          have entry := (AList.lookup_insert reg.byFp).symm.trans there
          cases entry
          exact (register_size reg other _ _).trans_le (room other port read)
        · exact small other found ((AList.lookup_insert_ne same).symm.trans there)
    | unregister fp port =>
        rw [answer, Registry.unregister]
        cases found : reg.byFp.lookup fp with
        | none => exact small
        | some bucket =>
            exact small_keep reg fp _ small ((erase_size_le _ bucket).trans (small fp bucket found))
    | lookup fp =>
        rw [answer, Registry.lookup]
        cases found : reg.byFp.lookup fp with
        | none => exact small
        | some bucket =>
            exact small_keep reg fp _ small ((retain_size_le _ bucket).trans (small fp bucket found))
    | punchWait fp => exact small
    | punchConnect fp => exact small

theorem live_size_le (reg : Registry) (small : AllSmall reg) (fp : String) (now : Nat) :
    liveSize reg fp now ≤ addrRoom := by
  rw [liveSize, leasesOf]
  cases found : reg.byFp.lookup fp with
  | none => exact Nat.zero_le _
  | some bucket => exact (retain_size_le _ bucket).trans (small fp bucket found)

/-- A lookup is answered exactly where the live addresses under its fingerprint leave room, and
always after requests that each found room for what they register. -/
theorem lookup_answered_iff (requests : List Request) :
    (∀ fp now, Answered rt tooLong (run (serve rt tooLong) Registry.default requests) fp now ↔
        liveSize (run (serve rt tooLong) Registry.default requests) fp now ≤ addrRoom) ∧
      (Guarded (serve rt tooLong) (HasRoom rt tooLong) Registry.default requests →
        ∀ fp now, Answered rt tooLong (run (serve rt tooLong) Registry.default requests) fp now) := by
  have exact_ := answered_iff rt tooLong _ (plain_run rt tooLong requests)
  refine ⟨exact_, fun guarded fp now => (exact_ fp now).mpr ?_⟩
  refine live_size_le _ ?_ fp now
  refine guarded_run_invariant (serve rt tooLong) (HasRoom rt tooLong) AllSmall
    (small_serve rt tooLong) _ requests ?_ guarded
  intro other bucket there
  cases there

/-! ## One client with many ports -/

theorem read_message_encode (req : Req) (fits : StrFits req.fp)
    (short : req.encode.length ≤ maxMsg) : readMessage rt tooLong req.encode = .ok req :=
  bind_ok (if_neg (Nat.not_lt.mpr short)) (decode_whole (decodes_req rt req fits))

theorem length_many_octets : ([203, 0, 113, 7] : Bytes).length = 4 := rfl

def manyPorts : SocketAddr := .v4 ⟨[203, 0, 113, 7], length_many_octets⟩ 5000

def portAddr (port : Nat) : SocketAddr := SocketAddr.new manyPorts.ip (UInt16.ofNat port)

/-- One client registers one port after another. -/
def portRequest (port : Nat) : Request where
  observed := manyPorts
  now := 0
  bytes := (Req.register "ab12" (UInt16.ofNat port)).encode

theorem read_port (port : Nat) : readMessage rt tooLong (portRequest port).bytes =
    .ok (.register "ab12" (UInt16.ofNat port)) := by
  have size : (utf8 "ab12").length = 4 := by decide
  have fits : StrFits "ab12" := by
    rw [StrFits, size]
    decide
  refine read_message_encode rt tooLong (.register "ab12" (UInt16.ofNat port)) fits ?_
  rw [Req.encode, putStr, putBytes, List.length_append, List.length_append, List.length_append,
    size, length_put_u32, length_put_u16, List.length_singleton]
  decide

theorem serve_port (reg : Registry) (port : Nat) :
    serve rt tooLong reg (portRequest port) = reg.register "ab12" (portAddr port) 0 := by
  rw [serve, serveStream, read_port]
  rfl

theorem ports_leased (count : Nat) (few : count ≤ 2 ^ 16) : ∀ port < count,
    (run (serve rt tooLong) Registry.default ((List.range count).map portRequest)).find "ab12"
      (portAddr port) = some lease := by
  induction count with
  | zero => exact fun port none => absurd none (Nat.not_lt_zero _)
  | succ count ih =>
      intro port below
      rw [List.range_succ, List.map_append, run_append, List.map_singleton, run_cons, run_nil,
        serve_port, find_register_iff]
      by_cases same : portAddr port = portAddr count
      · rw [if_pos ⟨rfl, same⟩, Nat.zero_add]
      · rw [if_neg (fun both => same both.2)]
        have earlier : port < count := by
          refine lt_of_le_of_ne (Nat.le_of_lt_succ below) ?_
          rintro rfl
          exact same rfl
        exact ⟨ih (Nat.le_of_succ_le few) port earlier, fun _ => by decide⟩

theorem port_addr_injective {left right : Nat} (low : left < 2 ^ 16) (high : right < 2 ^ 16)
    (same : portAddr left = portAddr right) : left = right := by
  have ports := congrArg (fun addr => addr.port.toNat) same
  simp only [portAddr, port_new, UInt16.toNat_ofNat', Nat.mod_eq_of_lt low,
    Nat.mod_eq_of_lt high] at ports
  exact ports

theorem ports_found (count : Nat) (few : count ≤ 2 ^ 16) :
    count ≤ ((run (serve rt tooLong) Registry.default
      ((List.range count).map portRequest)).lookup "ab12" 0).1.length := by
  have distinct : ((List.range count).map portAddr).Nodup := by
    refine List.Nodup.map_on ?_ List.nodup_range
    intro left low right high same
    exact port_addr_injective (Nat.lt_of_lt_of_le (List.mem_range.mp low) few)
      (Nat.lt_of_lt_of_le (List.mem_range.mp high) few) same
  have found : (List.range count).map portAddr ⊆ ((run (serve rt tooLong) Registry.default
      ((List.range count).map portRequest)).lookup "ab12" 0).1 := by
    intro addr member
    obtain ⟨port, below, rfl⟩ := List.mem_map.mp member
    exact (mem_lookup_iff _ _ _ _).mpr
      ⟨lease, ports_leased rt tooLong count few port (List.mem_range.mp below), by decide⟩
  have lengths := (distinct.subperm found).length_le
  rwa [List.length_map, List.length_range] at lengths

theorem ports_unanswered (count : Nat) (few : count ≤ 2 ^ 16) (many : addrRoom < 7 * count) :
    ¬ Answered rt tooLong (run (serve rt tooLong) Registry.default
      ((List.range count).map portRequest)) "ab12" 0 := by
  rintro ⟨short, _⟩
  have found := ports_found rt tooLong count few
  have sizes := seven_mul_le ((run (serve rt tooLong) Registry.default
    ((List.range count).map portRequest)).lookup "ab12" 0).1
  have room : addrRoom + 5 = maxMsg := Nat.sub_add_cancel (by decide)
  rw [addrs_size] at short
  omega

end Service

theorem one_port_answered : Answered sampleRuntime "stream too long"
    (run (serve sampleRuntime "stream too long") Registry.default [portRequest 7]) "ab12" 5 := by
  refine (lookup_answered_iff sampleRuntime "stream too long" [portRequest 7]).2 ⟨?_, trivial⟩ _ _
  intro fp port read
  rw [read_port] at read
  cases read
  decide

/-- A reply to 9362 addresses is longer than a client reads. -/
theorem many_ports_unanswered : ¬ ∀ requests fp now, Answered sampleRuntime "stream too long"
    (run (serve sampleRuntime "stream too long") Registry.default requests) fp now := fun always =>
  ports_unanswered sampleRuntime "stream too long" 9362 (by decide) (by decide) (always _ _ _)

end HorizonOs.Constellation.Rendezvous
