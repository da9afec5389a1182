import HorizonOs.Constellation.Wire

/-!
# The encrypted channel

Whole frames over a byte stream: a frame goes out behind its length, cut into segments that one
cipher message can hold, and the receiver joins opened segments until it has that length. The
cipher is a parameter.
-/

namespace HorizonOs.Constellation

open HorizonOs.Lib.ByteCodec

set_option autoImplicit false

/-- The transport state of the Noise library, and what it does with one message. -/
structure Noise (σ : Type) where
  writeMessage : Bytes → σ → Except String (Bytes × σ)
  readMessage : Bytes → σ → Except String (Bytes × σ)

/-- The longest Noise message, less the tag of 16 bytes. -/
def maxSegment : Nat := 65519

/-- One end: what it has written so far and what it still has to read. -/
structure NoiseChannel (σ : Type) where
  sent : Bytes
  inbox : Bytes
  noise : σ

abbrev ChannelM (σ : Type) := EStateM Error (NoiseChannel σ)

section Frames

variable {σ : Type}

/-! ## Sending -/

/-- `slice::chunks`. -/
def segments (payload : Bytes) : List Bytes :=
  if payload = [] then []
  else payload.take maxSegment :: segments (payload.drop maxSegment)
termination_by payload.length
decreasing_by
  rename_i present
  have some := List.length_pos_of_ne_nil present
  rw [List.length_drop, maxSegment]
  omega

def writeSeg (data : Bytes) : ChannelM σ Unit := fun channel =>
  if data.length < 2 ^ 16 then
    .ok () { channel with sent := channel.sent ++ (encodeU16 (UInt16.ofNat data.length) ++ data) }
  else .error (.net "out of range integral type conversion attempted") channel

def sendSegments (noise : Noise σ) : List Bytes → ChannelM σ Unit
  | [] => pure ()
  | seg :: rest => fun channel =>
      match noise.writeMessage seg channel.noise with
      | .error message => .error (.net message) channel
      | .ok (cipher, state) =>
          match writeSeg cipher { channel with noise := state } with
          | .error error channel => .error error channel
          | .ok _ channel => sendSegments noise rest channel

/-- `NoiseChannel::send`. -/
def send (noise : Noise σ) (frame : Bytes) : ChannelM σ Unit :=
  sendSegments noise (segments (putU32 frame.length ++ frame))

/-! ## Receiving -/

/-- `read_exact` on the stream; `closed` is its error where the stream ends first. -/
def readExact (closed : String) (count : Nat) : ChannelM σ Bytes := fun channel =>
  if channel.inbox.length < count then .error (.net closed) channel
  else .ok (channel.inbox.take count) { channel with inbox := channel.inbox.drop count }

def readSeg (closed : String) : ChannelM σ Bytes := do
  let length ← readExact closed 2
  readExact closed (decodeBE length)

/-- The length that a frame announces, as soon as its four bytes are there. -/
def announced (total : Option Nat) (plain : Bytes) : Option Nat :=
  if total = none ∧ 4 ≤ plain.length then some (4 + decodeBE (plain.take 4)) else total

/-- The loop of `NoiseChannel::recv`. The fuel is more than the bytes that are left, of which
every turn takes two. -/
def recvLoop (noise : Noise σ) (closed : String) : Nat → Bytes → Option Nat → ChannelM σ Bytes
  | 0, _, _ => fun channel => .error (.net closed) channel
  | fuel + 1, plain, total => fun channel =>
      match readSeg closed channel with
      | .error error channel => .error error channel
      | .ok cipher channel =>
          match noise.readMessage cipher channel.noise with
          | .error message => .error (.net message) channel
          | .ok (out, state) =>
              let plain := plain ++ out
              let channel := { channel with noise := state }
              match announced total plain with
              | none => recvLoop noise closed fuel plain none channel
              | some t =>
                  if t ≤ plain.length then .ok ((plain.take t).drop 4) channel
                  else recvLoop noise closed fuel plain (some t) channel

/-- `NoiseChannel::recv`. -/
def recv (noise : Noise σ) (closed : String) : ChannelM σ Bytes := fun channel =>
  recvLoop noise closed (channel.inbox.length + 1) [] none channel

/-! ## Many frames -/

def sendAll (noise : Noise σ) : List Bytes → ChannelM σ Unit
  | [] => pure ()
  | frame :: rest => do
      send noise frame
      sendAll noise rest

/-- Successive calls of `recv`. -/
def recvAll (noise : Noise σ) (closed : String) : Nat → ChannelM σ (List Bytes)
  | 0 => pure []
  | count + 1 => do
      let frame ← recv noise closed
      let frames ← recvAll noise closed count
      pure (frame :: frames)

/-! ## What is cut is joined -/

theorem segments_flatten (payload : Bytes) : (segments payload).flatten = payload := by
  induction payload using segments.induct with
  | case1 => rw [segments, if_pos rfl, List.flatten_nil]
  | case2 payload present ih =>
      rw [segments, if_neg present, List.flatten_cons, ih, List.take_append_drop]

theorem segments_sizes (payload : Bytes) :
    ∀ seg ∈ segments payload, seg ≠ [] ∧ seg.length ≤ maxSegment := by
  induction payload using segments.induct with
  | case1 =>
      rw [segments, if_pos rfl]
      exact List.forall_mem_nil _
  | case2 payload present ih =>
      rw [segments, if_neg present, List.forall_mem_cons]
      refine ⟨⟨fun empty => ?_, List.length_take_le _ _⟩, ih⟩
      rcases List.take_eq_nil_iff.mp empty with none | nothing
      · cases none
      · exact present nothing

/-! ## The cipher -/

/-- What one end seals the other opens, message after message, and sealing adds 16 bytes. -/
structure Noise.Inverts (noise : Noise σ) (paired : σ → σ → Prop) : Prop where
  opens : ∀ sender receiver, paired sender receiver → ∀ message : Bytes,
    message.length ≤ maxSegment → ∃ cipher sender' receiver',
      noise.writeMessage message sender = .ok (cipher, sender') ∧
      cipher.length = message.length + 16 ∧
      noise.readMessage cipher receiver = .ok (message, receiver') ∧ paired sender' receiver'

/-- Bytes on the stream from which a receiver gets these segments. -/
inductive Opens (noise : Noise σ) : List Bytes → Bytes → σ → σ → Prop where
  | nil {state : σ} : Opens noise [] [] state state
  | cons {seg cipher bytes : Bytes} {rest : List Bytes} {before middle after : σ}
      (short : cipher.length < 2 ^ 16) (opened : noise.readMessage cipher before = .ok (seg, middle))
      (others : Opens noise rest bytes middle after) :
      Opens noise (seg :: rest) (encodeU16 (UInt16.ofNat cipher.length) ++ cipher ++ bytes) before
        after

theorem send_segments_opens {noise : Noise σ} {paired : σ → σ → Prop} (inverts : noise.Inverts paired)
    (segs : List Bytes) (sizes : ∀ seg ∈ segs, seg.length ≤ maxSegment) (sender receiver : σ)
    (pair : paired sender receiver) (sent inbox : Bytes) :
    ∃ bytes sender' receiver', sendSegments noise segs ⟨sent, inbox, sender⟩ =
        .ok () ⟨sent ++ bytes, inbox, sender'⟩ ∧
      Opens noise segs bytes receiver receiver' ∧ paired sender' receiver' := by
  induction segs generalizing sender receiver sent with
  | nil =>
      refine ⟨[], sender, receiver, ?_, .nil, pair⟩
      rw [List.append_nil]
      rfl
  | cons seg rest ih =>
      obtain ⟨size, others⟩ := List.forall_mem_cons.mp sizes
      obtain ⟨cipher, sender₁, receiver₁, sealed, length, opened, again⟩ :=
        inverts.opens sender receiver pair seg size
      have short : cipher.length < 2 ^ 16 := by
        rw [maxSegment] at size
        omega
      obtain ⟨bytes, sender₂, receiver₂, later, opens, last⟩ := ih others sender₁ receiver₁ again
        (sent ++ (encodeU16 (UInt16.ofNat cipher.length) ++ cipher))
      refine ⟨_, sender₂, receiver₂, ?_, .cons short opened opens, last⟩
      rw [sendSegments]
      simp only [sealed, writeSeg, if_pos short]
      rw [later, List.append_assoc, List.append_assoc]

/-! ## A frame is put together again -/

theorem decode_put_u32 (value : Nat) (small : value < 2 ^ 32) : decodeBE (putU32 value) = value := by
  rw [putU32, encodeU32, decode_encode_be, UInt32.toNat_ofNat', Nat.mod_eq_of_lt small,
    Nat.mod_eq_of_lt (show value < 256 ^ 4 from small)]

theorem read_exact_append (closed : String) (bytes sent rest : Bytes) (state : σ) :
    readExact closed bytes.length ⟨sent, bytes ++ rest, state⟩ = .ok bytes ⟨sent, rest, state⟩ := by
  have enough : ¬ (bytes ++ rest).length < bytes.length := by
    rw [List.length_append]
    omega
  simp only [readExact, if_neg enough, List.take_left, List.drop_left]

theorem read_seg_append (closed : String) (cipher sent rest : Bytes) (state : σ)
    (short : cipher.length < 2 ^ 16) :
    readSeg closed ⟨sent, encodeU16 (UInt16.ofNat cipher.length) ++ cipher ++ rest, state⟩ =
      .ok cipher ⟨sent, rest, state⟩ := by
  have two : (encodeU16 (UInt16.ofNat cipher.length)).length = 2 := encode_be_length _ _
  have header := read_exact_append closed (encodeU16 (UInt16.ofNat cipher.length)) sent
    (cipher ++ rest) state
  have length : decodeBE (encodeU16 (UInt16.ofNat cipher.length)) = cipher.length := by
    rw [encodeU16, decode_encode_be, UInt16.toNat_ofNat', Nat.mod_eq_of_lt short,
      Nat.mod_eq_of_lt (show cipher.length < 256 ^ 2 from short)]
  rw [two] at header
  rw [List.append_assoc]
  simp only [readSeg, bind, EStateM.bind, header, length]
  exact read_exact_append closed cipher sent rest state

/-- The length is not known before its four bytes are there, and is the frame's from then on. -/
theorem announced_of_frame (total : Option Nat) (plain more frame : Bytes)
    (small : frame.length < 2 ^ 32) (whole : plain ++ more = putU32 frame.length ++ frame)
    (known : total = none ∨ total = some (4 + frame.length)) :
    (announced total plain = none ∧ plain.length < 4) ∨
      announced total plain = some (4 + frame.length) := by
  rcases known with unknown | there
  · by_cases four : 4 ≤ plain.length
    · right
      have first : plain.take 4 = putU32 frame.length := by
        have same := congrArg (List.take 4) whole
        rwa [List.take_append_of_le_length four,
          List.take_left' (length_put_u32 frame.length)] at same
      rw [announced, if_pos ⟨unknown, four⟩, first, decode_put_u32 _ small]
    · left
      refine ⟨?_, Nat.lt_of_not_le four⟩
      rw [announced, if_neg (fun both => four both.2), unknown]
  · right
    rw [announced, there, if_neg (fun both => Option.some_ne_none _ both.1)]

/-- One turn of the receiver, which has opened a segment. -/
theorem recv_loop_turn (noise : Noise σ) (closed : String) (fuel : Nat) (plain : Bytes)
    (total : Option Nat) {seg cipher sent rest : Bytes} {before middle : σ}
    (short : cipher.length < 2 ^ 16) (opened : noise.readMessage cipher before = .ok (seg, middle)) :
    recvLoop noise closed (fuel + 1) plain total
        ⟨sent, encodeU16 (UInt16.ofNat cipher.length) ++ cipher ++ rest, before⟩ =
      match announced total (plain ++ seg) with
      | none => recvLoop noise closed fuel (plain ++ seg) none ⟨sent, rest, middle⟩
      | some t =>
          if t ≤ (plain ++ seg).length then
            .ok (((plain ++ seg).take t).drop 4) ⟨sent, rest, middle⟩
          else recvLoop noise closed fuel (plain ++ seg) (some t) ⟨sent, rest, middle⟩ := by
  rw [recvLoop]
  simp only [read_seg_append closed cipher sent rest before short, opened]

theorem recv_loop_opens {noise : Noise σ} {segs : List Bytes} {bytes : Bytes} {before after : σ}
    (opens : Opens noise segs bytes before after) (closed : String) (frame sent rest : Bytes)
    (small : frame.length < 2 ^ 32) (some_ : segs ≠ []) (full : ∀ seg ∈ segs, seg ≠ [])
    (fuel : Nat) (enough : segs.length ≤ fuel) (plain : Bytes) (total : Option Nat)
    (whole : plain ++ segs.flatten = putU32 frame.length ++ frame)
    (known : total = none ∨ total = some (4 + frame.length)) :
    recvLoop noise closed fuel plain total ⟨sent, bytes ++ rest, before⟩ =
      .ok frame ⟨sent, rest, after⟩ := by
  induction opens generalizing fuel plain total with
  | nil => exact absurd rfl some_
  | @cons seg cipher bytes segs before middle after short opened others ih =>
      obtain ⟨fuel, rfl⟩ : ∃ less, fuel = less + 1 := ⟨fuel - 1, by
        rw [List.length_cons] at enough
        omega⟩
      rw [List.flatten_cons, ← List.append_assoc] at whole
      have total' := announced_of_frame total (plain ++ seg) segs.flatten frame small whole known
      have sum : (putU32 frame.length ++ frame).length = 4 + frame.length := by
        rw [List.length_append, length_put_u32]
      rw [List.append_assoc, recv_loop_turn noise closed fuel plain total short opened]
      by_cases last : segs = []
      · -- The last segment completes the frame.
        cases others with
        | nil =>
          rw [List.flatten_nil, List.append_nil] at whole
          have length : (plain ++ seg).length = 4 + frame.length := by rw [whole, sum]
          rcases total' with ⟨_, few⟩ | there
          · omega
          · rw [there]
            simp only [length, le_refl, if_true]
            rw [← length, List.take_length, whole, List.drop_left' (length_put_u32 _)]
            rfl
        | cons => cases last
      · have more : 0 < segs.flatten.length := by
          obtain ⟨first, later, rfl⟩ := List.exists_cons_of_ne_nil last
          have first_full := full first (List.mem_cons_of_mem _ List.mem_cons_self)
          rw [List.flatten_cons, List.length_append]
          have := List.length_pos_of_ne_nil first_full
          omega
        have short_of : (plain ++ seg).length < 4 + frame.length := by
          have lengths := congrArg List.length whole
          rw [List.length_append, sum] at lengths
          omega
        have others_full : ∀ other ∈ segs, other ≠ [] :=
          fun other member => full other (List.mem_cons_of_mem _ member)
        have left_ : segs.length ≤ fuel := by
          rw [List.length_cons] at enough
          omega
        rcases total' with ⟨unknown, _⟩ | there
        · rw [unknown]
          exact ih last others_full fuel left_ _ none whole (.inl rfl)
        · rw [there]
          simp only [Nat.not_le.mpr short_of, if_false]
          exact ih last others_full fuel left_ _ _ whole (.inr rfl)

theorem opens_length {noise : Noise σ} {segs : List Bytes} {bytes : Bytes} {before after : σ}
    (opens : Opens noise segs bytes before after) : segs.length ≤ bytes.length := by
  induction opens with
  | nil => exact le_rfl
  | @cons _ cipher _ _ _ _ _ _ _ _ ih =>
      have two : (encodeU16 (UInt16.ofNat cipher.length)).length = 2 := encode_be_length _ _
      rw [List.length_cons, List.length_append, List.length_append, two]
      omega

theorem recv_opens {noise : Noise σ} {bytes frame : Bytes} {before after : σ}
    (opens : Opens noise (segments (putU32 frame.length ++ frame)) bytes before after)
    (closed : String) (sent rest : Bytes) (small : frame.length < 2 ^ 32) :
    recv noise closed ⟨sent, bytes ++ rest, before⟩ = .ok frame ⟨sent, rest, after⟩ := by
  have flatten := segments_flatten (putU32 frame.length ++ frame)
  have sizes := segments_sizes (putU32 frame.length ++ frame)
  have some_ : segments (putU32 frame.length ++ frame) ≠ [] := by
    intro none
    have lengths := congrArg List.length flatten
    rw [none, List.length_append, length_put_u32, List.flatten_nil, List.length_nil] at lengths
    omega
  have enough := opens_length opens
  refine recv_loop_opens opens closed frame sent rest small some_
    (fun seg member => (sizes seg member).1) _ ?_ [] none flatten (.inl rfl)
  simp only [List.length_append]
  omega

/-! ## All frames -/

/-- What was sent is received, frame for frame, and whatever follows on the stream is left. -/
theorem frames_survive_segmentation {noise : Noise σ} {paired : σ → σ → Prop}
    (inverts : noise.Inverts paired) (closed : String) (frames : List Bytes)
    (small : ∀ frame ∈ frames, frame.length < 2 ^ 32) (sender receiver : σ)
    (pair : paired sender receiver) (sent inbox other rest : Bytes) :
    ∃ bytes sender' receiver',
      sendAll noise frames ⟨sent, inbox, sender⟩ = .ok () ⟨sent ++ bytes, inbox, sender'⟩ ∧
      recvAll noise closed frames.length ⟨other, bytes ++ rest, receiver⟩ =
        .ok frames ⟨other, rest, receiver'⟩ ∧
      paired sender' receiver' := by
  induction frames generalizing sender receiver sent with
  | nil =>
      refine ⟨[], sender, receiver, ?_, rfl, pair⟩
      rw [List.append_nil]
      rfl
  | cons frame frames ih =>
      obtain ⟨first, others⟩ := List.forall_mem_cons.mp small
      obtain ⟨front, sender₁, receiver₁, sends, opens, again⟩ :=
        send_segments_opens inverts (segments (putU32 frame.length ++ frame))
          (fun seg member => (segments_sizes _ seg member).2) sender receiver pair sent inbox
      obtain ⟨back, sender₂, receiver₂, later, receives, last⟩ :=
        ih others sender₁ receiver₁ again (sent ++ front)
      have received := recv_opens opens closed other (back ++ rest) first
      refine ⟨front ++ back, sender₂, receiver₂, ?_, ?_, last⟩
      · rw [← List.append_assoc, ← later]
        simp only [sendAll, bind, EStateM.bind, send, sends]
      · rw [List.append_assoc]
        simp only [List.length_cons, recvAll, bind, EStateM.bind, received, receives]
        rfl

end Frames

/-! ## A cipher for trying it out -/

/-- Both ends count messages; the count masks the bytes and is the tag. -/
def countingNoise : Noise Nat where
  writeMessage message count :=
    if 65535 < message.length + 16 then .error "input error"
    else .ok (message.map (· ^^^ UInt8.ofNat count) ++ encodeBE 16 count, count + 1)
  readMessage cipher count :=
    if cipher.drop (cipher.length - 16) ≠ encodeBE 16 count then .error "decrypt error"
    else .ok ((cipher.take (cipher.length - 16)).map (· ^^^ UInt8.ofNat count), count + 1)

theorem unmask (mask : UInt8) (message : Bytes) :
    (message.map (· ^^^ mask)).map (· ^^^ mask) = message := by
  rw [List.map_map]
  conv_rhs => rw [← List.map_id message]
  apply List.map_congr_left
  intro byte _
  rw [Function.comp_apply, UInt8.xor_assoc, UInt8.xor_self, UInt8.xor_zero, id]

theorem counting_inverts : countingNoise.Inverts Eq where
  opens := by
    rintro count _ rfl message size
    have length : (message.map (· ^^^ UInt8.ofNat count) ++ encodeBE 16 count).length =
        message.length + 16 := by
      rw [List.length_append, List.length_map, encode_be_length]
    have fits : ¬ 65535 < message.length + 16 := by
      rw [maxSegment] at size
      omega
    have masked : (message.map (· ^^^ UInt8.ofNat count)).length = message.length :=
      List.length_map _
    refine ⟨_, count + 1, count + 1, if_neg fits, length, ?_, rfl⟩
    simp only [countingNoise, length, Nat.add_sub_cancel, List.drop_left' masked, ne_eq,
      not_true_eq_false, if_false, List.take_left' masked, unmask]

theorem counted_frames_survive : ∃ bytes sender' receiver',
    sendAll countingNoise [[], [7, 8]] ⟨[], [], 0⟩ = .ok () ⟨[] ++ bytes, [], sender'⟩ ∧
      recvAll countingNoise "connection lost" 2 ⟨[], bytes ++ [], 0⟩ =
        .ok [[], [7, 8]] ⟨[], [], receiver'⟩ ∧
      sender' = receiver' :=
  frames_survive_segmentation counting_inverts "connection lost" [[], [7, 8]] (by decide) 0 0 rfl
    [] [] [] []

end HorizonOs.Constellation
